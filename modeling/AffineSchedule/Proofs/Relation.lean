import AffineSchedule.Proofs.Polyhedron
import AffineSchedule.Relation.Query

namespace AffineSchedule

open Checked List AffineForm Polyhedron Conjunct

variable {relation result : Relation} {conjunct : Conjunct} {params x y : ℕ → ℤ} {target source : Tuple}
  {count inputs outputs : ℕ} {columns : ℕ → ℤ} {row : List ℤ} {form : AffineForm} {tagged : Relation}

namespace Conjunct

/-- The conjunct has the given numbers of columns and parameters, and its constraints have its layout. -/
structure LaidOut (conjunct : Conjunct) (inputs outputs params : ℕ) : Prop where
  inputs : conjunct.inputs = inputs
  outputs : conjunct.outputs = outputs
  dim : conjunct.system.dim = conjunct.columns
  params : conjunct.params = params
  system : conjunct.system.LaidOut

/-- The columns hold a source point, a target point, and any values of the other columns. -/
structure Joins (conjunct : Conjunct) (source target : Tuple) (columns x y : ℕ → ℤ) : Prop where
  source : ∀ index < source.dim, columns index = x index
  target : ∀ index < target.dim, columns (conjunct.inputs + index) = y index

/-- What validation checks. -/
theorem laidOut_of_validate {params : ℕ} (validated : conjunct.validate source target params = .ok ()) :
    conjunct.LaidOut source.totalDim target.totalDim params := by
  simp only [validate, Tuple.columns, width, bind_ok, Size.checked_ok_iff] at validated
  obtain ⟨_, ⟨_, rfl⟩, validated⟩ := validated
  by_cases inputs_eq : conjunct.inputs = source.totalDim
  · rw [if_neg (not_not_intro inputs_eq)] at validated
    simp only [bind_ok, Size.checked_ok_iff] at validated
    obtain ⟨_, ⟨_, rfl⟩, validated⟩ := validated
    by_cases outputs_eq : conjunct.outputs = target.totalDim
    · rw [if_neg (not_not_intro outputs_eq)] at validated
      simp only [bind_ok, Size.checked_ok_iff] at validated
      obtain ⟨_, ⟨_, rfl⟩, validated⟩ := validated
      split_ifs at validated with fits
      exact ⟨inputs_eq, outputs_eq, fits.1, fits.2.1, fits.2.2⟩
    · simp [outputs_eq, throw, throwThe, MonadExceptOf.throw, bind, Except.bind] at validated
  · simp [inputs_eq, throw, throwThe, MonadExceptOf.throw, bind, Except.bind] at validated

/-- The conjunct is not reported empty. -/
def MayHold (conjunct : Conjunct) : Prop := conjunct.system.isEmpty ≠ .ok true

end Conjunct

namespace Relation

/-- A source point and a target point are related under given parameter values: a disjunct holds for
    some values of the tag and local columns. -/
def Relates (relation : Relation) (params x y : ℕ → ℤ) : Prop :=
  ∃ conjunct ∈ relation.disjuncts, ∃ columns : ℕ → ℤ,
    conjunct.Joins relation.source relation.target columns x y ∧ conjunct.system.Holds columns params

/-- Every disjunct has the layout that the endpoints and the parameters declare. -/
def LaidOut (relation : Relation) : Prop :=
  ∀ conjunct ∈ relation.disjuncts,
    conjunct.LaidOut relation.source.totalDim relation.target.totalDim relation.params.length

/-- No constraint uses two parameters of one name. -/
def NamesOnce (relation : Relation) : Prop :=
  ∀ conjunct ∈ relation.disjuncts, conjunct.system.NamesOnce relation.params

theorem laidOut_of_validate (validated : relation.validate = .ok ()) : relation.LaidOut := fun _ conjunct_mem =>
  Conjunct.laidOut_of_validate (forM_ok.mp validated _ conjunct_mem)

/-- What holds of a disjunct where columns hold two points holds of a disjunct of another relation with the same ends. -/
structure Images (relation other : Relation) (params others x y : ℕ → ℤ) : Prop where
  source : other.source = relation.source
  target : other.target = relation.target
  image : ∀ conjunct ∈ relation.disjuncts, ∀ columns, conjunct.Joins relation.source relation.target columns x y →
    conjunct.system.Holds columns params →
    ∃ image ∈ other.disjuncts, image.inputs = conjunct.inputs ∧ image.system.Holds columns others

theorem Relates.of_images {other : Relation} {others : ℕ → ℤ} (related : relation.Relates params x y)
    (images : relation.Images other params others x y) : other.Relates others x y := by
  obtain ⟨conjunct, conjunct_mem, columns, joins, holds⟩ := related
  obtain ⟨image, image_mem, inputs_eq, image_holds⟩ := images.image conjunct conjunct_mem columns joins holds
  refine ⟨image, image_mem, columns, ⟨images.source ▸ joins.source, ?_⟩, image_holds⟩
  rw [images.target, inputs_eq]
  exact joins.target

/-- The second relation keeps the pairs of the first one that meet a condition. -/
structure Narrowed (relation result : Relation) (chosen : (ℕ → ℤ) → (ℕ → ℤ) → (ℕ → ℤ) → Prop) : Prop where
  within : ∀ params x y, result.Images relation params params x y
  meets : ∀ params x y, result.Relates params x y → chosen params x y
  kept : ∀ params x y, chosen params x y → relation.Images result params params x y

theorem Narrowed.relates_iff {chosen : (ℕ → ℤ) → (ℕ → ℤ) → (ℕ → ℤ) → Prop} (narrowed : relation.Narrowed result chosen) :
    result.Relates params x y ↔ relation.Relates params x y ∧ chosen params x y :=
  ⟨fun related => ⟨related.of_images (narrowed.within params x y), narrowed.meets params x y related⟩,
    fun ⟨related, meets⟩ => related.of_images (narrowed.kept params x y meets)⟩

/-! ### Matching parameters -/

section

variable {params : List String} (aligned : relation.alignParams params = .ok result)
include aligned

/-- The relation over another parameter list has the points of its disjuncts. -/
theorem alignParams_ok :
    result = { relation with params := params, disjuncts := result.disjuncts }
      ∧ (relation.NamesOnce → ∀ values : String → ℤ, Forall₂ (fun conjunct image : Conjunct =>
          image = { conjunct with system := image.system } ∧ ∀ columns, image.system.Holds columns (named params values)
            ↔ conjunct.system.Holds columns (named relation.params values)) relation.disjuncts result.disjuncts) := by
  simp only [alignParams, bind_ok, pure_ok, mapM_ok] at aligned
  obtain ⟨disjuncts, each, rfl⟩ := aligned
  refine ⟨rfl, fun once values => ((forall₂_and_left _ _).mpr ⟨once, each⟩).imp fun conjunct image ⟨once, step_ok⟩ => ?_⟩
  obtain ⟨system, system_ok, rfl⟩ := step_ok
  exact ⟨rfl, fun columns => holds_alignParams_iff once system_ok columns values⟩

/-- The relation over another parameter list keeps its endpoints and its pairs. -/
theorem relates_alignParams_iff :
    result.source = relation.source ∧ result.target = relation.target ∧ result.params = params
      ∧ (relation.NamesOnce → ∀ (values : String → ℤ) (x y : ℕ → ℤ),
          result.Relates (named params values) x y ↔ relation.Relates (named relation.params values) x y) := by
  obtain ⟨result_eq, images⟩ := alignParams_ok aligned
  rw [result_eq]
  refine ⟨rfl, rfl, rfl, fun once values x y => ⟨fun related => related.of_images ⟨rfl, rfl, ?_⟩,
    fun related => related.of_images ⟨rfl, rfl, ?_⟩⟩⟩
  · intro image image_mem columns _ holds
    obtain ⟨conjunct, conjunct_mem, image_eq, same⟩ := (images once values).exists_left image_mem
    exact ⟨conjunct, conjunct_mem, by rw [image_eq], (same columns).mp holds⟩
  · intro conjunct conjunct_mem columns _ holds
    obtain ⟨image, image_mem, image_eq, same⟩ := (images once values).exists_right conjunct_mem
    exact ⟨image, image_mem, by rw [image_eq], (same columns).mpr holds⟩

end

/-! ### Empty disjuncts -/

/-- Dropping the empty disjuncts keeps the ends, and the disjuncts that hold somewhere. -/
theorem dropEmpty_ok (dropped : relation.dropEmpty = .ok result) :
    result = { relation with disjuncts := result.disjuncts } ∧ (∀ conjunct ∈ result.disjuncts, conjunct ∈ relation.disjuncts)
      ∧ ∀ conjunct ∈ relation.disjuncts, conjunct.system.LaidOut →
          ∀ columns params, conjunct.system.Holds columns params → conjunct ∈ result.disjuncts := by
  simp only [dropEmpty, bind_ok, pure_ok] at dropped
  obtain ⟨kept, filtered, rfl⟩ := dropped
  refine ⟨rfl, fun conjunct kept_mem => ((mem_filterM filtered conjunct).mp kept_mem).1, ?_⟩
  intro conjunct conjunct_mem laid_out columns params holds
  obtain ⟨answer, tested⟩ := tested_of_filterM filtered conjunct_mem
  have passed := tested
  simp only [bind_ok, pure_ok] at tested
  obtain ⟨empty, empty_ok, rfl⟩ := tested
  refine (mem_filterM filtered conjunct).mpr ⟨conjunct_mem, ?_⟩
  rwa [isEmpty_eq_false laid_out empty_ok holds] at passed

/-- Dropping the empty disjuncts keeps the layout and every pair. -/
theorem images_of_dropEmpty (laid_out : relation.LaidOut) (dropped : relation.dropEmpty = .ok result) :
    result.LaidOut ∧ ∀ params x y, relation.Images result params params x y := by
  obtain ⟨result_eq, kept, survives⟩ := dropEmpty_ok dropped
  rw [result_eq]
  refine ⟨fun conjunct conjunct_mem => laid_out conjunct (kept conjunct conjunct_mem), fun params x y => ⟨rfl, rfl, ?_⟩⟩
  intro conjunct conjunct_mem columns _ holds
  exact ⟨conjunct, survives conjunct conjunct_mem (laid_out conjunct conjunct_mem).system columns params holds, rfl, holds⟩

/-- What an answer about integer points means, for rows over free variables, for polyhedra and for the disjuncts of a
    relation. Only a search that ran out of its budget leaves open whether there is a point. -/
theorem emptiness_exact : (∀ (count limit : ℕ) (rows : List Linear.Row),
        (Linear.integerFeasible count rows limit = .ok .feasible →
          ∃ v : ℕ → ℤ, ∀ row ∈ rows, row.Holds (Linear.integerAssignment v))
        ∧ (Linear.integerFeasible count rows limit = .ok .infeasible →
          ¬ ∃ v : ℕ → ℤ, ∀ row ∈ rows, row.Holds (Linear.integerAssignment v)))
      ∧ (∀ polyhedron : Polyhedron, polyhedron.LaidOut →
        (polyhedron.isEmpty = .ok true → ¬ ∃ dims params, polyhedron.Holds dims params)
        ∧ (polyhedron.isEmpty = .ok false → (∃ dims params, polyhedron.Holds dims params) ∨ polyhedron.Searches .unknown))
      ∧ ∀ relation kept : Relation, relation.dropEmpty = .ok kept → kept = { relation with disjuncts := kept.disjuncts }
        ∧ ((∀ conjunct ∈ relation.disjuncts, conjunct.system.LaidOut) → ∀ conjunct columns params,
          conjunct ∈ kept.disjuncts ∧ conjunct.system.Holds columns params ↔
            conjunct ∈ relation.disjuncts ∧ conjunct.system.Holds columns params) := by
  refine ⟨fun count limit rows => ⟨Linear.holds_of_integerFeasible, ?_⟩, fun polyhedron laid_out => ⟨?_, ?_⟩, ?_⟩
  · rintro infeasible ⟨v, rows_hold⟩
    exact Linear.not_holds_of_integerFeasible infeasible v rows_hold
  · rintro empty ⟨dims, params, holds⟩
    exact not_holds_of_isEmpty laid_out empty dims params holds
  · exact exists_holds_of_isEmpty laid_out
  · intro relation kept dropped
    obtain ⟨kept_eq, subset, survives⟩ := dropEmpty_ok dropped
    refine ⟨kept_eq, fun laid_out conjunct columns params => ⟨?_, ?_⟩⟩
    · exact fun ⟨kept_mem, holds⟩ => ⟨subset conjunct kept_mem, holds⟩
    · exact fun ⟨conjunct_mem, holds⟩ =>
        ⟨survives conjunct conjunct_mem (laid_out conjunct conjunct_mem) columns params holds, holds⟩

/-- A number below zero is found, and none that is one half, whether it is looked for by branching or by divisibility. -/
theorem emptiness_exact_halves :
    let below : Linear.Row := { sense := .nonnegative, form := { terms := [(0, -1)], constant := -1 } }
    let half : Linear.Row := { sense := .zero, form := { terms := [(0, 2)], constant := -1 } }
    let halves : Polyhedron :=
      { dim := 1, params := 0, constraints := [{ sense := .zero, form := { constant := -1, coeffs := [2], params := [] } }] }
    (∃ v : ℕ → ℤ, ∀ row ∈ [below], row.Holds (Linear.integerAssignment v))
      ∧ (¬ ∃ v : ℕ → ℤ, ∀ row ∈ [half], row.Holds (Linear.integerAssignment v))
      ∧ ¬ ∃ dims params, halves.Holds dims params := by
  intro below half halves
  obtain ⟨rows_exact, polyhedra_exact, _⟩ := emptiness_exact
  refine ⟨(rows_exact 1 9 [below]).1 ?_, (rows_exact 1 9 [half]).2 ?_, (polyhedra_exact halves ?_).1 ?_⟩
  · decide +kernel
  · decide +kernel
  · unfold Polyhedron.LaidOut
    decide
  · decide +kernel

end Relation

/-! ### Tags -/

namespace Conjunct

/-- The columns after the tags have become locals. -/
def untaggedColumns (source target : Tuple) (columns : ℕ → ℤ) : ℕ → ℤ := fun index =>
  if index < source.dim then columns index
  else if index < source.dim + target.dim then columns (index + source.tagDim)
  else if index < source.dim + target.dim + source.tagDim then columns (index - target.dim)
  else columns index

/-- The new position of a column. -/
def untaggedPosition (source target : Tuple) (index : ℕ) : ℕ :=
  if index < source.dim then index
  else if index < source.dim + source.tagDim then index + target.dim
  else if index < source.dim + source.tagDim + target.dim then index - source.tagDim
  else index

theorem getD_block_append (start count index : ℕ) (rest : List ℕ) :
    ((List.range count).map (start + ·) ++ rest).getD index 0
      = if index < count then start + index else rest.getD (index - count) 0 := by
  by_cases inside : index < count
  · rw [if_pos inside, getD_append _ _ _ _ (by simpa using inside), getD_consecutive inside]
  · rw [if_neg inside, getD_append_right _ _ _ _ (by simpa using inside), length_map, length_range]

theorem getD_block (start count index : ℕ) :
    ((List.range count).map (start + ·)).getD index 0 = if index < count then start + index else 0 := by
  simpa using getD_block_append start count index []

theorem untaggedColumns_untaggedPosition (source target : Tuple) (columns : ℕ → ℤ) (index : ℕ) :
    untaggedColumns source target columns (untaggedPosition source target index) = columns index := by
  unfold untaggedPosition
  by_cases in_source : index < source.dim
  · rw [if_pos in_source, untaggedColumns, if_pos in_source]
  · rw [if_neg in_source]
    by_cases in_source_tag : index < source.dim + source.tagDim
    · rw [if_pos in_source_tag, untaggedColumns, if_neg (by omega), if_neg (by omega), if_pos (by omega), Nat.add_sub_cancel]
    · rw [if_neg in_source_tag]
      by_cases in_target : index < source.dim + source.tagDim + target.dim
      · rw [if_pos in_target, untaggedColumns, if_neg (by omega), if_pos (by omega), Nat.sub_add_cancel (by omega)]
      · rw [if_neg in_target, untaggedColumns, if_neg (by omega), if_neg (by omega), if_neg (by omega)]

/-- The blocks of columns are moved as wholes. -/
theorem getD_untaggedPositions {locals : ℕ} {positions : List ℕ}
    (placed : untaggedPositions source target locals = .ok positions) :
    positions.length = source.totalDim + target.totalDim + locals
      ∧ ∀ index < positions.length, positions.getD index 0 = untaggedPosition source target index := by
  simp only [untaggedPositions, bind_ok, pure_ok] at placed
  obtain ⟨_, ⟨_, _, first_ok⟩, _, ⟨_, _, second_ok⟩, _, ⟨_, _, third_ok⟩, _, ⟨_, _, fourth_ok⟩, _,
    ⟨_, _, fifth_ok⟩, rfl⟩ := placed
  rw [consecutive_ok first_ok, consecutive_ok second_ok,
    consecutive_ok third_ok, consecutive_ok fourth_ok, consecutive_ok fifth_ok]
  constructor
  · simp only [length_append, length_map, length_range, Tuple.totalDim]
    omega
  · intro index inside
    simp only [length_append, length_map, length_range] at inside
    simp only [append_assoc, getD_block_append, getD_block, untaggedPosition]
    split_ifs <;> omega

section

variable {result : Conjunct} {params : ℕ} (laid_out : conjunct.LaidOut source.totalDim target.totalDim params)
  (done : conjunct.untag source target = .ok result)
include laid_out done

/-- Moving the tags into the locals keeps the layout, and takes every column to its new position. -/
theorem untag_ok : result.LaidOut source.dim target.dim params ∧ ∃ positions,
      (∀ index < conjunct.system.dim, positions.getD index 0 = untaggedPosition source target index)
        ∧ conjunct.system.relayout result.system.dim positions = .ok result.system := by
  simp only [untag, bind_ok, pure_ok, Size.checked_ok_iff] at done
  obtain ⟨_, _, _, _, locals, ⟨_, rfl⟩, _, _, _, _, positions, placed, _, ⟨_, rfl⟩, system, moved, rfl⟩ := done
  obtain ⟨length_eq, positions_eq⟩ := getD_untaggedPositions placed
  obtain ⟨dim_eq, params_eq, _⟩ := relayout_ok moved
  refine ⟨⟨rfl, rfl, dim_eq, params_eq.trans laid_out.params, laidOut_of_relayout laid_out.system moved⟩, positions,
    fun index inside => positions_eq index ?_, dim_eq.symm ▸ moved⟩
  rw [length_eq, ← laid_out.inputs, ← laid_out.outputs]
  exact inside.trans_eq laid_out.dim

theorem holds_untag_iff (columns values : ℕ → ℤ) : result.system.Holds columns values ↔
    conjunct.system.Holds (fun index => columns (untaggedPosition source target index)) values := by
  obtain ⟨_, positions, positions_eq, moved⟩ := untag_ok laid_out done
  rw [holds_relayout_iff moved]
  exact holds_congr laid_out.system fun index inside => congrArg columns (positions_eq index inside)

end

end Conjunct

namespace Relation

/-- Moving the tags into the locals keeps the pairs. -/
theorem relates_of_untag (laid_out : relation.LaidOut) (done : relation.untag = .ok result) :
    result.source = relation.source.untagged ∧ result.target = relation.target.untagged
      ∧ result.params = relation.params ∧ result.LaidOut
      ∧ ∀ {params x y : ℕ → ℤ}, result.Relates params x y ↔ relation.Relates params x y := by
  unfold untag at done
  cases tagged : relation.isTagged with
  | false =>
    simp only [tagged, Bool.false_eq_true, if_false, pure_ok] at done
    obtain ⟨source_untagged, target_untagged⟩ : relation.source.tag = none ∧ relation.target.tag = none := by
      simpa [isTagged] using tagged
    rw [← done]
    refine ⟨?_, ?_, rfl, laid_out, Iff.rfl⟩
    · rw [Tuple.untagged, ← source_untagged]
    · rw [Tuple.untagged, ← target_untagged]
  | true =>
    simp only [tagged, if_true, bind_ok, pure_ok, mapM_ok] at done
    obtain ⟨disjuncts, each, rfl⟩ := done
    refine ⟨rfl, rfl, rfl, ?_, fun {params x y} => ⟨?_, ?_⟩⟩
    · refine each.forall_mem ?_ laid_out
      intro conjunct image _ image_ok conjunct_laid_out
      exact (untag_ok conjunct_laid_out image_ok).1
    · rintro ⟨image, image_mem, columns, joins, holds⟩
      obtain ⟨conjunct, conjunct_mem, image_ok⟩ := each.exists_left image_mem
      have conjunct_laid_out := laid_out conjunct conjunct_mem
      refine ⟨conjunct, conjunct_mem, _, ⟨fun index inside => ?_, fun index inside => ?_⟩,
        (holds_untag_iff conjunct_laid_out image_ok columns params).mp holds⟩
      · rw [untaggedPosition, if_pos inside]
        exact joins.source index inside
      · have moved : untaggedPosition relation.source relation.target (conjunct.inputs + index)
            = image.inputs + index := by
          rw [conjunct_laid_out.inputs, (untag_ok conjunct_laid_out image_ok).1.inputs, Tuple.totalDim, untaggedPosition,
            if_neg (by omega), if_neg (by omega), if_pos (by omega)]
          omega
        rw [moved]
        exact joins.target index inside
    · rintro ⟨conjunct, conjunct_mem, columns, joins, holds⟩
      have conjunct_laid_out := laid_out conjunct conjunct_mem
      obtain ⟨image, image_mem, image_ok⟩ := each.exists_right conjunct_mem
      have image_laid_out := (untag_ok conjunct_laid_out image_ok).1
      refine ⟨image, image_mem, untaggedColumns relation.source relation.target columns,
        ⟨fun index inside => ?_, fun index inside => ?_⟩, (holds_untag_iff conjunct_laid_out image_ok _ params).mpr ?_⟩
      · have inside_source : index < relation.source.dim := inside
        rw [untaggedColumns, if_pos inside_source]
        exact joins.source index inside_source
      · have inside_target : index < relation.target.dim := inside
        rw [image_laid_out.inputs, untaggedColumns, if_neg (by omega), if_pos (by omega)]
        have moved : relation.source.dim + index + relation.source.tagDim = conjunct.inputs + index := by
          rw [conjunct_laid_out.inputs, Tuple.totalDim]
          omega
        rw [moved]
        exact joins.target index inside_target
      · simpa only [untaggedColumns_untaggedPosition] using holds

theorem relates_withDummyTags_iff : relation.withDummyTags.Relates params x y ↔ relation.Relates params x y := by
  refine exists_congr fun conjunct => and_congr_right fun _ => exists_congr fun columns => and_congr_left fun _ => ?_
  exact ⟨fun joins => ⟨joins.source, joins.target⟩, fun joins => ⟨joins.source, joins.target⟩⟩

/-- The tagged form of a relation: the relation itself if both ends are tagged, or else the relation without tags, with
    the dummy tag on both ends. -/
inductive TaggedAs (relation : Relation) : Relation → Prop
  | itself (tagged : relation.isFullyTagged = true) : TaggedAs relation relation
  | dummy {untagged : Relation} (partly : relation.isFullyTagged = false) (done : relation.untag = .ok untagged) :
      TaggedAs relation untagged.withDummyTags

theorem taggedAs_iff {untagged : Relation} (done : relation.untag = .ok untagged) :
    relation.TaggedAs tagged ↔ if relation.isFullyTagged then tagged = relation else tagged = untagged.withDummyTags := by
  split
  next fully =>
    constructor
    · rintro (_ | ⟨partly, _⟩)
      · rfl
      · rw [partly] at fully
        cases fully
    · rintro rfl
      exact .itself fully
  next partly =>
    constructor
    · rintro (fully | ⟨_, other_ok⟩)
      · exact absurd fully partly
      · rw [Except.ok.inj (done.symm.trans other_ok)]
    · rintro rfl
      exact .dummy (Bool.eq_false_iff.mpr partly) done

theorem TaggedAs.isFullyTagged (as_tagged : relation.TaggedAs tagged) : tagged.isFullyTagged = true := by
  cases as_tagged with
  | itself fully => exact fully
  | dummy => rfl

/-- The tagged form has the pairs of the relation. -/
theorem TaggedAs.relates_iff (as_tagged : relation.TaggedAs tagged) (laid_out : relation.LaidOut) :
    tagged.Relates params x y ↔ relation.Relates params x y := by
  cases as_tagged with
  | itself => rfl
  | dummy _ untagged_ok => exact relates_withDummyTags_iff.trans (relates_of_untag laid_out untagged_ok).2.2.2.2

end Relation

/-! ### Pairs on which rows agree -/

namespace Conjunct

theorem offset_source (conjunct : Conjunct) : conjunct.offset .source = 0 := rfl

theorem offset_target (conjunct : Conjunct) : conjunct.offset .target = conjunct.inputs := rfl

/-- A row on a side of a conjunct has the value of the row at the columns of that side. -/
theorem value_rowForm {side : Side} (done : conjunct.rowForm row side = .ok form) (columns params : ℕ → ℤ) :
    form.HasLayout conjunct.columns conjunct.params ∧ form.value columns params
        = rowValue row conjunct.params (fun index => columns (conjunct.offset side + index)) params := by
  simp only [rowForm, width, bind_ok, Size.checked_ok_iff] at done
  obtain ⟨plain, plain_ok, _, ⟨_, rfl⟩, embedded⟩ := done
  obtain ⟨layout, value_eq⟩ := value_embed embedded columns params
  obtain ⟨plain_layout, plain_value⟩ :=
    value_ofRow plain_ok (fun index => columns (conjunct.offset side + index)) params
  exact ⟨⟨layout.1, layout.2.trans plain_layout.2⟩, value_eq.trans plain_value⟩

/-- The distance of two rows on a conjunct. -/
theorem value_rowDistance {sourceRow targetRow : List ℤ} (done : conjunct.rowDistance sourceRow targetRow = .ok form)
    (columns params : ℕ → ℤ) : form.HasLayout conjunct.columns conjunct.params ∧ form.value columns params
      = rowValue targetRow conjunct.params (fun index => columns (conjunct.inputs + index)) params
        - rowValue sourceRow conjunct.params columns params := by
  simp only [rowDistance, bind_ok] at done
  obtain ⟨target, target_ok, source, source_ok, subtracted⟩ := done
  obtain ⟨⟨coeffs_length, params_length⟩, target_value⟩ := value_rowForm target_ok columns params
  obtain ⟨layout, value_eq⟩ := value_sub subtracted columns params
  refine ⟨⟨layout.1.trans coeffs_length, layout.2.trans params_length⟩, ?_⟩
  rw [value_eq, target_value, (value_rowForm source_ok columns params).2, offset_target, offset_source]
  simp only [Nat.zero_add]

/-- Adding a constraint to a conjunct. -/
theorem add_ok {result : Conjunct} {constraint : Constraint} (added : conjunct.add constraint = .ok result)
    (laid_out : conjunct.LaidOut inputs outputs count) : result.LaidOut inputs outputs count ∧ result.inputs = conjunct.inputs
      ∧ ∀ columns params, result.system.Holds columns params ↔
          conjunct.system.Holds columns params ∧ constraint.Holds columns params := by
  simp only [add, bind_ok, pure_ok] at added
  obtain ⟨system, system_ok, rfl⟩ := added
  obtain ⟨dim_eq, params_eq, laid_out_system, holds_iff⟩ := Polyhedron.add_ok system_ok
  refine ⟨?_, rfl, holds_iff⟩
  exact ⟨laid_out.inputs, laid_out.outputs, dim_eq.trans laid_out.dim, params_eq.trans laid_out.params,
    laid_out_system laid_out.system⟩

end Conjunct

namespace AffineForm

/-- The value of a row of a statement depends on the dimensions of the statement only. -/
theorem rowValue_congr {paramCount dim : ℕ} (length_eq : row.length = 1 + paramCount + dim) {dims others : ℕ → ℤ}
    (agree : ∀ index < dim, dims index = others index) :
    rowValue row paramCount dims params = rowValue row paramCount others params := by
  have same : dot (row.drop (1 + paramCount)) dims = dot (row.drop (1 + paramCount)) others := by
    apply dot_congr
    intro index inside
    apply agree
    rw [length_drop, length_eq] at inside
    omega
  rw [rowValue, rowValue, same]

end AffineForm

namespace Relation

/-- Rows of two statements that give a source point and a target point the same value. -/
def Agree (paramCount : ℕ) (params x y : ℕ → ℤ) (rows : List ℤ × List ℤ) : Prop :=
  rowValue rows.1 paramCount x params = rowValue rows.2 paramCount y params

/-- Restricting a conjunct to the pairs on which rows agree keeps those pairs and no others. -/
theorem holds_equateRows_iff {result : Conjunct} {rows : List (List ℤ × List ℤ)} (source target : Tuple)
    (laid_out : conjunct.LaidOut inputs outputs count) (done : rows.foldlM equateRows conjunct = .ok result) :
    result.LaidOut inputs outputs count ∧ result.inputs = conjunct.inputs
      ∧ ((∀ pair ∈ rows, pair.1.length = 1 + count + source.dim) → (∀ pair ∈ rows, pair.2.length = 1 + count + target.dim) →
        ∀ columns params x y : ℕ → ℤ, conjunct.Joins source target columns x y →
          (result.system.Holds columns params ↔ conjunct.system.Holds columns params ∧ ∀ pair ∈ rows, Agree count params x y pair)) := by
  induction rows generalizing conjunct with
  | nil =>
    obtain rfl := pure_ok.mp done
    exact ⟨laid_out, rfl, by simp⟩
  | cons pair later ih =>
    rw [foldlM_cons, bind_ok] at done
    obtain ⟨next, step_ok, later_ok⟩ := done
    simp only [equateRows, bind_ok] at step_ok
    obtain ⟨distance, distance_ok, added⟩ := step_ok
    obtain ⟨next_laid_out, next_inputs, next_holds⟩ := add_ok added laid_out
    obtain ⟨result_laid_out, inputs_eq, holds_iff⟩ := ih next_laid_out later_ok
    refine ⟨result_laid_out, inputs_eq.trans next_inputs, fun source_rows target_rows columns params x y joins => ?_⟩
    rw [forall_mem_cons] at source_rows target_rows
    have distance_zero : Constraint.Holds { sense := .zero, form := distance } columns params ↔ Agree count params x y pair := by
      have value_eq := (value_rowDistance distance_ok columns params).2
      rw [laid_out.params, rowValue_congr source_rows.1 joins.source,
        rowValue_congr target_rows.1 joins.target] at value_eq
      exact (congrArg (· = 0) value_eq).to_iff.trans (sub_eq_zero.trans eq_comm)
    rw [holds_iff source_rows.2 target_rows.2 columns params x y ⟨joins.source, next_inputs ▸ joins.target⟩, next_holds,
      distance_zero, forall_mem_cons, and_assoc]

/-- Restricting a relation to the pairs on which rows agree keeps those pairs, disjunct by disjunct and column by column. -/
theorem onEqualRows_ok {sourceRows targetRows : RowMatrix} (done : relation.onEqualRows sourceRows targetRows = .ok result) :
    result = { relation with disjuncts := result.disjuncts } ∧ (relation.LaidOut → result.LaidOut
      ∧ (sourceRows.cols = 1 + relation.params.length + relation.source.dim →
        targetRows.cols = 1 + relation.params.length + relation.target.dim →
        Forall₂ (fun conjunct image : Conjunct => image.inputs = conjunct.inputs ∧ ∀ columns params x y : ℕ → ℤ,
          conjunct.Joins relation.source relation.target columns x y → (image.system.Holds columns params ↔
            conjunct.system.Holds columns params
              ∧ ∀ pair ∈ sourceRows.rows.zip targetRows.rows, Agree relation.params.length params x y pair))
          relation.disjuncts result.disjuncts)) := by
  simp only [onEqualRows, bind_ok, pure_ok, mapM_ok] at done
  obtain ⟨disjuncts, each, rfl⟩ := done
  refine ⟨rfl, fun laid_out => ⟨?_, fun source_cols target_cols => ?_⟩⟩
  · refine each.forall_mem (fun conjunct image _ image_ok conjunct_laid_out => ?_) laid_out
    exact (holds_equateRows_iff relation.source relation.target conjunct_laid_out image_ok).1
  · refine ((forall₂_and_left _ _).mpr ⟨laid_out, each⟩).imp fun conjunct image ⟨conjunct_laid_out, image_ok⟩ => ?_
    obtain ⟨_, inputs_eq, holds_iff⟩ := holds_equateRows_iff relation.source relation.target conjunct_laid_out image_ok
    refine ⟨inputs_eq, holds_iff (fun pair pair_mem => ?_) fun pair pair_mem => ?_⟩
    · exact (sourceRows.uniform pair.1 (of_mem_zip pair_mem).1).trans source_cols
    · exact (targetRows.uniform pair.2 (of_mem_zip pair_mem).2).trans target_cols

/-! ### Lines -/

/-- The pairs of points of two lines that meet some constraints. -/
def onLines (source target : String) (params : List String) (constraints : List Constraint) : Relation :=
  { source := { name := source, dim := 1 }
    target := { name := target, dim := 1 }
    params
    disjuncts := [{ inputs := 1, outputs := 1, locals := 0, system := { dim := 2, params := params.length, constraints } }] }

/-- The pairs of points of two lines, the second of which lies a distance behind the first. -/
def shifted (source target : String) (distance : ℤ) : Relation :=
  onLines source target [] [{ sense := .zero, form := { constant := distance, coeffs := [-1, 1], params := [] } }]

section

variable (source target : String) (distance : ℤ)

theorem shifted_namesOnce : (shifted source target distance).NamesOnce := by
  intro conjunct conjunct_mem constraint constraint_mem first second first_nonzero
  obtain rfl := mem_singleton.mp conjunct_mem
  obtain rfl := mem_singleton.mp constraint_mem
  simp at first_nonzero

theorem shifted_relates (params : ℕ → ℤ) {x y : ℕ → ℤ} (apart : y 0 = x 0 - distance) :
    (shifted source target distance).Relates params x y := by
  refine ⟨_, mem_singleton_self _, fun index => if index = 0 then x 0 else y 0, ⟨?_, ?_⟩, ?_⟩
  · intro index inside
    obtain rfl : index = 0 := Nat.lt_one_iff.mp inside
    rfl
  · intro index inside
    obtain rfl : index = 0 := Nat.lt_one_iff.mp inside
    rfl
  · intro constraint constraint_mem
    obtain rfl := mem_singleton.mp constraint_mem
    have balanced : distance + (-x 0 + y 0) = 0 := by omega
    simpa [Constraint.Holds, Sense.Holds, AffineForm.value] using balanced

end

end Relation

end AffineSchedule
