import AffineSchedule.Proofs.Linear.Faults
import AffineSchedule.Proofs.Relation

namespace AffineSchedule

open Checked List AffineForm AffineSchedule.Relation Polyhedron Conjunct

/-! ### Answers -/

variable {answer : Bool} {dim count : ℕ} {exhausted : Prop} {α : Type} {entries : List α} {allowed : Fault → Prop}

/-- An answer notices everything there is; it may also stand for a search that ran out of its budget. -/
structure Notices (there_is exhausted : Prop) (answer : Bool) : Prop where
  complete : there_is → answer = true
  sound : answer = true → there_is ∨ exhausted

theorem Notices.congr {there_is others : Prop} (notices : Notices there_is exhausted answer) (iff : there_is ↔ others) :
    Notices others exhausted answer :=
  ⟨fun there => notices.complete (iff.mpr there), fun noticed => (notices.sound noticed).imp_left iff.mp⟩

theorem Checked.meets_anyM {test : α → Checked Bool} {there_is exhausted : α → Prop}
    (each : ∀ entry ∈ entries, Meets allowed (test entry) (Notices (there_is entry) (exhausted entry))) :
    Meets allowed (entries.anyM test) (Notices (∃ entry ∈ entries, there_is entry) (∃ entry ∈ entries, exhausted entry)) := by
  refine ⟨faultsIn_anyM fun entry entry_mem => (each entry entry_mem).faults, fun answer searched => ⟨?_, ?_⟩⟩
  · rintro ⟨entry, entry_mem, there⟩
    exact anyM_eq_true searched entry_mem fun result tested => ((each entry entry_mem).result result tested).complete there
  · rintro rfl
    obtain ⟨entry, entry_mem, tested⟩ := exists_of_anyM_ok_true searched
    exact (((each entry entry_mem).result true tested).sound rfl).imp (⟨entry, entry_mem, ·⟩) (⟨entry, entry_mem, ·⟩)

/-- A question has the answer exactly where its meaning holds, unless a search ran out of its budget, a number left its
    range or a list would be longer than any list can be. -/
def AnswersExactly (asked : Checked Bool) (answer : Bool) (meaning exhausted : Prop) (length : ℕ) : Prop :=
  (asked = .ok answer → meaning)
    ∧ (meaning → asked = .ok answer ∨ exhausted ∨ ∃ fault, asked = .error fault ∧ Fault.Limits length fault)

theorem answersExactly_of_meets {asked : Checked Bool} {meaning : Prop} {length : ℕ}
    (meets : Meets (Fault.Limits length) asked fun result => Notices (¬ meaning) exhausted (result != answer)) :
    AnswersExactly asked answer meaning exhausted length := by
  refine ⟨fun answered => ?_, fun meant => ?_⟩
  · by_contra not_meant
    simpa using (meets.result answer answered).complete not_meant
  · cases result : asked with
    | error fault => exact Or.inr (Or.inr ⟨fault, rfl, meets.faults fault result⟩)
    | ok given =>
      by_cases same : given = answer
      · exact Or.inl (by rw [same])
      · rcases (meets.result given result).sound (by simpa using same) with not_meant | exhausted
        · exact absurd meant not_meant
        · exact Or.inr (Or.inl exhausted)

namespace Polyhedron

variable {constraint : Constraint} {polyhedron : Polyhedron}

theorem within_constraintRow {row : Linear.Row} (layout : constraint.HasLayout dim count)
    (made : constraintRow dim constraint = .ok row) : row.form.Within (dim + count) := by
  simp only [constraintRow, bind_ok] at made
  obtain ⟨paramTerms, paramTerms_ok, made⟩ := made
  refine Linear.Row.within_make made fun term term_mem => ?_
  rw [mapM_paramTerms paramTerms_ok] at term_mem
  obtain ⟨coeffs_length, params_length⟩ := layout
  rcases mem_append.mp term_mem with in_dims | in_params
  · obtain ⟨entry, entry_mem, rfl⟩ := mem_map.mp in_dims
    have bound := snd_lt_of_mem_zipIdx entry_mem
    dsimp only
    omega
  · obtain ⟨entry, entry_mem, rfl⟩ := mem_map.mp in_params
    have bound := snd_lt_of_mem_zipIdx entry_mem
    dsimp only
    omega

theorem meets_add (layout : constraint.HasLayout polyhedron.dim polyhedron.params) :
    Meets allowed (polyhedron.add constraint) fun next => next.dim = polyhedron.dim ∧ next.params = polyhedron.params
      ∧ (polyhedron.LaidOut → next.LaidOut)
      ∧ ∀ dims params, next.Holds dims params ↔ polyhedron.Holds dims params ∧ constraint.Holds dims params :=
  ⟨by simp [add, faultsIn_require layout], fun _ => add_ok⟩

/-- Adding a constraint for each entry adds what the constraints mean. -/
theorem meets_foldlM_add {place : α → Checked Constraint} {meaning : α → (ℕ → ℤ) → (ℕ → ℤ) → Prop}
    (each : ∀ entry ∈ entries, Meets allowed (place entry) fun constraint =>
      constraint.HasLayout polyhedron.dim polyhedron.params
        ∧ ∀ dims params, constraint.Holds dims params ↔ meaning entry dims params) :
    Meets allowed (entries.foldlM (fun (joined : Polyhedron) entry => place entry >>= joined.add) polyhedron) fun final =>
      final.dim = polyhedron.dim ∧ final.params = polyhedron.params ∧ (polyhedron.LaidOut → final.LaidOut)
        ∧ ∀ dims params, final.Holds dims params ↔
          polyhedron.Holds dims params ∧ ∀ entry ∈ entries, meaning entry dims params := by
  induction entries generalizing polyhedron with
  | nil => exact meets_pure ⟨rfl, rfl, id, by simp⟩
  | cons entry later ih =>
    obtain ⟨first, rest⟩ := forall_mem_cons.mp each
    rw [foldlM_cons, bind_assoc]
    refine first.bind fun constraint _ ⟨layout, means⟩ =>
      (meets_add layout).bind fun next _ ⟨dim_eq, params_eq, next_laid_out, next_holds⟩ => ?_
    rw [← dim_eq, ← params_eq] at rest ⊢
    refine (ih rest).imp fun final ⟨final_dim, final_params, final_laid_out, final_holds⟩ =>
      ⟨final_dim, final_params, final_laid_out ∘ next_laid_out, fun dims params => ?_⟩
    rw [final_holds, next_holds, means, forall_mem_cons, and_assoc]

/-- The test for points, with its machine limits: every free variable has two columns. -/
theorem meets_isEmpty (laid_out : polyhedron.LaidOut) :
    Meets (Fault.Limits (2 * (polyhedron.dim + polyhedron.params))) polyhedron.isEmpty fun empty =>
      Notices (∃ dims params, polyhedron.Holds dims params) (polyhedron.Searches .unknown) !empty := by
  refine ⟨?_, fun empty tested => ⟨?_, ?_⟩⟩
  · simp only [isEmpty, faultsIn_ite_iff, faultsIn_bind_iff, faultsIn_pure, implies_true, true_and, and_true,
      mapM_ok, Size.faultsIn_add, Size.add_ok_iff]
    refine fun _ => ⟨by simp [isIndivisible], fun _ _ _ => ⟨by simp [constraintRow], ?_⟩⟩
    rintro rows rows_ok _ ⟨_, rfl⟩
    refine Linear.faultsIn_integerFeasible (Linear.Lattice.limits_splitProblem ?_) _
    exact rows_ok.forall_mem (fun _ _ _ made layout => within_constraintRow layout made) laid_out
  · rintro ⟨dims, params, holds⟩
    rw [isEmpty_eq_false laid_out tested holds, Bool.not_false]
  · intro not_empty
    rw [Bool.not_eq_true'] at not_empty
    subst not_empty
    exact exists_holds_of_isEmpty laid_out tested

end Polyhedron

/-! ### Machine limits of expressions -/

variable {offset : ℕ} {row : List ℤ}

namespace AffineForm

variable [Fault.Tolerates allowed]

theorem faultsIn_ofRow (long : 1 + count ≤ row.length) : FaultsIn allowed (ofRow row count) := by
  have not_empty : row ≠ [] := by
    rintro rfl
    simp at long
  simp only [ofRow, faultsIn_bind_iff, Size.faultsIn_add, Size.add_ok_iff, faultsIn_pure, implies_true, and_true, true_and]
  refine ⟨faultsIn_require not_empty, ?_⟩
  rintro _ _ _ ⟨_, rfl⟩
  exact faultsIn_require long

theorem faultsIn_sub {left right : AffineForm} (layout : left.HasLayout right.coeffs.length right.params.length) :
    FaultsIn allowed (left.sub right) := by
  simp only [sub, add, faultsIn_bind_iff, faultsIn_neg, true_and]
  intro negated negated_ok
  obtain ⟨negated_coeffs, negated_params⟩ := (value_scale negated_ok (fun _ => 0) fun _ => 0).1
  refine ⟨faultsIn_require (layout.1.trans negated_coeffs.symm), fun _ _ => ⟨?_, fun _ _ => by simp⟩⟩
  exact faultsIn_require (layout.2.trans negated_params.symm)

theorem limits_embed {form : AffineForm} (fits : offset + form.coeffs.length ≤ dim) :
    FaultsIn (Fault.Limits dim) (form.embed dim offset) := by
  simp only [embed, relayout, faultsIn_bind_iff, Size.faultsIn_consecutive, true_and, faultsIn_pure, implies_true, and_true]
  intro positions consecutive
  obtain rfl := consecutive_ok consecutive
  refine ⟨faultsIn_require (by simp), fun _ _ => ⟨Size.limits_reserve dim, fun _ _ => ?_⟩⟩
  refine (meets_foldlM (fun columns : List ℤ => columns.length = dim) length_replicate ?_).faults
  rintro columns ⟨coefficient, position⟩ entry_mem columns_length
  have inside : position < columns.length := by
    obtain ⟨index, index_mem, rfl⟩ := mem_map.mp (of_mem_zip entry_mem).2
    have := mem_range.mp index_mem
    omega
  have found : Checked.ofOption columns[position]? = .ok columns[position] := by
    rw [getElem?_eq_getElem inside]
    rfl
  refine FaultsIn.bind (found ▸ faultsIn_ok _) fun old _ => ?_
  have placed : Meets (Fault.Limits dim) (Word.add old coefficient >>= fun value => pure (columns.set position value))
      fun next => next.length = dim := FaultsIn.bind (Word.faultsIn_add _ _) fun _ _ => meets_pure (length_set.trans columns_length)
  exact placed

end AffineForm

/-! ### Distances -/

variable {relation : Relation} {side : Side}

namespace Relation

/-- The pairs of a conjunct that are at least a step apart. -/
def stepApart (sourceRow targetRow : List ℤ) (sign : ℤ) (conjunct : Conjunct) : Checked Conjunct := do
  let distance ← (← conjunct.rowDistance sourceRow targetRow).scale sign
  let constant ← Word.sub distance.constant 1
  conjunct.add { sense := .nonnegative, form := { distance with constant } }

theorem conjunctReaches_eq (sourceRow targetRow : List ℤ) (sign : ℤ) (conjunct : Conjunct) :
    conjunctReaches sourceRow targetRow sign conjunct
      = stepApart sourceRow targetRow sign conjunct >>= fun restricted => do return !(← restricted.system.isEmpty) := by
  simp only [conjunctReaches, stepApart, bind_assoc]

/-- A search for a pair that is a step apart runs out of its budget. -/
def ExhaustsStep (relation : Relation) (sourceRow targetRow : List ℤ) (sign : ℤ) : Prop :=
  ∃ conjunct ∈ relation.disjuncts, ∃ restricted, stepApart sourceRow targetRow sign conjunct = .ok restricted
    ∧ restricted.system.Searches .unknown

/-- The most columns of a disjunct. -/
def widest (relation : Relation) : ℕ := (relation.disjuncts.map Conjunct.columns).foldr max 0

theorem columns_le_widest {conjunct : Conjunct} (conjunct_mem : conjunct ∈ relation.disjuncts) :
    conjunct.columns ≤ relation.widest := List.le_max_of_le' 0 (mem_map_of_mem conjunct_mem) le_rfl

end Relation

namespace Conjunct

variable {conjunct : Conjunct} {sourceRow targetRow : List ℤ} {source target : Tuple}
  (laid_out : conjunct.LaidOut source.totalDim target.totalDim count)
include laid_out

theorem limits_rowForm (row_length : row.length = 1 + count + dim) (fits : dim ≤ conjunct.sideColumns side) :
    FaultsIn (Fault.Limits conjunct.columns) (conjunct.rowForm row side) := by
  have long : 1 + conjunct.params ≤ row.length := by
    rw [laid_out.params]
    omega
  simp only [rowForm, width, faultsIn_bind_iff, Size.faultsIn_checked, Size.checked_ok_iff, true_and]
  refine ⟨faultsIn_ofRow long, ?_⟩
  rintro form form_ok _ ⟨_, rfl⟩
  apply limits_embed
  rw [coeffs_ofRow form_ok, length_drop, laid_out.params]
  cases side <;> simp only [sideColumns, offset, columns] at fits ⊢ <;> omega

variable (source_row : sourceRow.length = 1 + count + source.dim)
  (target_row : targetRow.length = 1 + count + target.dim)
include source_row target_row

theorem meets_rowDistance : Meets (Fault.Limits conjunct.columns) (conjunct.rowDistance sourceRow targetRow) fun form =>
      form.HasLayout conjunct.columns count ∧ ∀ columns params, form.value columns params
        = rowValue targetRow count (fun position => columns (conjunct.inputs + position)) params
          - rowValue sourceRow count columns params := by
  have source_fits : source.dim ≤ conjunct.sideColumns .source := by
    rw [sideColumns, laid_out.inputs]
    exact Nat.le_add_right _ _
  have target_fits : target.dim ≤ conjunct.sideColumns .target := by
    rw [sideColumns, laid_out.outputs]
    exact Nat.le_add_right _ _
  refine ⟨?_, fun form form_ok => ?_⟩
  · simp only [rowDistance, faultsIn_bind_iff]
    refine ⟨limits_rowForm laid_out target_row target_fits, fun last last_ok =>
      ⟨limits_rowForm laid_out source_row source_fits, fun first first_ok => faultsIn_sub ?_⟩⟩
    obtain ⟨⟨last_coeffs, last_params⟩, _⟩ := value_rowForm last_ok (fun _ => 0) fun _ => 0
    obtain ⟨⟨first_coeffs, first_params⟩, _⟩ := value_rowForm first_ok (fun _ => 0) fun _ => 0
    exact ⟨last_coeffs.trans first_coeffs.symm, last_params.trans first_params.symm⟩
  · rw [← laid_out.params]
    exact ⟨(value_rowDistance form_ok (fun _ => 0) fun _ => 0).1, fun columns params => (value_rowDistance form_ok columns params).2⟩

theorem meets_stepApart (sign : ℤ) :
    Meets (Fault.Limits conjunct.columns) (stepApart sourceRow targetRow sign conjunct) fun restricted =>
      restricted.system.LaidOut ∧ restricted.system.dim = conjunct.columns ∧ restricted.system.params = count
        ∧ ∀ columns params, restricted.system.Holds columns params ↔ conjunct.system.Holds columns params
          ∧ 1 ≤ sign * (rowValue targetRow count (fun position => columns (conjunct.inputs + position)) params
            - rowValue sourceRow count columns params) := by
  unfold stepApart
  refine (meets_rowDistance laid_out source_row target_row).bind fun plain _ ⟨plain_layout, plain_value⟩ =>
    FaultsIn.bind (faultsIn_scale plain sign) fun distance scaled =>
    FaultsIn.bind (Word.faultsIn_sub _ _) fun constant lowered => ?_
  obtain ⟨_, rfl⟩ := Word.checked_ok_iff.mp lowered
  obtain ⟨layout, _⟩ := value_scale scaled (fun _ => 0) fun _ => 0
  refine (meets_add ⟨(layout.1.trans plain_layout.1).trans laid_out.dim.symm,
    (layout.2.trans plain_layout.2).trans laid_out.params.symm⟩).bind
      fun system _ ⟨dim_eq, params_eq, system_laid_out, holds_iff⟩ => meets_pure ?_
  refine ⟨system_laid_out laid_out.system, dim_eq.trans laid_out.dim, params_eq.trans laid_out.params, fun columns params => ?_⟩
  have value_eq := (value_scale scaled columns params).2
  rw [plain_value, AffineForm.value] at value_eq
  rw [holds_iff, ← value_eq]
  refine and_congr_right fun _ => ?_
  show 0 ≤ distance.constant - 1 + _ + _ ↔ _
  constructor <;> intro <;> linarith

theorem meets_conjunctReaches (sign : ℤ) : Meets (Fault.Limits (2 * (conjunct.columns + count)))
      (conjunctReaches sourceRow targetRow sign conjunct)
      (Notices (∃ columns params, conjunct.system.Holds columns params
          ∧ 1 ≤ sign * (rowValue targetRow count (fun position => columns (conjunct.inputs + position)) params
            - rowValue sourceRow count columns params))
        (∃ restricted, stepApart sourceRow targetRow sign conjunct = .ok restricted
          ∧ restricted.system.Searches .unknown)) := by
  rw [conjunctReaches_eq]
  refine ((meets_stepApart laid_out source_row target_row sign).mono (Fault.Limits.mono (by omega))).bind
    fun restricted restricted_ok ⟨system, dim_eq, params_eq, holds_iff⟩ => ?_
  refine ((meets_isEmpty system).mono (Fault.Limits.mono (by rw [dim_eq, params_eq]))).bind
    fun empty _ notices => meets_pure ?_
  simp only [holds_iff] at notices
  exact ⟨notices.complete, fun noticed => (notices.sound noticed).imp_right (⟨restricted, restricted_ok, ·⟩)⟩

end Conjunct

namespace Relation

variable (laid_out : relation.LaidOut)
include laid_out

section Rows

variable {sourceRow targetRow : List ℤ} (source_row : sourceRow.length = 1 + relation.params.length + relation.source.dim)
  (target_row : targetRow.length = 1 + relation.params.length + relation.target.dim)
include source_row target_row

/-- A pair that is a step apart is noticed. -/
theorem meets_reachesDistance (sign : ℤ) :
    Meets (Fault.Limits (2 * (relation.widest + relation.params.length))) (relation.reachesDistance sourceRow targetRow sign)
      (Notices (∃ params x y, relation.Relates params x y
          ∧ 1 ≤ sign * (rowValue targetRow relation.params.length y params
            - rowValue sourceRow relation.params.length x params))
        (relation.ExhaustsStep sourceRow targetRow sign)) := by
  have each := meets_anyM fun conjunct conjunct_mem =>
    (meets_conjunctReaches (laid_out conjunct conjunct_mem) source_row target_row sign).mono
      (Fault.Limits.mono (Nat.mul_le_mul_left 2 (Nat.add_le_add_right (columns_le_widest conjunct_mem) relation.params.length)))
  refine each.imp fun answer notices => notices.congr ⟨?_, ?_⟩
  · rintro ⟨conjunct, conjunct_mem, columns, params, holds, apart⟩
    exact ⟨params, columns, _, ⟨conjunct, conjunct_mem, columns, ⟨fun _ _ => rfl, fun _ _ => rfl⟩, holds⟩, apart⟩
  · rintro ⟨params, x, y, ⟨conjunct, conjunct_mem, columns, joins, holds⟩, apart⟩
    refine ⟨conjunct, conjunct_mem, columns, params, holds, ?_⟩
    rwa [rowValue_congr source_row joins.source, rowValue_congr target_row joins.target]

/-- A pair that rows order backwards is noticed. -/
theorem meets_ordersBackwards :
    Meets (Fault.Limits (2 * (relation.widest + relation.params.length))) (relation.ordersBackwards sourceRow targetRow)
      (Notices (∃ params x y, relation.Relates params x y ∧ rowValue targetRow relation.params.length y params
          < rowValue sourceRow relation.params.length x params)
        (relation.ExhaustsStep sourceRow targetRow (-1))) := by
  refine (meets_reachesDistance laid_out source_row target_row (-1)).imp fun answer notices => notices.congr ?_
  simp only [neg_mul, one_mul, neg_sub, Order.one_le_iff_pos, sub_pos]

theorem meets_separates :
    Meets (Fault.Limits (2 * (relation.widest + relation.params.length))) (relation.separates (sourceRow, targetRow))
      (Notices (∃ params x y, relation.Relates params x y ∧ ¬ Agree relation.params.length params x y (sourceRow, targetRow))
        (relation.ExhaustsStep sourceRow targetRow 1 ∨ relation.ExhaustsStep sourceRow targetRow (-1))) := by
  unfold separates
  refine (meets_reachesDistance laid_out source_row target_row 1).bind fun later _ later_notices => ?_
  cases later with
  | true =>
    refine meets_pure ⟨fun _ => rfl, fun _ => (later_notices.sound rfl).imp ?_ Or.inl⟩
    rintro ⟨params, x, y, related, apart⟩
    exact ⟨params, x, y, related, fun agree => by rw [Agree] at agree; dsimp only at agree; omega⟩
  | false =>
    refine (meets_reachesDistance laid_out source_row target_row (-1)).imp fun answer notices => ⟨?_, fun noticed => ?_⟩
    · rintro ⟨params, x, y, related, differ⟩
      by_contra unnoticed
      rcases lt_or_gt_of_ne differ with below | above
      · exact Bool.false_ne_true (later_notices.complete ⟨params, x, y, related, by dsimp only at below; omega⟩)
      · exact unnoticed (notices.complete ⟨params, x, y, related, by dsimp only at above; omega⟩)
    · refine (notices.sound noticed).imp ?_ Or.inr
      rintro ⟨params, x, y, related, apart⟩
      exact ⟨params, x, y, related, fun agree => by rw [Agree] at agree; dsimp only at agree; omega⟩

end Rows

/-- Rows are said to agree on a relation only where they agree on all its pairs. -/
theorem meets_isAlwaysEqual {sourceRows targetRows : RowMatrix}
    (source_cols : sourceRows.cols = 1 + relation.params.length + relation.source.dim)
    (target_cols : targetRows.cols = 1 + relation.params.length + relation.target.dim) :
    Meets (Fault.Limits (2 * (relation.widest + relation.params.length)))
      (relation.isAlwaysEqual sourceRows targetRows) fun answer =>
        Notices (∃ pair ∈ sourceRows.rows.zip targetRows.rows, ∃ params x y,
            relation.Relates params x y ∧ ¬ Agree relation.params.length params x y pair)
          (∃ pair ∈ sourceRows.rows.zip targetRows.rows,
            relation.ExhaustsStep pair.1 pair.2 1 ∨ relation.ExhaustsStep pair.1 pair.2 (-1)) !answer := by
  unfold isAlwaysEqual
  refine (meets_anyM fun pair pair_mem => ?_).bind fun differ _ notices => meets_pure (by rwa [Bool.not_not])
  obtain ⟨source_mem, target_mem⟩ := of_mem_zip pair_mem
  exact meets_separates laid_out ((sourceRows.uniform _ source_mem).trans source_cols)
    ((targetRows.uniform _ target_mem).trans target_cols)

end Relation

/-! ### Tagged instances -/

/-- An instance of a statement together with the access that its tag stands for. -/
structure TaggedInstance where
  tuple : Tuple
  point : List ℤ
  fits : point.length = tuple.totalDim
deriving DecidableEq, Repr

/-- The columns of a side hold a tagged instance. -/
def Conjunct.Places (conjunct : Conjunct) (side : Side) (columns : ℕ → ℤ) (x : TaggedInstance) : Prop :=
  ∀ position < x.tuple.totalDim, columns (conjunct.offset side + position) = coordinates x.point position

namespace Relation

variable {params : ℕ → ℤ} {x y : TaggedInstance} {other : Relation}

/-- The end on a side with its tag, or with the dummy tag if the ends are not both tagged. -/
def taggedEnd (relation : Relation) (side : Side) : Tuple :=
  if relation.isFullyTagged then relation.endpoint side
  else { (relation.endpoint side).untagged with tag := some dummyTag }

/-- Tagged instances of both ends are related under given parameter values. -/
structure RelatesTagged (relation : Relation) (params : ℕ → ℤ) (x y : TaggedInstance) : Prop where
  source : x.tuple = relation.taggedEnd .source
  target : y.tuple = relation.taggedEnd .target
  holds : ∃ conjunct ∈ relation.disjuncts, ∃ columns : ℕ → ℤ, conjunct.Places .source columns x
    ∧ conjunct.Places .target columns y ∧ conjunct.system.Holds columns params

theorem dim_taggedEnd (relation : Relation) (side : Side) :
    (relation.taggedEnd side).dim = (relation.endpoint side).dim := by
  unfold taggedEnd
  split <;> rfl

/-- Where columns hold tagged instances, they hold the instances without tags. -/
theorem joins_of_places {conjunct : Conjunct} {columns : ℕ → ℤ} (source_eq : x.tuple = relation.taggedEnd .source)
    (target_eq : y.tuple = relation.taggedEnd .target) (source_placed : conjunct.Places .source columns x)
    (target_placed : conjunct.Places .target columns y) :
    conjunct.Joins relation.source relation.target columns (coordinates x.point) (coordinates y.point) := by
  have source_dim : x.tuple.dim = relation.source.dim := source_eq ▸ relation.dim_taggedEnd .source
  have target_dim : y.tuple.dim = relation.target.dim := target_eq ▸ relation.dim_taggedEnd .target
  refine ⟨fun position inside => ?_, fun position inside => target_placed position ?_⟩
  · have placed := source_placed position ((source_dim ▸ inside).trans_le (Nat.le_add_right _ _))
    rwa [offset_source, Nat.zero_add] at placed
  · exact (target_dim ▸ inside).trans_le (Nat.le_add_right _ _)

/-- Related tagged instances are related without their tags. -/
theorem RelatesTagged.relates (related : relation.RelatesTagged params x y) :
    relation.Relates params (coordinates x.point) (coordinates y.point) := by
  obtain ⟨source_eq, target_eq, conjunct, conjunct_mem, columns, source_placed, target_placed, holds⟩ := related
  exact ⟨conjunct, conjunct_mem, columns, joins_of_places source_eq target_eq source_placed target_placed, holds⟩

theorem taggedEnd_congr (source_eq : other.source = relation.source) (target_eq : other.target = relation.target)
    (side : Side) : other.taggedEnd side = relation.taggedEnd side := by
  have endpoint_eq : other.endpoint side = relation.endpoint side := by
    cases side with
    | source => exact source_eq
    | target => exact target_eq
  rw [taggedEnd, taggedEnd, isFullyTagged, isFullyTagged, source_eq, target_eq, endpoint_eq]

theorem RelatesTagged.of_images {others : ℕ → ℤ} (related : relation.RelatesTagged params x y)
    (images : relation.Images other params others (coordinates x.point) (coordinates y.point)) : other.RelatesTagged others x y := by
  obtain ⟨x_tuple, y_tuple, conjunct, conjunct_mem, columns, source_placed, target_placed, holds⟩ := related
  obtain ⟨image, image_mem, inputs_eq, image_holds⟩ := images.image conjunct conjunct_mem columns
    (joins_of_places x_tuple y_tuple source_placed target_placed) holds
  refine ⟨x_tuple.trans (taggedEnd_congr images.source images.target _).symm,
    y_tuple.trans (taggedEnd_congr images.source images.target _).symm, image, image_mem, columns, source_placed, ?_, image_holds⟩
  intro position inside
  rw [offset_target, inputs_eq]
  exact target_placed position inside

theorem Narrowed.relatesTagged_iff {chosen : (ℕ → ℤ) → (ℕ → ℤ) → (ℕ → ℤ) → Prop} (narrowed : relation.Narrowed other chosen) :
    other.RelatesTagged params x y
      ↔ relation.RelatesTagged params x y ∧ chosen params (coordinates x.point) (coordinates y.point) :=
  ⟨fun related => ⟨related.of_images (narrowed.within _ _ _), narrowed.meets _ _ _ related.relates⟩,
    fun ⟨related, meets⟩ => related.of_images (narrowed.kept _ _ _ meets)⟩

theorem relatesTagged_of_alignParams {result : Relation} {params : List String}
    (aligned : relation.alignParams params = .ok result) (once : relation.NamesOnce) {values : String → ℤ}
    (related : relation.RelatesTagged (named relation.params values) x y) : result.RelatesTagged (named params values) x y := by
  obtain ⟨result_eq, images⟩ := alignParams_ok aligned
  rw [result_eq]
  refine related.of_images ⟨rfl, rfl, fun conjunct conjunct_mem columns _ holds => ?_⟩
  obtain ⟨image, image_mem, image_eq, same⟩ := (images once values).exists_right conjunct_mem
  exact ⟨image, image_mem, by rw [image_eq], (same columns).mpr holds⟩

/-- The tagged form of a relation relates the tagged instances of the relation. -/
theorem TaggedAs.relatesTagged {tagged : Relation} (as_tagged : relation.TaggedAs tagged)
    (laid_out : relation.LaidOut) (related : relation.RelatesTagged params x y) : tagged.RelatesTagged params x y := by
  cases as_tagged with
  | itself => exact related
  | @dummy untagged partly done =>
    -- The dummy tag has no dimensions, so the instances fill no more than the dimensions of the statements.
    obtain ⟨source_eq, target_eq, _⟩ := relates_of_untag laid_out done
    have end_eq : ∀ side, untagged.withDummyTags.taggedEnd side = relation.taggedEnd side := by
      intro side
      rw [taggedEnd, taggedEnd, partly, if_neg Bool.false_ne_true, if_pos (show untagged.withDummyTags.isFullyTagged = true from rfl)]
      cases side with
      | source => exact congrArg (fun tuple : Tuple => { tuple.untagged with tag := some dummyTag }) source_eq
      | target => exact congrArg (fun tuple : Tuple => { tuple.untagged with tag := some dummyTag }) target_eq
    have x_tuple := related.source.trans (end_eq .source).symm
    have y_tuple := related.target.trans (end_eq .target).symm
    obtain ⟨conjunct, conjunct_mem, columns, joins, holds⟩ :=
      (TaggedAs.dummy partly done).relates_iff laid_out |>.mpr related.relates
    refine ⟨x_tuple, y_tuple, conjunct, conjunct_mem, columns, fun position inside => ?_, fun position inside => ?_, holds⟩
    · rw [x_tuple] at inside
      rw [offset_source, Nat.zero_add]
      exact joins.source position inside
    · rw [y_tuple] at inside
      exact joins.target position inside

end Relation

/-! ### Shared instances -/

variable {position : ℕ}

/-- The columns of two conjuncts, side by side. -/
def beside (width : ℕ) (left right : ℕ → ℤ) : ℕ → ℤ :=
  fun position => if position < width then left position else right (position - width)

theorem beside_left {width : ℕ} (inside : position < width) (left right : ℕ → ℤ) :
    beside width left right position = left position := if_pos inside

theorem beside_right (width position : ℕ) (left right : ℕ → ℤ) :
    beside width left right (width + position) = right position := by
  rw [beside, if_neg (Nat.not_lt.mpr (Nat.le_add_right _ _)), Nat.add_sub_cancel_left]

namespace Relation

variable {columns inputs otherInputs otherOutputs outputs : ℕ}

/-- The difference of two columns. -/
theorem value_difference {params first second : ℕ} (first_lt : first < columns) (second_lt : second < columns)
    (different : first ≠ second) (dims values : ℕ → ℤ) : ({ AffineForm.zero columns params with
        coeffs := ((AffineForm.zero columns params).coeffs.set first 1).set second (-1) } : AffineForm).value dims values
      = dims first - dims second := by
  have coeffs_eq : (AffineForm.zero columns params).coeffs = List.replicate columns 0 := rfl
  have params_eq : (AffineForm.zero columns params).params = List.replicate params 0 := rfl
  have constant_eq : (AffineForm.zero columns params).constant = 0 := rfl
  have first_inside : first < (List.replicate columns (0 : ℤ)).length := by rwa [length_replicate]
  have second_inside : second < ((List.replicate columns (0 : ℤ)).set first 1).length := by
    rwa [length_set, length_replicate]
  rw [AffineForm.value]
  dsimp only
  rw [coeffs_eq, params_eq, constant_eq, dot_set second_inside, dot_set first_inside,
    dot_replicate_zero, dot_replicate_zero, getD_eq_getElem?_getD, getD_eq_getElem?_getD,
    getElem?_set_ne different, getElem?_replicate_of_lt first_lt, getElem?_replicate_of_lt second_lt]
  simp only [Option.getD_some]
  ring

variable {left right : Conjunct} {leftSide rightSide : Side}

theorem offset_lt_columns {conjunct : Conjunct} (inside : position < conjunct.sideColumns side) :
    conjunct.offset side + position < conjunct.columns := by
  cases side <;> simp only [sideColumns, Conjunct.offset, Conjunct.columns] at inside ⊢ <;> omega

/-- Adding constraints that are moved to an offset adds that they hold at the moved columns. -/
theorem meets_placed {system start : Polyhedron} (laid_out : system.LaidOut) (fits : offset + system.dim ≤ columns)
    (dim_eq : columns = start.dim) (params_eq : start.params = system.params) :
    Meets (Fault.Limits columns) (system.constraints.foldlM (fun (joined : Polyhedron) constraint => do
        joined.add { constraint with form := ← constraint.form.embed columns offset }) start) fun final =>
      final.dim = columns ∧ final.params = system.params ∧ (start.LaidOut → final.LaidOut)
        ∧ ∀ dims params, final.Holds dims params ↔
          start.Holds dims params ∧ system.Holds (fun position => dims (offset + position)) params := by
  subst dim_eq
  have each : ∀ constraint ∈ system.constraints, Meets (Fault.Limits start.dim)
      (do return ({ constraint with form := ← constraint.form.embed start.dim offset } : Constraint)) fun moved =>
        moved.HasLayout start.dim start.params
          ∧ ∀ dims params, moved.Holds dims params ↔ constraint.Holds (fun position => dims (offset + position)) params := by
    intro constraint constraint_mem
    obtain ⟨coeffs_length, params_length⟩ := laid_out constraint constraint_mem
    refine FaultsIn.bind (limits_embed (by omega)) fun form embedded => meets_pure ⟨?_, fun dims params => ?_⟩
    · obtain ⟨layout, _⟩ := value_embed embedded (fun _ => 0) fun _ => 0
      exact ⟨layout.1, layout.2.trans (params_length.trans params_eq.symm)⟩
    · rw [Constraint.Holds, (value_embed embedded dims params).2, Constraint.Holds]
  have placed := meets_foldlM_add each
  simp only [bind_assoc, pure_bind] at placed
  rwa [← params_eq]

theorem meets_joinConjuncts (left_laid_out : left.LaidOut inputs outputs count)
    (right_laid_out : right.LaidOut otherInputs otherOutputs count) :
    Meets (Fault.Limits (left.columns + right.columns)) (joinConjuncts count left leftSide right rightSide) fun joined =>
      joined.LaidOut ∧ joined.dim = left.columns + right.columns ∧ joined.params = count
        ∧ ∀ columns values, joined.Holds columns values ↔
          left.system.Holds (fun position => columns (0 + position)) values
          ∧ right.system.Holds (fun position => columns (left.columns + position)) values
          ∧ ∀ position < min (left.sideColumns leftSide) (right.sideColumns rightSide),
            columns (left.offset leftSide + position) = columns (left.columns + right.offset rightSide + position) := by
  unfold joinConjuncts
  refine FaultsIn.bind (Size.faultsIn_checked _) fun _ left_ok => FaultsIn.bind (Size.faultsIn_checked _) fun _ right_ok =>
    FaultsIn.bind (Size.faultsIn_add _ _) fun columns columns_ok => ?_
  obtain ⟨_, rfl⟩ := Size.checked_ok_iff.mp left_ok
  obtain ⟨_, rfl⟩ := Size.checked_ok_iff.mp right_ok
  obtain ⟨_, rfl⟩ := Size.add_ok_iff.mp columns_ok
  have left_params : left.system.params = count := left_laid_out.params
  have right_params : right.system.params = count := right_laid_out.params
  have left_fits : 0 + left.system.dim ≤ left.columns + right.columns := by
    rw [left_laid_out.dim]
    omega
  have right_fits : left.columns + right.system.dim ≤ left.columns + right.columns := by rw [right_laid_out.dim]
  refine (meets_placed left_laid_out.system left_fits rfl left_params.symm).bind
    fun withLeft _ ⟨left_dim, left_count, left_kept, left_holds⟩ =>
    (meets_placed right_laid_out.system right_fits left_dim.symm (left_count.trans (left_params.trans right_params.symm))).bind
    fun withBoth _ ⟨both_dim, both_count, both_kept, both_holds⟩ => ?_
  have both_laid_out := both_kept (left_kept fun _ impossible => absurd impossible not_mem_nil)
  have holds_iff : ∀ columns values, withBoth.Holds columns values ↔
      left.system.Holds (fun position => columns (0 + position)) values
        ∧ right.system.Holds (fun position => columns (left.columns + position)) values := fun columns values => by
    rw [both_holds, left_holds]
    exact and_congr_left fun _ => ⟨And.right, fun holds => ⟨fun _ impossible => absurd impossible not_mem_nil, holds⟩⟩
  dsimp only
  split_ifs with nothing_shared
  · refine meets_pure ⟨both_laid_out, both_dim, both_count.trans right_params, fun columns values => ?_⟩
    simp [holds_iff, nothing_shared]
  · refine FaultsIn.bind (Size.limits_reserve _) fun _ _ => ?_
    have equates : ∀ position ∈ List.range (min (left.sideColumns leftSide) (right.sideColumns rightSide)),
        Meets (Fault.Limits (left.columns + right.columns)) (pure (
          { sense := .zero
            form := { AffineForm.zero (left.columns + right.columns) count with
              coeffs := ((AffineForm.zero (left.columns + right.columns) count).coeffs.set (left.offset leftSide + position) 1).set
                (left.columns + right.offset rightSide + position) (-1) } } : Constraint)) fun constraint =>
          constraint.HasLayout withBoth.dim withBoth.params ∧ ∀ columns values, constraint.Holds columns values ↔
            columns (left.offset leftSide + position) = columns (left.columns + right.offset rightSide + position) := by
      intro position position_mem
      have shared := mem_range.mp position_mem
      have in_left := offset_lt_columns (shared.trans_le (min_le_left _ _))
      have in_right := offset_lt_columns (shared.trans_le (min_le_right _ _))
      refine meets_pure ⟨⟨?_, ?_⟩, fun columns values => ?_⟩
      · simp [AffineForm.zero, AffineForm.constantly, both_dim]
      · simp [AffineForm.zero, AffineForm.constantly, both_count, right_params]
      · show AffineForm.value _ _ _ = 0 ↔ _
        rw [value_difference (by omega) (by omega) (by omega), sub_eq_zero]
    refine (meets_foldlM_add equates).imp fun joined ⟨joined_dim, joined_count, joined_kept, joined_holds⟩ => ?_
    refine ⟨joined_kept both_laid_out, joined_dim.trans both_dim, joined_count.trans (both_count.trans right_params), ?_⟩
    simp only [joined_holds, holds_iff, mem_range, and_assoc, implies_true]

theorem meets_conjunctsMeet (leftSide rightSide : Side) (left_laid_out : left.LaidOut inputs outputs count)
    (right_laid_out : right.LaidOut otherInputs otherOutputs count) :
    Meets (Fault.Limits (2 * (left.columns + right.columns + count))) (conjunctsMeet count leftSide rightSide left right)
      (Notices (∃ leftColumns rightColumns values, left.system.Holds leftColumns values ∧ right.system.Holds rightColumns values
          ∧ ∀ position < min (left.sideColumns leftSide) (right.sideColumns rightSide),
            leftColumns (left.offset leftSide + position) = rightColumns (right.offset rightSide + position))
        (∃ joined, joinConjuncts count left leftSide right rightSide = .ok joined ∧ joined.Searches .unknown)) := by
  refine ((meets_joinConjuncts left_laid_out right_laid_out).mono (Fault.Limits.mono (by omega))).bind
    fun joined joined_ok ⟨laid_out, dim_eq, params_eq, holds_iff⟩ =>
    ((meets_isEmpty laid_out).mono (Fault.Limits.mono (by rw [dim_eq, params_eq]))).bind
    fun empty _ notices => meets_pure ?_
  have found : Notices _ (∃ joined, joinConjuncts count left leftSide right rightSide = .ok joined ∧ joined.Searches .unknown) _ :=
    ⟨notices.complete, fun noticed => (notices.sound noticed).imp_right (⟨joined, joined_ok, ·⟩)⟩
  refine found.congr ⟨?_, ?_⟩
  · rintro ⟨columns, values, holds⟩
    obtain ⟨left_holds, right_holds, agree⟩ := (holds_iff columns values).mp holds
    refine ⟨_, _, values, left_holds, right_holds, fun position inside => ?_⟩
    rw [Nat.zero_add, agree position inside, Nat.add_assoc]
  · rintro ⟨leftColumns, rightColumns, values, left_holds, right_holds, agree⟩
    refine ⟨beside left.columns leftColumns rightColumns, values, (holds_iff _ _).mpr ⟨?_, ?_, fun position inside => ?_⟩⟩
    · refine (holds_congr left_laid_out.system fun position inside => ?_).mp left_holds
      rw [Nat.zero_add, beside_left (inside.trans_eq left_laid_out.dim)]
    · simpa only [beside_right] using right_holds
    · rw [beside_left (offset_lt_columns (inside.trans_le (min_le_left _ _))), Nat.add_assoc, beside_right, agree position inside]

/-- A search for an instance on both sides runs out of its budget. -/
def ExhaustsMeeting (first : Relation) (leftSide : Side) (second : Relation) (rightSide : Side) : Prop :=
  ∃ left ∈ first.disjuncts, ∃ right ∈ second.disjuncts, ∃ joined,
    joinConjuncts first.params.length left leftSide right rightSide = .ok joined ∧ joined.Searches .unknown

/-- A tagged instance is on a side of a pair of the relation. -/
def HasEnd (relation : Relation) (side : Side) (params : ℕ → ℤ) (x : TaggedInstance) : Prop :=
  x.tuple = relation.endpoint side ∧ ∃ conjunct ∈ relation.disjuncts, ∃ columns : ℕ → ℤ,
    conjunct.Places side columns x ∧ conjunct.system.Holds columns params

/-- The instance in the columns of a side. -/
def instanceAt (tuple : Tuple) (conjunct : Conjunct) (side : Side) (columns : ℕ → ℤ) : TaggedInstance where
  tuple := tuple
  point := (List.range tuple.totalDim).map fun position => columns (conjunct.offset side + position)
  fits := by simp

theorem places_instanceAt (tuple : Tuple) (conjunct : Conjunct) (side : Side) (columns : ℕ → ℤ) :
    conjunct.Places side columns (instanceAt tuple conjunct side columns) := by
  intro position inside
  have inside_tuple : position < tuple.totalDim := inside
  simp [coordinates, instanceAt, getD_eq_getElem?_getD, inside_tuple]

theorem LaidOut.sideColumns_eq (laid_out : relation.LaidOut) {conjunct : Conjunct} (conjunct_mem : conjunct ∈ relation.disjuncts)
    (side : Side) : conjunct.sideColumns side = (relation.endpoint side).totalDim := by
  cases side with
  | source => exact (laid_out conjunct conjunct_mem).inputs
  | target => exact (laid_out conjunct conjunct_mem).outputs

/-- Relations that share a tagged instance on the chosen sides are said to meet. -/
theorem meets_sidesMeet (leftSide rightSide : Side) {first second : Relation} (first_laid_out : first.LaidOut)
    (second_laid_out : second.LaidOut) : Meets (Fault.Limits (2 * (first.widest + second.widest + first.params.length)))
      (first.sidesMeet leftSide second rightSide)
      (Notices (first.params = second.params ∧ ∃ values x, first.HasEnd leftSide values x ∧ second.HasEnd rightSide values x)
        (first.ExhaustsMeeting leftSide second rightSide)) := by
  unfold sidesMeet
  split_ifs with comparable
  · obtain ⟨same_end, same_params⟩ := comparable
    have each := meets_anyM fun left left_mem => meets_anyM fun right right_mem =>
      (meets_conjunctsMeet leftSide rightSide (first_laid_out left left_mem) (same_params ▸ second_laid_out right right_mem)).mono
        (Fault.Limits.mono (Nat.mul_le_mul_left 2 (Nat.add_le_add_right
          (Nat.add_le_add (columns_le_widest left_mem) (columns_le_widest right_mem)) first.params.length)))
    refine each.imp fun answer notices => notices.congr ⟨?_, ?_⟩
    · rintro ⟨left, left_mem, right, right_mem, leftColumns, rightColumns, values, left_holds, right_holds, agree⟩
      rw [first_laid_out.sideColumns_eq left_mem, second_laid_out.sideColumns_eq right_mem, ← same_end, min_self] at agree
      have placed := places_instanceAt (first.endpoint leftSide) left leftSide leftColumns
      refine ⟨same_params, values, instanceAt (first.endpoint leftSide) left leftSide leftColumns,
        ⟨rfl, left, left_mem, leftColumns, placed, left_holds⟩, same_end, right, right_mem, rightColumns, ?_, right_holds⟩
      exact fun position inside => (agree position inside).symm.trans (placed position inside)
    · rintro ⟨_, values, x, ⟨x_first, left, left_mem, leftColumns, left_placed, left_holds⟩, _, right, right_mem, rightColumns,
        right_placed, right_holds⟩
      refine ⟨left, left_mem, right, right_mem, leftColumns, rightColumns, values, left_holds, right_holds, fun position inside => ?_⟩
      rw [first_laid_out.sideColumns_eq left_mem, ← x_first] at inside
      have in_tuple := inside.trans_le (min_le_left _ _)
      rw [left_placed position in_tuple, right_placed position in_tuple]
  · refine meets_pure ⟨?_, fun impossible => by cases impossible⟩
    rintro ⟨same_params, values, x, ⟨x_first, _⟩, x_second, _⟩
    exact absurd ⟨x_first.symm.trans x_second, same_params⟩ comparable

/-- The questions about the pairs of validated relations mean what they say, for rows of the width of their statements. The
    conditions are exact for integers, with tags and locals; a search that runs out of its budget counts as a pair. -/
theorem queries_exact {first second : Relation} (first_valid : first.validate = .ok ())
    (second_valid : second.validate = .ok ()) (leftSide rightSide : Side) {sourceRow targetRow : List ℤ}
    (source_row : sourceRow.length = 1 + first.params.length + first.source.dim)
    (target_row : targetRow.length = 1 + first.params.length + first.target.dim)
    {sourceRows targetRows : RowMatrix} (source_cols : sourceRows.cols = 1 + first.params.length + first.source.dim)
    (target_cols : targetRows.cols = 1 + first.params.length + first.target.dim) :
    AnswersExactly (first.sidesMeet leftSide second rightSide) false
        (first.endpoint leftSide ≠ second.endpoint rightSide ∨ first.params ≠ second.params
          ∨ ¬ ∃ values x, first.HasEnd leftSide values x ∧ second.HasEnd rightSide values x)
        (first.ExhaustsMeeting leftSide second rightSide) (2 * (first.widest + second.widest + first.params.length))
      ∧ AnswersExactly (first.ordersBackwards sourceRow targetRow) false
        (¬ ∃ params x y, first.Relates params x y ∧ AffineForm.rowValue targetRow first.params.length y params
          < AffineForm.rowValue sourceRow first.params.length x params)
        (first.ExhaustsStep sourceRow targetRow (-1)) (2 * (first.widest + first.params.length))
      ∧ AnswersExactly (first.isAlwaysEqual sourceRows targetRows) true
        (∀ params x y, first.Relates params x y → ∀ pair ∈ sourceRows.rows.zip targetRows.rows,
          AffineForm.rowValue pair.1 first.params.length x params = AffineForm.rowValue pair.2 first.params.length y params)
        (∃ pair ∈ sourceRows.rows.zip targetRows.rows,
          first.ExhaustsStep pair.1 pair.2 1 ∨ first.ExhaustsStep pair.1 pair.2 (-1))
        (2 * (first.widest + first.params.length)) := by
  have laid_out := laidOut_of_validate first_valid
  refine ⟨answersExactly_of_meets ((meets_sidesMeet leftSide rightSide laid_out (laidOut_of_validate second_valid)).imp fun answer notices => ?_),
    answersExactly_of_meets ((meets_ordersBackwards laid_out source_row target_row).imp fun answer notices => ?_),
    answersExactly_of_meets ((meets_isAlwaysEqual laid_out source_cols target_cols).imp fun answer notices => ?_)⟩
  · rw [Bool.bne_false]
    refine notices.congr ⟨?_, ?_⟩
    · rintro ⟨same_params, values, x, x_first, x_second⟩
      rintro (other_end | other_params | none_shared)
      · exact other_end (x_first.1.symm.trans x_second.1)
      · exact other_params same_params
      · exact none_shared ⟨values, x, x_first, x_second⟩
    · intro not_disjoint
      push Not at not_disjoint
      exact ⟨not_disjoint.2.1, not_disjoint.2.2⟩
  · rw [Bool.bne_false]
    exact notices.congr not_not.symm
  · rw [Bool.bne_true]
    refine notices.congr ⟨?_, ?_⟩
    · rintro ⟨pair, pair_mem, params, x, y, related, differ⟩ all_agree
      exact differ (all_agree params x y related pair pair_mem)
    · intro not_all
      push Not at not_all
      obtain ⟨params, x, y, related, pair, pair_mem, differ⟩ := not_all
      exact ⟨pair, pair_mem, params, x, y, related, differ⟩

/-- An instance and a tag are related to the instance that is less by an even number and a parameter. -/
def evenStep : Relation where
  source := { name := "S", dim := 1, tag := some { name := "read", dim := 1 } }
  target := { name := "T", dim := 1 }
  params := ["n"]
  disjuncts := [{
    inputs := 2, outputs := 1, locals := 1
    system := { dim := 4, params := 1, constraints := [
      { sense := .zero, form := { constant := 0, coeffs := [1, 0, -1, 2], params := [-1] } }] } }]

theorem queries_exact_evenStep :
    evenStep.validate = .ok () ∧ AnswersExactly (evenStep.ordersBackwards [0, 1, 2] [5, 0, 2]) false
      (¬ ∃ params x y, evenStep.Relates params x y
        ∧ AffineForm.rowValue [5, 0, 2] 1 y params < AffineForm.rowValue [0, 1, 2] 1 x params)
      (evenStep.ExhaustsStep [0, 1, 2] [5, 0, 2] (-1)) 10 :=
  ⟨rfl, (@queries_exact evenStep evenStep rfl rfl .source .target [0, 1, 2] [5, 0, 2] rfl rfl (RowMatrix.identity 3)
    (RowMatrix.identity 3) rfl rfl).2.1⟩

end Relation

end AffineSchedule
