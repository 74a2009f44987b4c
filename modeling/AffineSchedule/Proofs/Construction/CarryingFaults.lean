/-
Module: AffineSchedule.Proofs.Construction.CarryingFaults
Purpose: Without bounds on the coefficients, the carrying problem is set up and solved unless a number leaves the
  range of machine integers or a list grows too long.
-/
import AffineSchedule.Proofs.Construction.RowFaults
import AffineSchedule.Proofs.Relation.Query

namespace AffineSchedule

open Checked Linear Cone List ConeProblem

/-! ### Cones -/

/-- The length of the longest list that the cone of a conjunct takes. -/
def Conjunct.coneSize (conjunct : Conjunct) : ℕ :=
  2 * (1 + conjunct.params + conjunct.columns + conjunct.system.constraints.length)

namespace Cone

variable {kind : ConeKind} {conjunct : Conjunct} {cone : Cone} {mapping : List Form} {inputs outputs count : ℕ}

/-- Every row of a cone has one entry per multiplier, and there are at most two multipliers per constraint. -/
theorem multipliers_of_ofConjunct (made : ofConjunct kind conjunct = .ok cone) :
    cone.multiplierCount ≤ 2 * conjunct.system.constraints.length
      ∧ ∀ row ∈ cone.rows, row.multipliers.length = cone.multiplierCount := by
  obtain ⟨_, _, ⟨_, no_rows, no_multipliers⟩ | ⟨_, built⟩⟩ := ofConjunct_ok made
  · simp [no_rows, no_multipliers]
  simp only [build, bind_ok, pure_ok, mapM_ok] at built
  obtain ⟨groups, groups_ok, _, _, _, _, _, _, constant, constant_ok, params, params_ok, columns, columns_ok, rfl⟩ := built
  have counted : ∀ {entry : AffineForm → Option ℤ} {sense : Sense} {coefficients : List ℤ} {row : ConeRow},
      (negatedEntries groups.flatten entry >>= fun negated => pure (ConeRow.mk sense coefficients negated)) = .ok row →
      row.multipliers.length = groups.flatten.length := by
    intro entry sense coefficients row done
    simp only [bind_ok, pure_ok, negatedEntries, mapM_ok] at done
    obtain ⟨negated, negated_ok, rfl⟩ := done
    exact negated_ok.length_eq.symm
  refine ⟨?_, forall_mem_cons.mpr ⟨counted constant_ok, forall_mem_append.mpr
    ⟨params_ok.forall_mem (fun _ _ _ row_ok _ => counted row_ok) fun _ _ => trivial,
      columns_ok.forall_mem (fun _ _ _ row_ok _ => counted row_ok) fun _ _ => trivial⟩⟩⟩
  have at_most_two : ∀ group ∈ groups, group.length ≤ 2 := by
    refine groups_ok.forall_mem (fun constraint group _ done _ => ?_) fun _ _ => trivial
    unfold Constraint.inequalities at done
    split at done
    · simp [← Except.ok.inj done]
    · simp only [bind_ok, pure_ok] at done
      obtain ⟨_, _, rfl⟩ := done
      simp
  rw [groups_ok.length_eq, length_flatten, Nat.mul_comm, ← length_map List.length]
  exact sum_le_card_nsmul _ _ (forall_mem_map.mpr at_most_two)

theorem limits_ofConjunct (laid_out : conjunct.LaidOut inputs outputs count)
    (same_sides : kind = .distance → conjunct.inputs = conjunct.outputs) :
    FaultsIn (Fault.Limits conjunct.coneSize) (ofConjunct kind conjunct) := by
  have dim_le : 1 + conjunct.params + dimCoefficients kind conjunct ≤ conjunct.coneSize := by
    unfold dimCoefficients Conjunct.coneSize Conjunct.columns
    cases kind <;> dsimp only <;> omega
  have entries : ∀ {forms : List AffineForm} {entry : AffineForm → Option ℤ}, (∀ form ∈ forms, (entry form).isSome) →
      FaultsIn (Fault.Limits conjunct.coneSize) (negatedEntries forms entry) := by
    intro forms entry found
    refine faultsIn_mapM fun form form_mem => ?_
    obtain ⟨value, value_at⟩ := Option.isSome_iff_exists.mp (found form form_mem)
    simp [value_at, ofOption]
  have inequalities : ∀ constraint : Constraint, FaultsIn (Fault.Limits conjunct.coneSize) constraint.inequalities := by
    intro constraint
    unfold Constraint.inequalities
    split <;> simp
  have reserved : ∀ length ≤ conjunct.coneSize, FaultsIn (Fault.Limits conjunct.coneSize) (Size.reserve length) :=
    fun length le => (Size.limits_reserve length).mono (Fault.Limits.mono le)
  have built : FaultsIn (Fault.Limits conjunct.coneSize)
      (build kind conjunct (1 + conjunct.params + dimCoefficients kind conjunct)) := by
    simp only [build, constantRow, faultsIn_bind_iff, Size.faultsIn_checked, Size.checked_ok_iff,
      true_and, faultsIn_pure, implies_true, and_true]
    refine ⟨faultsIn_mapM fun constraint _ => inequalities constraint, fun groups groups_ok => ?_⟩
    have layout := (Conjunct.inequalities_spec laid_out groups_ok).1
    rintro _ ⟨_, rfl⟩
    refine ⟨reserved _ (by unfold Conjunct.coneSize; omega), fun _ _ => ⟨reserved _ dim_le, fun _ _ => ⟨entries (by simp), ?_⟩⟩⟩
    refine fun _ _ => ⟨faultsIn_mapM fun position position_mem => ?_, fun _ _ => faultsIn_mapM fun column column_mem => ?_⟩
    · refine faultsIn_bind_iff.mpr ⟨entries fun form form_mem => ?_, fun _ _ => faultsIn_pure _⟩
      rw [isSome_getElem?, (layout form form_mem).2]
      exact mem_range.mp position_mem
    · refine faultsIn_bind_iff.mpr ⟨entries fun form form_mem => ?_, fun _ _ => faultsIn_pure _⟩
      rw [isSome_getElem?, (layout form form_mem).1]
      exact mem_range.mp column_mem
  simp only [ofConjunct, faultsIn_ite_iff, faultsIn_bind_iff, faultsIn_throw_iff, Size.faultsIn_checked,
    Size.checked_ok_iff, true_and, faultsIn_pure, implies_true]
  refine ⟨?_, fun _ => ?_⟩
  · rintro ⟨is_distance, different⟩
    exact absurd (same_sides is_distance) different
  · rintro _ ⟨_, rfl⟩
    refine ⟨(Polyhedron.meets_isEmpty laid_out.system).faults.mono (Fault.Limits.mono ?_), fun _ _ _ => built⟩
    rw [laid_out.dim]
    unfold Conjunct.coneSize Conjunct.params
    omega

/-- An instance of a row names columns of the mapping and of the multipliers. -/
theorem within_instantiate {row : ConeRow} {made : Row} {first : ℕ} (done : instantiate row mapping first = .ok made)
    (within : ∀ form ∈ mapping, form.Within first) (short : row.multipliers.length ≤ count) :
    made.form.Within (first + count) := by
  simp only [instantiate, bind_ok] at done
  obtain ⟨sum, sum_ok, made_ok⟩ := done
  refine Row.within_make made_ok (forall_mem_append.mpr ⟨fun term term_mem => ?_, forall_mem_map.mpr fun entry entry_mem => ?_⟩)
  · have sum_within := Form.within_combination sum_ok fun part part_mem => within part.1 (of_mem_zip part_mem).1
    exact (sum_within term term_mem).trans_le (Nat.le_add_right _ _)
  · have inside := (List.getElem?_eq_some_iff.mp (mem_zipIdx_iff_getElem?.mp (mem_of_mem_filter entry_mem))).1
    dsimp only
    omega

theorem limits_plugInto {problem : Problem} (made : ofConjunct kind conjunct = .ok cone) (length_eq : mapping.length = cone.dim)
    (within : ∀ form ∈ mapping, form.Within problem.columns) :
    FaultsIn (Fault.Limits conjunct.coneSize) (cone.plugInto problem mapping) := by
  obtain ⟨count_le, multipliers⟩ := multipliers_of_ofConjunct made
  simp only [plugInto, length_eq, ne_eq, not_true_eq_false, if_false, faultsIn_bind_iff]
  refine ⟨(Problem.limits_addColumns _ _ _).mono (Fault.Limits.mono (by unfold Conjunct.coneSize; omega)), fun widened widened_ok => ?_⟩
  obtain rfl := Problem.addColumns_ok widened_ok
  refine (meets_foldlM (fun grown : Problem => grown.columns = problem.columns + cone.multiplierCount)
    (by simp [Problem.columns]) fun grown row row_mem columns_eq => ?_).faults
  have instantiated : FaultsIn (Fault.Limits conjunct.coneSize) (instantiate row mapping problem.columns) := by
    simp [instantiate]
  refine instantiated.bind fun made made_ok => FaultsIn.bind (faultsIn_require ?_) fun _ _ => meets_pure columns_eq
  rw [columns_eq]
  exact within_instantiate made_ok within (multipliers row row_mem).le

end Cone

/-! ### Distances -/

/-- All forms of a node name columns before a given one only. -/
structure RowForms.Within (forms : RowForms) (columns : ℕ) : Prop where
  constant : forms.constant.Within columns
  params : ∀ form ∈ forms.params, form.Within columns
  dims : ∀ form ∈ forms.dims, form.Within columns

section Distances

variable {allowed : Fault → Prop} [Fault.Tolerates allowed] {form other : Form} {columns : ℕ}

theorem meets_addScaled (form_within : form.Within columns) (other_within : other.Within columns) (factor : ℤ) :
    Meets allowed (form.addScaled other factor) (·.Within columns) :=
  ⟨Form.faultsIn_addScaled form other factor, fun _ added => Form.within_addScaled added form_within other_within⟩

theorem meets_mapM_scaled {forms : List Form} (within : ∀ form ∈ forms, form.Within columns) (factor : ℤ) :
    Meets allowed (forms.mapM (·.scaled factor)) fun scaled => ∀ form ∈ scaled, form.Within columns :=
  meets_mapM fun form form_mem => meets_addScaled (by simp [Form.Within, Form.zero]) (within form form_mem) factor

theorem meets_distanceMapping {forms : List RowForms} {edge : Edge} {dims : List ℕ} {params : List Form}
    (fit : FormsLaidOut forms dims params.length) (laid_out : edge.LaidOut dims params.length)
    (within : ∀ form ∈ forms, form.Within columns) (form_within : form.Within columns)
    (params_within : ∀ param ∈ params, param.Within columns) (scale : ℤ) :
    Meets allowed (distanceMapping forms edge form params scale) fun mapping => ∀ part ∈ mapping, part.Within columns := by
  obtain ⟨source, target, source_at, target_at⟩ := fit.exists_ends laid_out
  obtain ⟨source_params, target_params, _⟩ := fit.of_relates laid_out source_at target_at
  have source_within := within source (mem_of_getElem? source_at)
  have target_within := within target (mem_of_getElem? target_at)
  simp only [distanceMapping, source_at, target_at, ofOption]
  split
  · refine (meets_mapM_scaled source_within.dims scale).bind fun dims _ dims_within => meets_pure ?_
    exact forall_mem_append.mpr ⟨forall_mem_cons.mpr ⟨form_within, params_within⟩, dims_within⟩
  · refine (meets_addScaled form_within target_within.constant scale).bind fun moved _ moved_within =>
      (meets_addScaled moved_within source_within.constant (-scale)).bind fun first _ first_within =>
      (meets_mapM fun entry entry_mem => (?_ : Meets _ _ (Form.Within · columns))).bind fun middle _ middle_within =>
      (meets_mapM_scaled source_within.dims (-scale)).bind fun sourceDims _ source_dims =>
      (meets_mapM_scaled target_within.dims scale).bind fun targetDims _ target_dims => meets_pure ?_
    · obtain ⟨inside, entry_at⟩ := List.getElem?_eq_some_iff.mp (mem_zipIdx_iff_getElem?.mp entry_mem)
      have target_lt : entry.2 < target.params.length := target_params ▸ inside
      have source_lt : entry.2 < source.params.length := source_params ▸ inside
      simp only [getElem?_eq_getElem target_lt, getElem?_eq_getElem source_lt, ofOption]
      exact (meets_addScaled (params_within _ (entry_at ▸ getElem_mem inside)) (target_within.params _ (getElem_mem target_lt))
        scale).bind fun reached _ reached_within =>
          meets_addScaled reached_within (source_within.params _ (getElem_mem source_lt)) (-scale)
    · exact forall_mem_append.mpr ⟨forall_mem_append.mpr ⟨forall_mem_cons.mpr ⟨first_within, middle_within⟩, source_dims⟩,
        target_dims⟩

end Distances

/-! ### The carrying problem -/

theorem ConeProblem.meets_addCarried {forms : List RowForms} {state : ConeProblem} {edge : Edge}
    {disjunct : Conjunct} {dims : List ℕ} {paramCount number columns : ℕ} (fit : FormsLaidOut forms dims paramCount)
    (within : ∀ form ∈ forms, form.Within columns) (laid_out : edge.LaidOut dims paramCount)
    (disjunct_mem : disjunct ∈ edge.relation.disjuncts) (number_lt : 3 + number < columns) (sound : state.cache.Sound)
    (columns_le : columns ≤ state.problem.columns) :
    Meets (Fault.Limits disjunct.coneSize) (state.addCarried forms paramCount ((edge, disjunct), number))
      fun next => next.cache.Sound ∧ columns ≤ next.problem.columns := by
  have missing : (Form.column (3 + number)).scaled (-1) = pure { terms := [(3 + number, -1)], constant := 0 } := rfl
  simp only [addCarried, missing, pure_bind]
  have cached : FaultsIn (Fault.Limits disjunct.coneSize) (state.cache.get (coneKind edge) disjunct) := by
    unfold ConeCache.get
    split
    · simp
    · simp [limits_ofConjunct (laid_out.disjuncts disjunct disjunct_mem) (laid_out.same_sides disjunct_mem)]
  refine cached.bind fun entry found => ?_
  obtain ⟨made, cache_sound⟩ := sound.get found
  have mapped : Meets (Fault.Limits disjunct.coneSize)
      (distanceMapping forms edge { terms := [(3 + number, -1)], constant := 0 } (List.replicate paramCount Form.zero) 1)
      fun mapping => ∀ part ∈ mapping, part.Within columns := by
    refine meets_distanceMapping (by rwa [length_replicate]) (by rwa [length_replicate]) within ?_ ?_ 1
    · simpa [Form.Within] using number_lt
    · intro param param_mem
      simp [eq_of_mem_replicate param_mem, Form.Within, Form.zero]
  refine mapped.bind fun mapping mapping_ok mapping_within => ?_
  have demand_laid_out : ∀ constant,
      Demand.LaidOut ⟨edge, disjunct, ⟨constant, replicate paramCount Form.zero⟩, 1⟩ dims paramCount :=
    fun _ => ⟨laid_out, disjunct_mem, length_replicate⟩
  have length_eq := Demand.length_coefficients fit (demand_laid_out _) mapping_ok made
  refine (limits_plugInto made length_eq fun form form_mem term term_mem =>
    (mapping_within form form_mem term term_mem).trans_le columns_le).bind fun problem plugged => meets_pure ⟨cache_sound, ?_⟩
  exact columns_le.trans (continues_of_plugInto plugged).columns_le

namespace Graph

variable {graph : Graph} {cache : ConeCache} {options : Options} {columns : ℕ}

/-- The length of the longest list that the carrying problem of a graph takes: its columns, or a list of one of its cones. -/
def carryingSize (graph : Graph) : ℕ :=
  (graph.placeColumns (3 + graph.validityDisjuncts.length)).2 + (graph.validityDisjuncts.map (·.2.coneSize)).sum

section

variable {first : ℕ} (within : graph.ColumnsWithin first columns)
include within

theorem ColumnsWithin.pair_lt {node : Node} (node_mem : node ∈ graph.nodes) :
    ∀ pair ∈ node.paramPairs ++ node.dimPairs, pair.1 < columns ∧ pair.2 < columns := by
  intro pair pair_mem
  have last_le := (within node node_mem).2
  obtain ⟨_, second_eq, second_lt⟩ := Node.pair_bounds pair_mem
  omega

theorem ColumnsWithin.forms {forms : List RowForms} (formed : graph.coefficientForms false = .ok forms) :
    ∀ form ∈ forms, form.Within columns := by
  refine (mapM_ok.mp formed).forall_mem (fun node form node_mem done _ => ?_) fun _ _ => trivial
  obtain ⟨param_lt, dim_lt⟩ := forall_mem_append.mp (within.pair_lt node_mem)
  have last_le := (within node node_mem).2
  unfold Node.columnCount at last_le
  obtain rfl := pure_ok.mp done
  refine ⟨?_, forall_mem_map.mpr fun pair pair_mem => ?_, forall_mem_map.mpr fun pair pair_mem => ?_⟩
  · simp only [Form.Within, Form.column, forall_mem_singleton]
    omega
  · exact Form.within_difference (param_lt pair pair_mem).2 (param_lt pair pair_mem).1
  · exact Form.within_difference (dim_lt pair pair_mem).2 (dim_lt pair pair_mem).1

theorem ColumnsWithin.column_lt : ∀ column ∈ graph.paramColumns ++ graph.dimColumns, column < columns := by
  simp only [paramColumns, dimColumns, mem_append, mem_flatMap]
  rintro column (⟨node, node_mem, pair, pair_mem, column_mem⟩ | ⟨node, node_mem, pair, pair_mem, column_mem⟩)
  · have both := within.pair_lt node_mem pair (mem_append_left _ pair_mem)
    rcases mem_pair.mp column_mem with rfl | rfl
    exacts [both.1, both.2]
  · have both := within.pair_lt node_mem pair (mem_append_right _ pair_mem)
    rcases mem_pair.mp column_mem with rfl | rfl
    exacts [both.1, both.2]

end

theorem within_sumRow {sum : ℕ} {summed : List ℕ} {row : Row} (made : sumRow sum summed = .ok row) (sum_lt : sum < columns)
    (summed_lt : ∀ column ∈ summed, column < columns) : row.form.Within columns :=
  Row.within_make made (forall_mem_cons.mpr ⟨sum_lt, forall_mem_map.mpr summed_lt⟩)

theorem limits_carryingProblem (unlimited : options.maxCoefficient = none ∧ options.maxConstantTerm = none)
    (well_formed : graph.WellFormed) (partitioned : graph.Partitioned) (sound : cache.Sound) :
    FaultsIn (Fault.Limits graph.carryingSize) (graph.carryingProblem cache options) := by
  have placed_core := core_placeColumns graph (3 + graph.validityDisjuncts.length)
  have placed_well_formed := wellFormed_of_core_eq placed_core.symm well_formed
  have within := columnsWithin_placeColumns partitioned.sorted (3 + graph.validityDisjuncts.length)
  have first_le : 3 + graph.validityDisjuncts.length ≤ (graph.placeColumns (3 + graph.validityDisjuncts.length)).2 :=
    (placeNodes_spec graph.sorted (3 + graph.validityDisjuncts.length) graph.nodes).1
  simp only [carryingProblem, faultsIn_bind_iff, faultsIn_sumRow, Row.faultsIn_make, faultsIn_pure, implies_true,
    and_true, true_and]
  intro carried carried_ok paramSum param_ok dimSum dim_ok
  refine ⟨by simp, fun caps caps_ok => ⟨?_, fun base base_ok => ⟨?_, fun capped capped_ok => ⟨?_, fun bounded bounded_ok =>
    ⟨by simp [coefficientForms, RowForms.ofNode], fun forms formed => ?_⟩⟩⟩⟩⟩
  · exact (Problem.limits_ofColumns _ _).mono (Fault.Limits.mono (Nat.le_add_right _ _))
  · obtain rfl := Problem.ofColumns_ok base_ok
    obtain ⟨param_lt, dim_lt⟩ := forall_mem_append.mp within.column_lt
    refine (Problem.meets_addRows ?_).faults
    rw [Problem.columns, length_replicate]
    have disjunct_lt : ∀ column ∈ (List.range graph.validityDisjuncts.length).map (3 + ·),
        column < (graph.placeColumns (3 + graph.validityDisjuncts.length)).2 := by
      refine forall_mem_map.mpr fun number number_mem => ?_
      have := mem_range.mp number_mem
      omega
    refine forall_mem_append.mpr ⟨?_, (mapM_ok.mp caps_ok).forall_mem ?_ disjunct_lt⟩
    · simp only [forall_mem_cons, not_mem_nil, false_implies, implies_true, and_true]
      refine ⟨Row.within_make carried_ok (forall_mem_cons.mpr ⟨by dsimp only; omega, forall_mem_map.mpr disjunct_lt⟩),
        within_sumRow param_ok (by omega) param_lt, within_sumRow dim_ok (by omega) dim_lt⟩
    · intro column cap _ cap_ok column_lt
      exact Row.within_make cap_ok (forall_mem_singleton.mpr column_lt)
  · simp [Problem.addBounds, boundRows, unlimited, Problem.addRows]
  · obtain ⟨integer_eq, _, _⟩ := satisfies_addBounds_iff base_ok capped_ok bounded_ok
    have fit := formsLaidOut placed_well_formed (fun impossible => absurd impossible Bool.false_ne_true) formed
    have columns_eq : bounded.columns = (graph.placeColumns (3 + graph.validityDisjuncts.length)).2 := by
      rw [Problem.columns, integer_eq, length_replicate]
    refine (meets_foldlM (fun state : ConeProblem => state.cache.Sound ∧ bounded.columns ≤ state.problem.columns)
      ⟨sound, le_rfl⟩ ?_).faults
    rw [← columns_eq] at within first_le
    rintro state ⟨⟨edge, disjunct⟩, number⟩ entry_mem ⟨state_sound, columns_le⟩
    have entry_at := mem_zipIdx_iff_getElem?.mp entry_mem
    obtain ⟨edge_mem, _, disjunct_mem⟩ := mem_validityDisjuncts_iff.mp (mem_of_getElem? entry_at)
    have number_lt := (List.getElem?_eq_some_iff.mp entry_at).1
    refine (meets_addCarried fit (within.forms formed) (placed_well_formed.edges edge edge_mem) disjunct_mem
      (by dsimp only at number_lt; omega) state_sound columns_le).mono (Fault.Limits.mono ?_)
    have size_mem : disjunct.coneSize ∈ graph.validityDisjuncts.map (·.2.coneSize) :=
      mem_map.mpr ⟨_, mem_of_getElem? entry_at, rfl⟩
    exact (le_sum_of_mem size_mem).trans (Nat.le_add_left _ _)

end Graph

end AffineSchedule
