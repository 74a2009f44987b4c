import AffineSchedule.Proofs.Construction.Carrying
import AffineSchedule.Proofs.Construction.RowPoints

namespace AffineSchedule

open Checked List Linear Node

variable {graph : Graph} {cache : ConeCache} {coincide : Bool} {options : Options} {value : ℚ}
  {search : RowSearch} {rows : List (List ℤ)}

/-! ### Problems -/

@[simp] theorem RowForms.routine_ofNode (node : Node) (useBasis : Bool) : Routine (ofNode node useBasis) := by
  simp [ofNode]

@[simp] theorem faultsIn_sumRow {allowed : Fault → Prop} [Fault.Tolerates allowed] (sum : ℕ) (columns : List ℕ) :
    FaultsIn allowed (sumRow sum columns) := by
  simp [sumRow]

@[simp] theorem routine_boundRows (node : Node) (options : Options) (useBasis : Bool) :
    Routine (boundRows node options useBasis) := by
  unfold boundRows
  cases options.maxConstantTerm <;> cases options.maxCoefficient <;> simp

@[simp] theorem Linear.Problem.routine_addBounds (problem : Linear.Problem) (graph : Graph)
    (options : Options) (useBasis : Bool) : Routine (problem.addBounds graph options useBasis) := by
  simp [addBounds]

namespace Graph

@[simp] theorem routine_coefficientForms (graph : Graph) (useBasis : Bool) :
    Routine (graph.coefficientForms useBasis) := by
  simp [coefficientForms]

theorem routine_rowProblem (options : Options) (coincide : Bool) (well_formed : graph.WellFormed)
    (based : ∀ node ∈ graph.nodes, node.Based) (sound : cache.Sound) :
    Routine (graph.rowProblem cache options coincide) := by
  have placed_core := core_placeColumns graph (4 + 2 * graph.params.length)
  have placed_well_formed := wellFormed_of_core_eq placed_core.symm well_formed
  have placed_based := forall_node_of_core_eq placed_core.symm (fun _ _ core_eq => based_of_core_eq core_eq) based
  simp only [rowProblem, faultsIn_bind_iff, faultsIn_sumRow, Problem.routine_ofColumns,
    Problem.routine_addRows, Problem.routine_addBounds, faultsIn_pure, implies_true, and_true, true_and]
  intro boundSum _ paramSum _ dimSum _ base base_ok summed summed_ok bounded bounded_ok
  refine faultsIn_bind_iff.mp ?_
  cases formed : (graph.placeColumns (4 + 2 * graph.params.length)).1.coefficientForms true with
  | error fault =>
    rw [Graph.addForward, formed]
    exact faultsIn_error_iff.mpr (routine_coefficientForms _ true fault formed)
  | ok forms =>
    have fit := formsLaidOut placed_well_formed (fun _ => placed_based) formed
    obtain ⟨_, is_bounded, _⟩ := satisfies_addBounds_iff base_ok summed_ok bounded_ok
    exact (cuts_addDemands formed fit.params).faultsIn (ConeProblem.meets_demands ⟨is_bounded, sound⟩ fit formed
      fun demand demand_mem => (laidOut_of_mem_rowDemands placed_well_formed demand_mem).1).faults

theorem routine_carryingProblem (options : Options) (well_formed : graph.WellFormed) (sound : cache.Sound) :
    Routine (graph.carryingProblem cache options) := by
  have placed_core := core_placeColumns graph (3 + graph.validityDisjuncts.length)
  have placed_well_formed := wellFormed_of_core_eq placed_core.symm well_formed
  simp only [carryingProblem, faultsIn_bind_iff, faultsIn_sumRow, Row.faultsIn_make, Problem.routine_ofColumns,
    Problem.routine_addRows, Problem.routine_addBounds, routine_coefficientForms, faultsIn_pure, implies_true,
    and_true, true_and]
  intro carried _ paramSum _ dimSum _
  refine ⟨by simp, ?_⟩
  intro caps _ base base_ok capped capped_ok bounded bounded_ok forms formed
  have fit := formsLaidOut placed_well_formed (fun impossible => absurd impossible Bool.false_ne_true) formed
  obtain ⟨_, is_bounded, _⟩ := satisfies_addBounds_iff base_ok capped_ok bounded_ok
  exact (cuts_carriedDemands placed_well_formed).faultsIn (ConeProblem.meets_demands ⟨is_bounded, sound⟩ fit formed
    fun demand demand_mem => (laidOut_of_mem_carriedDemands placed_well_formed demand_mem).1).faults

end Graph

/-! ### Reading rows -/

theorem routine_integralWord (integral : value.den = 1) : Routine (integralWord value) := by
  simp [integralWord, integral, Fault.Routine]

theorem den_sub_eq_one {first second : ℚ} (first_integral : first.den = 1) (second_integral : second.den = 1) :
    (first - second).den = 1 := by
  rw [← (Rat.den_eq_one_iff first).mp first_integral, ← (Rat.den_eq_one_iff second).mp second_integral, ← Int.cast_sub]
  exact Rat.den_intCast _

section Reading

variable {point : Linear.Point} {columns : ℕ} (integral : ∀ column < columns, (point.getD column 0).den = 1)
include integral

theorem integral_of_getElem? {column : ℕ} (inside : column < columns) (value_at : point[column]? = some value) :
    value.den = 1 := by
  have found := integral column inside
  rwa [getD_eq_getElem?_getD, value_at, Option.getD_some] at found

theorem routine_pairValue {pair : ℕ × ℕ} (first_lt : pair.1 < columns) (second_lt : pair.2 < columns) :
    Routine (pairValue point pair) := by
  simp only [pairValue, faultsIn_bind_iff, routine_ofOption, true_and, ofOption_ok]
  intro positive positive_at negative negative_at
  exact routine_integralWord (den_sub_eq_one (integral_of_getElem? integral second_lt positive_at)
    (integral_of_getElem? integral first_lt negative_at))

/-- Rows are read from a point that is integral on the columns of the nodes. -/
theorem Graph.routine_readRows {first : ℕ} (useBasis : Bool) (within : graph.ColumnsWithin first columns) :
    Routine (graph.readRows point useBasis) := by
  refine faultsIn_mapM fun node node_mem => ?_
  have last_le := (within node node_mem).2
  have first_lt : node.firstColumn < columns := by
    unfold columnCount at last_le
    omega
  have pair_routine : ∀ pair ∈ node.paramPairs ++ node.dimPairs, Routine (pairValue point pair) := by
    intro pair pair_mem
    obtain ⟨_, second_eq, second_lt⟩ := pair_bounds pair_mem
    exact routine_pairValue integral (by omega) (by omega)
  obtain ⟨param_routine, dim_routine⟩ := forall_mem_append.mp pair_routine
  simp only [readRow, faultsIn_bind_iff, routine_ofOption, true_and, ofOption_ok,
    faultsIn_ite_iff, RowMatrix.routine_mulVec, faultsIn_pure, implies_true, and_true]
  intro entry entry_at
  refine ⟨routine_integralWord (integral_of_getElem? integral first_lt entry_at), fun _ _ => ?_⟩
  exact ⟨faultsIn_mapM param_routine, fun _ _ => faultsIn_mapM dim_routine⟩

end Reading

theorem integral_scaleToIntegers (point : Linear.Point) (column : ℕ) : ((scaleToIntegers point).getD column 0).den = 1 := by
  rw [getD_scaleToIntegers, Linear.Point.assignment]
  have divides : ∀ (values : List ℚ) (start : ℕ), (∀ value ∈ values, value.den ∣
      values.foldl (fun common value => common.lcm value.den) start)
      ∧ start ∣ values.foldl (fun common value => common.lcm value.den) start := by
    intro values
    induction values with
    | nil => simp
    | cons value later ih =>
      intro start
      obtain ⟨later_divide, start_divides⟩ := ih (start.lcm value.den)
      refine ⟨forall_mem_cons.mpr ⟨?_, later_divide⟩, ?_⟩
      · exact (Nat.dvd_lcm_right start value.den).trans start_divides
      · exact (Nat.dvd_lcm_left start value.den).trans start_divides
  rcases lt_or_ge column point.length with inside | beyond
  · have value_mem : point.getD column 0 ∈ point := by
      rw [getD_eq_getElem _ _ inside]
      exact getElem_mem inside
    obtain ⟨factor, factor_eq⟩ := (divides point 1).1 _ value_mem
    rw [commonDenominator, factor_eq, Nat.cast_mul, mul_comm (_ : ℚ) (factor : ℚ), mul_assoc, Rat.den_mul_eq_num]
    have as_integer : (factor : ℚ) * ((point.getD column 0).num : ℚ) = ((factor * (point.getD column 0).num : ℤ) : ℚ) := by
      push_cast
      rfl
    rw [as_integer]
    exact Rat.den_intCast _
  · rw [getD_eq_default _ _ beyond, mul_zero]
    rfl

namespace Graph

theorem length_of_readRows {point : Linear.Point} {useBasis : Bool} (read : graph.readRows point useBasis = .ok rows) :
    rows.length = graph.nodes.length :=
  (mapM_ok.mp read).length_eq.symm

/-! ### The next row -/

/-- The search for the next row breaks no contract. -/
theorem routine_nextRow (options : Options) (coincide : Bool) (well_formed : graph.WellFormed)
    (based : ∀ node ∈ graph.nodes, node.Based) (partitioned : graph.Partitioned) (sound : cache.Sound) :
    Routine (graph.nextRow cache options coincide) := by
  simp only [nextRow, faultsIn_bind_iff]
  refine ⟨routine_rowProblem options coincide well_formed based sound, ?_⟩
  rintro ⟨noted, complete, columns⟩ problem_ok
  obtain ⟨_, parts, met⟩ := met_of_rowProblem well_formed based sound problem_ok
  refine ⟨Problem.routine_nonTrivialLexmin (nonnegative_of_columns columns) met.sound.bounded _ _, ?_⟩
  intro outcome outcome_ok
  split
  next point solution =>
    obtain ⟨solved, _⟩ := Problem.solvedBy_of_nonTrivialLexmin met.sound.bounded outcome_ok solution
    rw [faultsIn_bind_iff]
    exact ⟨routine_readRows (fun column inside => solved.whole column ((parts.integer_iff met rfl).mpr inside)) true
      (parts.columnsWithin partitioned), fun _ _ => faultsIn_pure _⟩
  next => exact faultsIn_pure _

theorem length_of_nextRow (done : graph.nextRow cache options coincide = .ok search) (found : search.rows = some rows) :
    rows.length = search.graph.nodes.length := by
  obtain ⟨noted, complete, columns, outcome, _, _, _, ⟨conflict, search_eq⟩, read, _⟩ := nextRow_ok done
  obtain ⟨point, _, rows_ok⟩ := read rows found
  rw [search_eq]
  exact length_of_readRows rows_ok

/-- The conflict of a graph, if there is one, lies between two components of nodes, the earlier one first. -/
def ConflictOrdered (graph : Graph) : Prop :=
  ∀ source target, graph.conflict = some (source, target) →
    ∃ a ∈ graph.nodes, ∃ b ∈ graph.nodes, a.component = source ∧ source < b.component

theorem conflict_of_nextRow (partitioned : graph.Partitioned) (no_conflict : graph.conflict = none)
    (done : graph.nextRow cache options coincide = .ok search) : search.graph.ConflictOrdered := by
  simp only [nextRow, bind_ok] at done
  obtain ⟨⟨noted, complete, columns⟩, problem_ok, outcome, _, done⟩ := done
  obtain ⟨_, _, parts, _⟩ := rowProblem_ok problem_ok
  split at done
  next =>
    obtain ⟨rows, _, done⟩ := bind_ok.mp done
    obtain rfl := pure_ok.mp done
    intro source target found
    rw [parts.conflict.trans no_conflict] at found
    cases found
  next =>
    obtain rfl := pure_ok.mp done
    intro source target found
    obtain ⟨row, _, conflict_at⟩ := Option.bind_eq_some_iff.mp found
    simp only [conflictAt] at conflict_at
    obtain ⟨edge, edge_mem, components_eq⟩ := exists_of_findSome?_eq_some conflict_at
    simp only [mem_filter, Bool.and_eq_true] at edge_mem
    obtain ⟨edge_in, ⟨⟨has_validity, _⟩, _⟩, _⟩ := edge_mem
    simp only [Option.bind_eq_bind, Option.bind_eq_some_iff] at components_eq
    obtain ⟨a, a_at, b, b_at, components_eq⟩ := components_eq
    split_ifs at components_eq with same
    obtain ⟨rfl, rfl⟩ := Prod.mk.inj (Option.some.inj components_eq)
    have in_order := (partitioned_of_core_eq parts.redrawn.core_eq.symm partitioned).ordered edge edge_in has_validity a b a_at b_at
    exact ⟨a, mem_of_getElem? a_at, b, mem_of_getElem? b_at, rfl, lt_of_le_of_ne in_order same⟩

/-! ### The carrying row -/

@[simp] theorem routine_anyTrivial (graph : Graph) (entries : List (Node × List ℤ)) :
    Routine (graph.anyTrivial entries) := by
  induction entries with
  | nil => simp [anyTrivial]
  | cons entry later ih => simp [anyTrivial, dependsOnRows, ih]

/-- Once its problem is set up, the search for a carrying row stops because the solution carries nothing, or else for routine
    faults in reading rows from a solution that carries something. -/
theorem faultsIn_carryingRow {allowed : Fault → Prop} [Fault.Tolerates allowed]
    (set_up : FaultsIn allowed (graph.carryingProblem cache options))
    (cannot_carry : ∀ placed complete columns point, graph.CarryingPoint cache options placed complete columns point →
      graph.validityDisjuncts.length ≤ Linear.Point.assignment point 0 → allowed (.unschedulable .cannotCarry))
    (routine : ∀ placed complete columns point, graph.CarryingPoint cache options placed complete columns point →
      Linear.Point.assignment point 0 < graph.validityDisjuncts.length → ∀ fault, Fault.Routine fault → allowed fault)
    (well_formed : graph.WellFormed) (partitioned : graph.Partitioned) (sound : cache.Sound) :
    FaultsIn allowed (graph.carryingRow cache options) := by
  simp only [carryingRow, faultsIn_bind_iff]
  refine ⟨set_up, ?_⟩
  rintro ⟨placed, complete, columns⟩ problem_ok
  obtain ⟨_, parts, _, met⟩ := met_of_carryingProblem well_formed sound problem_ok
  have columns_le := met.continues.columns_le
  rw [parts.columns_problem] at columns_le
  have within : ∀ row ∈ complete.problem.rows ++ [], row.form.Within complete.problem.columns := by
    rw [append_nil]
    exact met.sound.bounded
  refine ⟨faultsIn_lexmin (nonnegative_of_columns columns) ?_ within, ?_⟩
  · simp only [forall_mem_map, mem_range, forall_mem_singleton]
    exact fun column below => below.trans_le columns_le
  intro answer answer_ok
  cases answer with
  | none =>
    obtain ⟨σ, satisfied⟩ := carryingProblem_feasible well_formed partitioned sound problem_ok
    refine (not_satisfies_of_lexmin within answer_ok σ ?_).elim
    rwa [append_nil]
  | some point =>
    have first_le := parts.first_le
    obtain ⟨missing, missing_at⟩ : ∃ missing, point[0]? = some missing :=
      ⟨_, List.getElem?_eq_getElem (by rw [(satisfies_of_lexmin within answer_ok).1]; omega)⟩
    have missing_eq := Problem.assignment_eq_of_getElem? missing_at
    simp only [missing_at, ofOption, faultsIn_bind_iff, faultsIn_ite_iff, faultsIn_throw_iff, faultsIn_ok, faultsIn_pure,
      true_and, Except.ok.injEq, forall_eq', implies_true, and_true]
    refine ⟨fun none_carried => ⟨?_, fun _ impossible => (throw_ok.mp impossible).elim⟩, fun carries => ?_⟩
    · exact cannot_carry placed complete columns point ⟨problem_ok, answer_ok⟩ (missing_eq ▸ none_carried)
    · have routine := routine placed complete columns point ⟨problem_ok, answer_ok⟩ (missing_eq ▸ not_le.mp carries)
      exact ⟨(routine_readRows (fun column _ => integral_scaleToIntegers point column) false
        (parts.columnsWithin partitioned)).mono routine, fun rows _ => (routine_anyTrivial placed _).mono routine⟩

end Graph

end AffineSchedule
