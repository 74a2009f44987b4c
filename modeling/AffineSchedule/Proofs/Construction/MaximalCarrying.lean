/-
Module: AffineSchedule.Proofs.Construction.MaximalCarrying
Purpose: A carrying row carries every disjunct that rows can carry at all. Rows that carry one more disjunct
  could be added to the optimum of the carrying problem, so its column is one there.
-/
import AffineSchedule.Proofs.Construction.RowFaults

namespace AffineSchedule

open Checked Linear Finset Function

/-- The first row plus a multiple of the second, moved by a constant. -/
def AffineRow.plus (row : AffineRow ℚ) (factor : ℚ) (other : AffineRow ℚ) (shift : ℚ) : AffineRow ℚ where
  constant := row.constant + factor * other.constant + shift
  params i := row.params i + factor * other.params i
  dims k := row.dims k + factor * other.dims k

/-- A common shift of both ends does not show in their distance. -/
theorem Conjunct.distance_plus (conjunct : Conjunct) (source target otherSource otherTarget : AffineRow ℚ)
    (factor shift : ℚ) (columns params : ℕ → ℚ) :
    conjunct.distance (source.plus factor otherSource shift) (target.plus factor otherTarget shift) columns params
      = conjunct.distance source target columns params
        + factor * conjunct.distance otherSource otherTarget columns params := by
  simp only [distance, AffineRow.time, AffineRow.plus, mul_add, sum_add_distrib, mul_left_comm _ factor,
    ← mul_sum]
  ring

namespace Graph

variable {graph placed : Graph} {cache : ConeCache} {options : Options} {complete : ConeProblem}
  {columns number : ℕ} {point : Point} {edge : Edge} {disjunct : Conjunct} {carrying : CarryingRow}

/-- Rows, one per node, that run no rational pair of a validity or conditional validity edge backwards. -/
def RowsForward (graph : Graph) (rows : ℕ → AffineRow ℚ) : Prop :=
  ∀ edge ∈ graph.edges, edge.isAnyValidity = true → ∀ disjunct ∈ edge.relation.disjuncts, ∀ columns params : ℕ → ℚ,
    disjunct.system.HoldsAt columns params → 0 ≤ disjunct.distance (rows edge.source) (rows edge.target) columns params

/-- The disjunct belongs to a validity or conditional validity edge, and some forward rows keep all its distances above a
    positive number. -/
structure Carriable (graph : Graph) (edge : Edge) (disjunct : Conjunct) : Prop where
  edge_mem : edge ∈ graph.edges
  any_validity : edge.isAnyValidity = true
  disjunct_mem : disjunct ∈ edge.relation.disjuncts
  carried : ∃ rows, graph.RowsForward rows ∧ ∃ amount > 0, ∀ columns params : ℕ → ℚ, disjunct.system.HoldsAt columns params →
    amount ≤ disjunct.distance (rows edge.source) (rows edge.target) columns params

/-- The optimum of the carrying problem of a graph, with the rows that stand in its columns. -/
structure CarryingOptimum (graph : Graph) (options : Options) (complete : ConeProblem)
    (rows : ℕ → AffineRow ℚ) (σ : Assignment) : Prop where
  nonneg : ∀ column, 0 ≤ σ column
  capped : ∀ number < graph.validityDisjuncts.length, σ (3 + number) ≤ 1
  missing : σ 0 = graph.validityDisjuncts.length - ∑ number ∈ Finset.range graph.validityDisjuncts.length, σ (3 + number)
  within : graph.RowsWithin options rows
  carries : graph.CarriesAt rows σ
  least : ∀ τ, Satisfies τ complete.problem.rows → σ 0 ≤ τ 0

theorem CarryingPoint.optimum (solves : graph.CarryingPoint cache options placed complete columns point)
    (well_formed : graph.WellFormed) (sound : cache.Sound) :
    graph.CarryingOptimum options complete (placed.rowsAt false (Point.assignment point)) (Point.assignment point) := by
  obtain ⟨bounded, parts, _, met⟩ := met_of_carryingProblem well_formed sound solves.problem_ok
  obtain ⟨length_eq, satisfied⟩ := Problem.satisfies_of_rationalLexmin met.sound.bounded (by simp) solves.found
  rw [List.append_nil] at satisfied
  obtain ⟨nonneg, sums, within⟩ := (parts.satisfies_iff _).mp (met.continues.satisfies satisfied)
  refine ⟨nonneg, sums.caps, eq_sub_of_add_eq ?_, (rowsWithin_rowsAt nonneg within).of_core_eq parts.redrawn.core_eq,
    keptAt_carriedDemands_iff.mp (met.kept _ satisfied), fun τ τ_satisfied => ?_⟩
  · have missing := sums.missing
    rw [List.map_map] at missing
    exact missing
  · have inside : ∀ objective ∈ (List.range columns).map fun column => [(column, (1 : ℤ))], ∀ term ∈ objective,
        term.1 < complete.problem.columns := by
      have columns_le := met.continues.columns_le
      rw [parts.columns_problem] at columns_le
      simp only [List.forall_mem_map, List.mem_range, List.forall_mem_singleton]
      exact fun column below => below.trans_le columns_le
    have found := solves.found
    rw [Problem.rationalLexmin, List.append_nil] at found
    have optimal := optimal_of_lexmin met.sound.bounded inside found
    have first_le := parts.first_le
    obtain ⟨later, rfl⟩ := Nat.exists_eq_add_of_le' (show 1 ≤ columns by omega)
    rw [List.range_succ_eq_map, List.map_cons] at optimal
    obtain ⟨_, first_least⟩ : Point.assignment point ∈ least (Form.termsValue [(0, 1)]) {σ | Satisfies σ complete.problem.rows} :=
      optimal_subset Form.termsValue _ _ optimal
    simpa [Form.termsValue] using first_least τ τ_satisfied

/-- Rows with enough of other rows added to raise a distance by one, and lifted so far that no constant is negative. -/
def raised (graph : Graph) (rows others : ℕ → AffineRow ℚ) (amount : ℚ) (place : ℕ) : AffineRow ℚ :=
  (rows place).plus amount⁻¹ (others place) (∑ other ∈ Finset.range graph.nodes.length, |amount⁻¹ * (others other).constant|)

section Optimum

variable {rows others : ℕ → AffineRow ℚ} {σ : Assignment} {amount : ℚ}

theorem rowsWithin_raised (unlimited : options.maxCoefficient = none ∧ options.maxConstantTerm = none)
    (within : graph.RowsWithin options rows) : graph.RowsWithin options (graph.raised rows others amount) := by
  refine ⟨fun place inside => ?_, by simp [unlimited.2], by simp [unlimited.1]⟩
  have lifted := single_le_sum (fun other _ => abs_nonneg (amount⁻¹ * (others other).constant)) (mem_range.mpr inside)
  have := within.nonneg place inside
  have := neg_abs_le (amount⁻¹ * (others place).constant)
  simp only [raised, AffineRow.plus]
  linarith

/-- Every disjunct keeps its column, and the one that the other rows carry gets the column one. -/
theorem CarriesAt.raised (carries : graph.CarriesAt rows σ) (nonneg : ∀ column, 0 ≤ σ column) (forward : graph.RowsForward others)
    (entry_at : graph.validityDisjuncts[number]? = some (edge, disjunct)) (positive : 0 < amount)
    (above : ∀ columns params : ℕ → ℚ, disjunct.system.HoldsAt columns params →
      amount ≤ disjunct.distance (others edge.source) (others edge.target) columns params) :
    graph.CarriesAt (graph.raised rows others amount) (Function.update σ (3 + number) 1) := by
  intro other otherEdge otherDisjunct other_at may_hold columns params holds
  rw [Graph.raised, Graph.raised, Conjunct.distance_plus]
  have kept := carries other otherEdge otherDisjunct other_at may_hold columns params holds
  rcases eq_or_ne other number with rfl | different
  · obtain ⟨rfl, rfl⟩ := Prod.mk.inj (Option.some.inj (other_at.symm.trans entry_at))
    have enough := mul_le_mul_of_nonneg_left (above columns params holds) (inv_nonneg.mpr positive.le)
    rw [inv_mul_cancel₀ positive.ne'] at enough
    rw [update_self]
    linarith [nonneg (3 + other)]
  · obtain ⟨edge_mem, any_validity, disjunct_mem⟩ := mem_validityDisjuncts_iff.mp (List.mem_of_getElem? other_at)
    have added := forward otherEdge edge_mem any_validity otherDisjunct disjunct_mem columns params holds
    rw [update_of_ne (by omega)]
    exact kept.trans (le_add_of_nonneg_right (mul_nonneg (inv_nonneg.mpr positive.le) added))

/-- A disjunct that can be carried has the column one at the optimum. -/
theorem CarryingOptimum.column_eq_one (optimum : graph.CarryingOptimum options complete rows σ) (well_formed : graph.WellFormed)
    (partitioned : graph.Partitioned) (sound : cache.Sound)
    (problem_ok : graph.carryingProblem cache options = .ok (placed, complete, columns))
    (unlimited : options.maxCoefficient = none ∧ options.maxConstantTerm = none)
    (entry_at : graph.validityDisjuncts[number]? = some (edge, disjunct)) (carriable : graph.Carriable edge disjunct) :
    σ (3 + number) = 1 := by
  obtain ⟨others, forward, amount, positive, above⟩ := carriable.carried
  have number_mem := mem_range.mpr (List.getElem?_eq_some_iff.mp entry_at).1
  have update_eq : ∀ other, Function.update σ (3 + number) 1 (3 + other)
      = Function.update (fun other => σ (3 + other)) number 1 other :=
    congrFun (update_comp_eq_of_injective σ (add_right_injective 3) number 1)
  have capped : ∀ other < graph.validityDisjuncts.length, 0 ≤ Function.update σ (3 + number) 1 (3 + other)
      ∧ Function.update σ (3 + number) 1 (3 + other) ≤ 1 := by
    simp only [update_eq]
    refine (forall_update_iff _ fun other value => other < _ → 0 ≤ value ∧ value ≤ 1).mpr ⟨?_, fun other _ other_lt => ?_⟩
    · exact fun _ => ⟨zero_le_one, le_rfl⟩
    · exact ⟨optimum.nonneg _, optimum.capped other other_lt⟩
  obtain ⟨τ, satisfied, missing_eq⟩ := exists_carryPoint well_formed partitioned sound problem_ok
    (rowsWithin_raised unlimited optimum.within) capped (optimum.carries.raised optimum.nonneg forward entry_at positive above)
  have least := optimum.least τ satisfied
  rw [missing_eq, optimum.missing, sum_congr rfl fun other _ => update_eq other, sum_update_of_mem number_mem,
    ← sum_sdiff (singleton_subset_iff.mpr number_mem), sum_singleton] at least
  exact le_antisymm (optimum.capped number (mem_range.mp number_mem)) (by linarith)

variable (holding : ∀ edge ∈ graph.edges, ∀ disjunct ∈ edge.relation.disjuncts, disjunct.MayHold)
include holding

theorem CarriesAt.le_distance (carries : graph.CarriesAt rows σ) (edge_mem : edge ∈ graph.edges)
    (any_validity : edge.isAnyValidity = true) (disjunct_mem : disjunct ∈ edge.relation.disjuncts) :
    ∃ number, graph.validityDisjuncts[number]? = some (edge, disjunct) ∧ ∀ columns params : ℕ → ℚ,
      disjunct.system.HoldsAt columns params →
        σ (3 + number) ≤ disjunct.distance (rows edge.source) (rows edge.target) columns params := by
  obtain ⟨number, entry_at⟩ := List.getElem?_of_mem (mem_validityDisjuncts_iff.mpr ⟨edge_mem, any_validity, disjunct_mem⟩)
  exact ⟨number, entry_at, carries number edge disjunct entry_at (holding edge edge_mem disjunct disjunct_mem)⟩

theorem CarryingOptimum.rowsForward (optimum : graph.CarryingOptimum options complete rows σ) : graph.RowsForward rows := by
  intro edge edge_mem any_validity disjunct disjunct_mem columns params holds
  obtain ⟨number, _, carried⟩ := optimum.carries.le_distance holding edge_mem any_validity disjunct_mem
  exact (optimum.nonneg _).trans (carried columns params holds)

/-- An optimum that carries something shows that it can be carried. -/
theorem CarryingOptimum.exists_carriable (optimum : graph.CarryingOptimum options complete rows σ)
    (carries : σ 0 < graph.validityDisjuncts.length) : ∃ edge disjunct, graph.Carriable edge disjunct := by
  rw [optimum.missing, sub_lt_self_iff] at carries
  obtain ⟨number, number_mem, positive⟩ : ∃ number ∈ Finset.range graph.validityDisjuncts.length, 0 < σ (3 + number) := by
    by_contra! none_positive
    exact absurd carries (not_lt.mpr (sum_nonpos none_positive))
  obtain ⟨⟨edge, disjunct⟩, entry_at⟩ : ∃ entry, graph.validityDisjuncts[number]? = some entry :=
    ⟨_, List.getElem?_eq_getElem (mem_range.mp number_mem)⟩
  obtain ⟨edge_mem, any_validity, disjunct_mem⟩ := mem_validityDisjuncts_iff.mp (List.mem_of_getElem? entry_at)
  exact ⟨edge, disjunct, edge_mem, any_validity, disjunct_mem, rows, optimum.rowsForward holding, σ (3 + number), positive,
    optimum.carries number edge disjunct entry_at (holding edge edge_mem disjunct disjunct_mem)⟩

end Optimum

theorem one_le_commonDenominator (point : Point) : 1 ≤ commonDenominator point := by
  have positive : ∀ (values : List ℚ) (common : ℕ), 1 ≤ common →
      1 ≤ values.foldl (fun common value => common.lcm value.den) common := by
    intro values
    induction values with
    | nil => exact fun _ start => start
    | cons value later ih => exact fun common start => ih _ (Nat.lcm_pos start value.den_pos)
  exact positive point 1 le_rfl

section Outcome

variable (well_formed : graph.WellFormed) (partitioned : graph.Partitioned) (sound : cache.Sound)
  (unlimited : options.maxCoefficient = none ∧ options.maxConstantTerm = none)
  (holding : ∀ edge ∈ graph.edges, ∀ disjunct ∈ edge.relation.disjuncts, disjunct.MayHold)
include well_formed partitioned sound unlimited holding

/-- The rows that are found run forward, and carry all that can be carried. -/
theorem carries_of_carryingRow (done : graph.carryingRow cache options = .ok carrying) :
    graph.RowsForward (fun place => (rowsOf graph.params.length carrying.rows place).cast)
      ∧ ∀ edge disjunct, graph.Carriable edge disjunct → ∀ columns params : ℕ → ℚ, disjunct.system.HoldsAt columns params →
        1 ≤ disjunct.distance (rowsOf graph.params.length carrying.rows edge.source).cast
          (rowsOf graph.params.length carrying.rows edge.target).cast columns params := by
  obtain ⟨_, complete, columns, point, solves, solution⟩ := solution_of_carryingRow well_formed sound done
  have optimum := solves.optimum well_formed sound
  have scale := (Nat.one_le_cast (α := ℚ)).mpr (one_le_commonDenominator point)
  simp only [RowsForward, solution.rows_eq, Conjunct.distance_scaled]
  constructor
  · intro edge edge_mem any_validity disjunct disjunct_mem columns params holds
    exact mul_nonneg (by linarith) (optimum.rowsForward holding edge edge_mem any_validity disjunct disjunct_mem columns params holds)
  · intro edge disjunct carriable columns params holds
    obtain ⟨number, entry_at, carried⟩ := optimum.carries.le_distance holding carriable.edge_mem carriable.any_validity
      carriable.disjunct_mem
    have one_le := carried columns params holds
    rw [optimum.column_eq_one well_formed partitioned sound solves.problem_ok unlimited entry_at carriable] at one_le
    exact one_le_mul_of_one_le_of_one_le scale one_le

theorem exists_carriable_iff (solves : graph.CarryingPoint cache options placed complete columns point) :
    (∃ edge disjunct, graph.Carriable edge disjunct) ↔ Point.assignment point 0 < graph.validityDisjuncts.length := by
  have optimum := solves.optimum well_formed sound
  refine ⟨?_, optimum.exists_carriable holding⟩
  rintro ⟨edge, disjunct, carriable⟩
  obtain ⟨number, entry_at, _⟩ := optimum.carries.le_distance holding carriable.edge_mem carriable.any_validity
    carriable.disjunct_mem
  have column_eq := optimum.column_eq_one well_formed partitioned sound solves.problem_ok unlimited entry_at carriable
  rw [optimum.missing, sub_lt_self_iff]
  refine sum_pos' (fun other _ => optimum.nonneg _) ⟨number, ?_, column_eq ▸ one_pos⟩
  exact mem_range.mpr (List.getElem?_eq_some_iff.mp entry_at).1

end Outcome

end Graph

end AffineSchedule
