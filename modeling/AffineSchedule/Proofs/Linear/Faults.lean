import AffineSchedule.Proofs.Faults
import AffineSchedule.Proofs.Linear.Lattice

namespace AffineSchedule

open Checked

variable {count : ℕ} {rows : List Row}

namespace Linear

section Tolerated

variable {allowed : Fault → Prop} [Fault.Tolerates allowed]

namespace Form

@[simp] theorem faultsIn_addScaled (form other : Form) (factor : ℤ) : FaultsIn allowed (form.addScaled other factor) := by
  simp [addScaled, scaleTerms]

@[simp] theorem faultsIn_scaled (form : Form) (factor : ℤ) : FaultsIn allowed (form.scaled factor) := by
  simp [scaled]

@[simp] theorem faultsIn_combination (weighted : List (Form × ℤ)) : FaultsIn allowed (combination weighted) := by
  simp [combination]

@[simp] theorem faultsIn_insertTerm (term : ℕ × ℤ) (sorted : List (ℕ × ℤ)) : FaultsIn allowed (insertTerm term sorted) := by
  induction sorted with
  | nil => simp [insertTerm]
  | cons first later ih => simp [insertTerm, ih]

@[simp] theorem faultsIn_compact (form : Form) : FaultsIn allowed form.compact := by
  simp [compact]

end Form

namespace Row

@[simp] theorem faultsIn_make (sense : Sense) (form : Form) : FaultsIn allowed (make sense form) := by
  simp [make]

@[simp] theorem faultsIn_atMost (column : ℕ) (bound : ℤ) : FaultsIn allowed (atMost column bound) := by
  simp [atMost]

@[simp] theorem faultsIn_atLeast (column : ℕ) (bound : ℤ) : FaultsIn allowed (atLeast column bound) := by
  simp [atLeast]

end Row

end Tolerated

namespace Problem

@[simp] theorem routine_ofColumns (count : ℕ) (integer : Bool) : Routine (ofColumns count integer) := by
  simp [ofColumns]

@[simp] theorem routine_addColumns (problem : Problem) (count : ℕ) (integer : Bool) :
    Routine (problem.addColumns count integer) := by
  simp [addColumns]

@[simp] theorem routine_addRow (problem : Problem) (row : Row) : Routine (problem.addRow row) := by
  simp [addRow]

@[simp] theorem routine_addRows (problem : Problem) (rows : List Row) : Routine (problem.addRows rows) := by
  simp [addRows]

end Problem

/-! ### Pivots -/

namespace Tableau

variable {m n : ℕ}

theorem routine_optimize (tableau : Tableau m n) {cost : Vector ℚ n} (nonneg : ∀ j, 0 ≤ cost.get j) :
    Routine (tableau.optimize cost) := by
  have within : ∀ (steps : ℕ) (reached : Tableau m n), Routine (optimizeWithin cost steps reached) := by
    intro steps
    induction steps with
    | zero => simp [optimizeWithin, Fault.Routine]
    | succ steps ih =>
      intro reached
      unfold optimizeWithin
      split
      case h_1 => simp
      case h_2 column enters =>
        split
        case h_1 none_leaves => exact absurd none_leaves (leaving_ne_none nonneg enters)
        case h_2 => exact ih _
  exact within _ tableau

@[simp] theorem routine_checkRows (structural : ℕ) (rows : List Row) : Routine (checkRows structural rows) := by
  simp [checkRows]

@[simp] theorem routine_findFeasible (tableau : Tableau m n) : Routine tableau.findFeasible := by
  have nonneg : ∀ j, 0 ≤ tableau.artificialCost.get j := by
    intro j
    rw [get_artificialCost]
    split <;> norm_num
  simp [findFeasible, routine_optimize tableau nonneg]

end Tableau

/-! ### Objectives -/

/-- No column lowers the objective. -/
def Objective.Nonnegative (objective : Objective) : Prop := ∀ term ∈ objective, 0 ≤ term.2

/-- The objectives that minimize one column each. -/
theorem nonnegative_of_columns (columns : ℕ) :
    ∀ objective ∈ (List.range columns).map fun column => [(column, (1 : ℤ))], Objective.Nonnegative objective := by
  intro objective objective_mem
  obtain ⟨column, _, rfl⟩ := List.mem_map.mp objective_mem
  intro term term_mem
  obtain rfl := List.mem_singleton.mp term_mem
  exact Int.one_nonneg

theorem Tableau.get_scatter_nonneg {n : ℕ} {objective : Objective} (nonneg : objective.Nonnegative) (j : Fin n) :
    0 ≤ (scatter n objective).get j := by
  have picked := sum_scatter_mul objective (Pi.single j 1)
  simp only [Pi.single_apply, mul_ite, mul_one, mul_zero, Finset.sum_ite_eq', Finset.mem_univ, if_true] at picked
  rw [picked, Form.termsValue]
  apply List.sum_nonneg
  intro worth worth_mem
  obtain ⟨term, term_mem, rfl⟩ := List.mem_map.mp worth_mem
  refine mul_nonneg (by exact_mod_cast nonneg term term_mem) ?_
  apply extendByZero_nonneg
  intro k
  rw [Pi.single_apply]
  split <;> norm_num

@[simp] theorem Objective.routine_evaluateAll (objectives : List Objective) (point : Point) :
    Routine (evaluateAll objectives point) := by
  simp [evaluateAll, evaluate]

@[simp] theorem routine_isFeasible (structural : ℕ) (rows : List Row) : Routine (isFeasible structural rows) := by
  simp [isFeasible]

section Search

variable {objectives : List Objective} (nonneg : ∀ objective ∈ objectives, objective.Nonnegative)
include nonneg

theorem routine_lexmin (structural : ℕ) (rows : List Row) : Routine (lexmin structural rows objectives) := by
  simp only [lexmin, faultsIn_bind_iff, Tableau.routine_checkRows, Tableau.routine_findFeasible, true_and]
  intro _ _ found _
  cases found with
  | none => simp
  | some feasible =>
    simp only [faultsIn_bind_iff, faultsIn_pure, implies_true, and_true]
    refine faultsIn_foldlM_of_forall fun tableau objective objective_mem => ?_
    have bounded := Tableau.routine_optimize tableau (Tableau.get_scatter_nonneg (nonneg objective objective_mem))
    simp [Tableau.minimizeAndFix, bounded]

end Search

/-! ### Branching -/

namespace Problem

@[simp] theorem routine_bisectConflict (problem : Problem) (extra : List Row) (feasible infeasible : ℕ) :
    Routine (problem.bisectConflict extra feasible infeasible) := by
  fun_induction bisectConflict problem extra feasible infeasible with
  | case1 => simp
  | case2 feasible infeasible _ middle above below => simp [isFeasibleUpTo, above, below]

@[simp] theorem routine_firstConflict (problem : Problem) (extra : List Row) : Routine (problem.firstConflict extra) := by
  simp [firstConflict, isFeasibleUpTo]

@[simp] theorem routine_expand (problem : Problem) (objectives : List Objective) (rows : List Row) (point : Point)
    (incumbent : Incumbent) : Routine (problem.expand objectives rows point incumbent) := by
  simp only [expand, faultsIn_bind_iff, Objective.routine_evaluateAll, true_and, faultsIn_ite_iff, faultsIn_pure,
    implies_true, and_true]
  intro key _ _
  split <;> simp [branches, branchBound]

section Search

variable {objectives : List Objective} (nonneg : ∀ objective ∈ objectives, objective.Nonnegative)
include nonneg

theorem routine_searchNodes (problem : Problem) (limit budget : ℕ) (pending : List (List Row)) (incumbent : Incumbent) :
    Routine (problem.searchNodes objectives limit budget pending incumbent) := by
  induction budget generalizing pending incumbent with
  | zero => cases pending <;> simp [searchNodes, Fault.Routine]
  | succ budget ih =>
    cases pending with
    | nil => simp [searchNodes]
    | cons rows later =>
      simp only [searchNodes, faultsIn_bind_iff]
      refine ⟨routine_lexmin nonneg _ _, fun found _ => ?_⟩
      cases found <;> simp [ih]

theorem routine_integerLexmin (problem : Problem) (extra : List Row) (cutoff : Option (List ℚ)) (budget : ℕ) :
    Routine (problem.integerLexmin extra objectives cutoff budget) := by
  cases budget with
  | zero => simp [integerLexmin, Fault.Routine]
  | succ budget =>
    simp only [integerLexmin, faultsIn_bind_iff]
    refine ⟨routine_lexmin nonneg _ _, fun found _ => ?_⟩
    cases found <;> simp [routine_searchNodes nonneg]

end Search

end Problem

namespace Region

@[simp] theorem routine_areEqual (point : Point) (pairs : List (ℕ × ℕ)) : Routine (areEqual point pairs) := by
  induction pairs with
  | nil => simp [areEqual]
  | cons pair later ih => simp [areEqual, ih]

@[simp] theorem routine_firstTrivial (point : Point) (regions : List Region) : Routine (firstTrivial point regions) := by
  induction regions with
  | nil => simp [firstTrivial]
  | cons region later ih => simp [firstTrivial, isTrivial, ih]

@[simp] theorem routine_branches (rows : List Row) (pairs : List (ℕ × ℕ)) : Routine (branches rows pairs) := by
  induction pairs generalizing rows with
  | nil => simp [branches]
  | cons pair later ih => simp [branches, exceeds, ih]

end Region

namespace Problem

variable {objectives : List Objective} (nonneg : ∀ objective ∈ objectives, objective.Nonnegative)
include nonneg

variable {problem : Problem} (bounded : problem.Bounded) (regions : List Region) (limit : ℕ)
include bounded

/-- An exploration that is deeper than there are regions left ends: every branch settles one more region for good. -/
theorem routine_exploreRegions {settled : List Region} {depth : ℕ} (search : RegionSearch) (distinct : settled.Nodup)
    (among : settled ⊆ regions) (deep : regions.length < depth + settled.length)
    (within : ∀ row ∈ rows, row.form.Within problem.columns)
    (held : ∀ σ, (∀ row ∈ rows, row.Holds σ) → ∀ region ∈ settled, region.NonTrivial σ) :
    Routine (problem.exploreRegions objectives regions limit depth rows search) := by
  induction depth generalizing rows search settled with
  | zero => exact absurd (distinct.subperm among).length_le (by omega)
  | succ depth ih =>
    simp only [exploreRegions, faultsIn_bind_iff]
    refine ⟨routine_integerLexmin nonneg _ _ _ _, fun outcome minimized => ?_⟩
    split
    case h_1 => simp
    case h_2 point solution =>
      simp only [faultsIn_bind_iff, Region.routine_firstTrivial, true_and]
      intro trivial tested
      cases trivial with
      | none => simp
      | some region =>
        obtain ⟨solved, _⟩ := (integerLexmin_spec bounded within minimized).1 point solution
        obtain ⟨region_mem, is_trivial⟩ := (Region.firstTrivial_ok tested).1 region rfl
        have unsettled : region ∉ settled := by
          intro settled_mem
          have rows_hold := (List.forall_mem_append.mp solved.satisfies.holds).2
          obtain ⟨pair, pair_mem, different⟩ := held _ rows_hold region settled_mem
          exact different ((Region.areEqual_ok is_trivial).1 rfl pair pair_mem).2
        have pairs_inside := solved.length ▸ Region.inside_of_isTrivial is_trivial
        simp only [faultsIn_bind_iff, Region.routine_branches, true_and]
        refine fun nodes branched => faultsIn_foldlM_of_forall fun found node node_mem => ?_
        refine ih found (distinct.cons unsettled) (List.cons_subset.mpr ⟨region_mem, among⟩) (by simp; omega)
          (Region.within_of_branches pairs_inside within branched node node_mem) fun σ holds => ?_
        obtain ⟨rows_hold, differ⟩ := Region.differ_of_branches branched node node_mem σ holds
        exact List.forall_mem_cons.mpr ⟨differ, held σ rows_hold⟩

theorem routine_nonTrivialLexmin : Routine (problem.nonTrivialLexmin objectives regions limit) := by
  simp only [nonTrivialLexmin, faultsIn_bind_iff]
  refine ⟨routine_exploreRegions nonneg bounded regions limit _ List.nodup_nil (List.nil_subset regions) (by simp) (by simp)
    (by simp), fun search _ => ?_⟩
  split <;> simp

end Problem

/-! ### Integer points -/

theorem Problem.limits_ofColumns (count : ℕ) (integer : Bool) : FaultsIn (Fault.Limits count) (ofColumns count integer) := by
  simp [ofColumns, Size.make, Size.limits_reserve]

/-- Rows are added that name columns of the problem only. -/
theorem Problem.meets_addRows {allowed : Fault → Prop} {problem : Problem}
    (within : ∀ row ∈ rows, row.form.Within problem.columns) :
    Meets allowed (problem.addRows rows) fun next => next.columns = problem.columns :=
  meets_foldlM (fun grown : Problem => grown.columns = problem.columns) rfl fun _ row row_mem columns_eq =>
    FaultsIn.bind (faultsIn_require (columns_eq ▸ within row row_mem)) fun _ _ => meets_pure columns_eq

theorem Problem.limits_addColumns (problem : Problem) (count : ℕ) (integer : Bool) :
    FaultsIn (Fault.Limits count) (problem.addColumns count integer) := by
  simp [addColumns, Size.make, Size.limits_reserve]

/-- Objectives that no column lowers are minimized over the columns of the rows. -/
theorem faultsIn_lexmin {allowed : Fault → Prop} [Fault.Tolerates allowed] {structural : ℕ} {objectives : List Objective}
    (nonneg : ∀ objective ∈ objectives, objective.Nonnegative)
    (named : ∀ objective ∈ objectives, ∀ term ∈ objective, term.1 < structural)
    (within : ∀ row ∈ rows, row.form.Within structural) : FaultsIn allowed (lexmin structural rows objectives) := by
  have inside : ∀ row ∈ rows, ∀ term ∈ row.form.terms, term.1 ≤ Tableau.width structural rows :=
    fun row row_mem term term_mem => (lt_width (within row row_mem term term_mem)).le
  have checked : FaultsIn allowed (Tableau.checkRows structural rows) :=
    faultsIn_forM fun row row_mem => by simp [faultsIn_require (inside row row_mem)]
  cases laid_out : Tableau.checkRows structural rows with
  | error fault =>
    rw [lexmin, laid_out]
    exact faultsIn_error_iff.mpr (checked fault laid_out)
  | ok =>
    rcases lexmin_cases within laid_out objectives with ⟨answer, _⟩ | ⟨_, _, _, answer, _⟩ | ⟨unbounded, _⟩ | ⟨_, outside⟩
    · simp [answer]
    · simp [answer]
    · exact (routine_lexmin nonneg structural rows _ unbounded).elim
    · exact absurd (fun objective objective_mem term term_mem => lt_width (named objective objective_mem term term_mem)) outside

namespace Lattice

variable {allowed : Fault → Prop} [Fault.Tolerates allowed]

@[simp] theorem faultsIn_splitRow (row : Row) : FaultsIn allowed (splitRow row) := by
  simp [splitRow]

theorem faultsIn_searchNodes {problem : Problem} {budget : ℕ} {pending : List (List Row)} (opens : Opens problem count pending) :
    FaultsIn allowed (searchNodes problem budget pending) := by
  induction budget generalizing pending with
  | zero => cases pending <;> simp [searchNodes]
  | succ budget ih =>
    cases pending with
    | nil => simp [searchNodes]
    | cons rows later =>
      simp only [searchNodes, faultsIn_bind_iff]
      refine ⟨faultsIn_lexmin (by simp) (by simp) opens.all_within, fun found relaxed => ?_⟩
      cases found with
      | none => exact ih opens.later
      | some point =>
        have length_eq := (satisfies_of_lexmin opens.all_within relaxed).1.trans opens.columns
        dsimp only
        split
        case h_1 => simp
        case h_2 value index fractional =>
          have inside := (of_find?_eq_some length_eq fractional).1
          rw [faultsIn_bind_iff]
          exact ⟨by simp [branches, branchBound], fun children branched => ih (opens.children inside branched)⟩

theorem limits_splitProblem (within : ∀ row ∈ rows, row.form.Within count) :
    FaultsIn (Fault.Limits (2 * count)) (splitProblem count rows) := by
  simp only [splitProblem, faultsIn_bind_iff, Size.faultsIn_checked, Size.checked_ok_iff, true_and]
  rintro _ ⟨_, rfl⟩
  refine ⟨Problem.limits_ofColumns _ _, fun empty made => ?_⟩
  obtain rfl := Problem.ofColumns_ok made
  have each : ∀ problem : Problem, ∀ row ∈ rows, problem.columns = 2 * count → Meets (Fault.Limits (2 * count))
      (splitRow row >>= problem.addRow) fun next => next.columns = 2 * count := by
    intro problem row row_mem columns_eq
    refine (faultsIn_splitRow row).bind fun pieces split => FaultsIn.bind (faultsIn_require ?_) fun _ _ => meets_pure columns_eq
    rw [columns_eq]
    exact within_splitRow split (within row row_mem)
  exact (meets_foldlM (fun problem : Problem => problem.columns = 2 * count) (by simp [Problem.columns]) each).faults

end Lattice

theorem faultsIn_integerFeasible {allowed : Fault → Prop} [Fault.Tolerates allowed]
    (split : FaultsIn allowed (Lattice.splitProblem count rows)) (limit : ℕ) :
    FaultsIn allowed (integerFeasible count rows limit) := by
  refine faultsIn_bind_iff.mpr ⟨split, fun problem split_ok => ?_⟩
  obtain ⟨columns_eq, bounded, _⟩ := Lattice.splitProblem_spec split_ok
  exact Lattice.faultsIn_searchNodes ⟨columns_eq, bounded, by simp⟩

@[simp] theorem routine_integerFeasible (count : ℕ) (rows : List Row) (limit : ℕ) :
    Routine (integerFeasible count rows limit) :=
  faultsIn_integerFeasible (by simp [Lattice.splitProblem]) limit

end Linear

end AffineSchedule
