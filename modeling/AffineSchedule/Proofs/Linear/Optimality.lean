import AffineSchedule.Proofs.Linear.SmallestIndex

namespace AffineSchedule

open Checked
open List hiding Vector

namespace Linear

/-! ### One objective after the other -/

section Optimal

variable {α β ι : Type*} {value : ι → α → ℚ} {points : Set α} {objectives : List ι} {x : α}

/-- The points at which a value is least. -/
def least (value : α → ℚ) (points : Set α) : Set α := {x | x ∈ points ∧ ∀ y ∈ points, value x ≤ value y}

/-- The points that are optimal for the objectives in turn, each among those optimal for the objectives before it. -/
def optimal (value : ι → α → ℚ) (points : Set α) (objectives : List ι) : Set α :=
  objectives.foldl (fun face objective => least (value objective) face) points

/-- The value goes below every bound. -/
def UnboundedBelow (value : α → ℚ) (points : Set α) : Prop := ∀ bound, ∃ x ∈ points, value x < bound

theorem optimal_subset (value : ι → α → ℚ) (points : Set α) (objectives : List ι) :
    optimal value points objectives ⊆ points := by
  induction objectives generalizing points with
  | nil => exact subset_rfl
  | cons objective later ih => exact (ih _).trans fun _ is_least => is_least.1

/-- An optimal point has the lexicographically least values. -/
theorem map_le_map_of_mem_optimal (is_optimal : x ∈ optimal value points objectives) {y : α} (y_mem : y ∈ points) :
    objectives.map (value · x) ≤ objectives.map (value · y) := by
  induction objectives generalizing points with
  | nil => exact le_rfl
  | cons objective later ih =>
    obtain ⟨_, x_least⟩ : x ∈ least (value objective) points := optimal_subset value _ later is_optimal
    rw [map_cons, map_cons]
    rcases (x_least y y_mem).lt_or_eq with less | equal
    · exact le_of_lt (List.Lex.rel less)
    · rw [equal]
      rcases (ih is_optimal ⟨y_mem, fun other other_mem => equal ▸ x_least other other_mem⟩).lt_or_eq with less | same
      · exact le_of_lt (List.Lex.cons less)
      · rw [same]

theorem not_unboundedBelow_of_mem_optimal {earlier later : List ι} {objective : ι}
    (is_optimal : x ∈ optimal value points (earlier ++ objective :: later)) :
    ¬ UnboundedBelow (value objective) (optimal value points earlier) := by
  intro unbounded
  rw [optimal, foldl_append, foldl_cons] at is_optimal
  obtain ⟨_, x_least⟩ : x ∈ least (value objective) (optimal value points earlier) :=
    optimal_subset value _ later is_optimal
  obtain ⟨y, y_mem, below⟩ := unbounded (value objective x)
  exact absurd below (not_lt.mpr (x_least y y_mem))

theorem mapsTo_optimal {otherValue : ι → β → ℚ} {others : Set β} {there : α → β} {back : β → α}
    (there_mem : ∀ x ∈ points, there x ∈ others) (back_mem : ∀ y ∈ others, back y ∈ points)
    (there_value : ∀ objective ∈ objectives, ∀ x ∈ points, otherValue objective (there x) = value objective x)
    (back_value : ∀ objective ∈ objectives, ∀ y ∈ others, value objective (back y) = otherValue objective y) :
    (∀ x ∈ optimal value points objectives, there x ∈ optimal otherValue others objectives)
      ∧ ∀ y ∈ optimal otherValue others objectives, back y ∈ optimal value points objectives := by
  induction objectives generalizing points others with
  | nil => exact ⟨there_mem, back_mem⟩
  | cons objective later ih =>
    obtain ⟨there_first, there_later⟩ := forall_mem_cons.mp there_value
    obtain ⟨back_first, back_later⟩ := forall_mem_cons.mp back_value
    refine ih ?_ ?_ (fun other other_mem x is_least => there_later other other_mem x is_least.1)
      fun other other_mem y is_least => back_later other other_mem y is_least.1
    · intro x ⟨x_mem, x_least⟩
      refine ⟨there_mem x x_mem, fun y y_mem => ?_⟩
      rw [there_first x x_mem, ← back_first y y_mem]
      exact x_least _ (back_mem y y_mem)
    · intro y ⟨y_mem, y_least⟩
      refine ⟨back_mem y y_mem, fun x x_mem => ?_⟩
      rw [back_first y y_mem, ← there_first x x_mem]
      exact y_least _ (there_mem x x_mem)

end Optimal

namespace Tableau

variable {m n : ℕ} {tableau origin : Tableau m n} {cost : Vector ℚ n} {face : Set (Fin n → ℚ)}

/-! ### Faces -/

/-- The non-negative solutions without artificial columns. -/
def solutions (tableau : Tableau m n) : Set (Fin n → ℚ) :=
  {z | tableau.Solves z ∧ (∀ j, 0 ≤ z j) ∧ ∀ j, tableau.firstArtificial ≤ j.val → z j = 0}

/-- The value of an objective at the columns of a tableau. -/
def worth (objective : Objective) (z : Fin n → ℚ) : ℚ := ∑ j, (scatter n objective).get j * z j

/-- The banned columns of a settled tableau cut a set out of the solutions. None of them is basic, artificial columns
    apart. -/
structure Narrowed (tableau origin : Tableau m n) (face : Set (Fin n → ℚ)) : Prop where
  settled : tableau.Settled
  represents : tableau.Represents origin
  artificial : ∀ j, tableau.banned.get j = true → tableau.isBasic.get j = true → tableau.firstArtificial ≤ j.val
  mem_iff : ∀ z, z ∈ face ↔ z ∈ origin.solutions ∧ ∀ j, tableau.banned.get j = true → z j = 0

namespace Narrowed

section

variable (narrowed : tableau.Narrowed origin face)
include narrowed

theorem solves {z : Fin n → ℚ} (z_mem : z ∈ face) : tableau.Solves z :=
  (narrowed.represents.solves_iff z).mpr ((narrowed.mem_iff z).mp z_mem).1.1

theorem nonneg {z : Fin n → ℚ} (z_mem : z ∈ face) (j : Fin n) : 0 ≤ z j :=
  ((narrowed.mem_iff z).mp z_mem).1.2.1 j

theorem mem_of_solves {z : Fin n → ℚ} (solves : tableau.Solves z)
    (nonneg : ∀ j, 0 ≤ z j) (banned : ∀ j, tableau.banned.get j = true → z j = 0) : z ∈ face := by
  refine (narrowed.mem_iff z).mpr ⟨⟨(narrowed.represents.solves_iff z).mp solves, nonneg, fun j artificial => ?_⟩, banned⟩
  exact banned j (narrowed.settled.banned j (narrowed.represents.firstArtificial.le.trans artificial))

theorem pivot {r : Fin m} {c : Fin n} (enters : tableau.entering cost = some c)
    (leaves : tableau.leaving c = some r) : (tableau.pivot r c).Narrowed origin face := by
  have allowed := (entering_eq_some enters).1
  refine ⟨narrowed.settled.pivot allowed, narrowed.represents.pivot leaves, fun j banned basic => ?_, narrowed.mem_iff⟩
  rcases (isBasic_pivot_iff ..).mp basic with rfl | ⟨_, was_basic⟩
  · rw [pivot_banned, allowed] at banned
    cases banned
  · exact narrowed.artificial j banned was_basic

theorem basicSolution_banned {j : Fin n} (banned : tableau.banned.get j = true) :
    tableau.basicSolution j = 0 := by
  cases basic : tableau.isBasic.get j with
  | true => exact narrowed.settled.basicSolution_artificial (narrowed.artificial j banned basic)
  | false => exact narrowed.represents.canonical.basicSolution_nonbasic basic

theorem basicSolution_mem : tableau.basicSolution ∈ face :=
  narrowed.mem_of_solves narrowed.represents.canonical.solves_basicSolution
    (basicSolution_nonneg narrowed.represents.nonneg) fun _ => narrowed.basicSolution_banned

end

/-! ### Unbounded objectives -/

section

variable {c : Fin n} (narrowed : tableau.Narrowed origin face) (enters : tableau.entering cost = some c)
  (none_leaves : tableau.leaving c = none)
include narrowed enters none_leaves

theorem ray_mem {growth : ℚ} (growth_nonneg : 0 ≤ growth) : tableau.ray c growth ∈ face := by
  obtain ⟨allowed, nonbasic, _⟩ := entering_eq_some enters
  have canonical := narrowed.represents.canonical
  have structural := narrowed.settled.structural allowed
  have grows : ∀ j, 0 ≤ tableau.direction c j := by
    intro j
    cases basic : tableau.isBasic.get j with
    | false =>
      rw [direction_of_nonbasic canonical basic]
      split <;> norm_num
    | true =>
      obtain ⟨i, rfl⟩ := (canonical.marks j).mp basic
      rw [direction_basicColumn canonical nonbasic, neg_nonneg]
      exact not_lt.mp ((tableau.best_leaving c).none_positive none_leaves i (mem_finRange i))
  have stays : ∀ j, tableau.banned.get j = true → tableau.direction c j = 0 := by
    intro j banned
    cases basic : tableau.isBasic.get j with
    | false =>
      rw [direction_of_nonbasic canonical basic, if_neg]
      rintro rfl
      rw [banned] at allowed
      cases allowed
    | true =>
      obtain ⟨i, rfl⟩ := (canonical.marks j).mp basic
      rw [direction_basicColumn canonical nonbasic,
        narrowed.settled.entry_eq_zero i (narrowed.artificial _ banned basic) c structural, neg_zero]
  refine narrowed.mem_of_solves (canonical.solves_ray c growth) (fun j => ?_) fun j banned => ?_
  · exact add_nonneg (basicSolution_nonneg narrowed.represents.nonneg j) (mul_nonneg growth_nonneg (grows j))
  · rw [ray, narrowed.basicSolution_banned banned, stays j banned, mul_zero, add_zero]

theorem unboundedBelow : UnboundedBelow (fun z => ∑ j, cost.get j * z j) face := by
  intro bound
  have lowers := (entering_eq_some enters).2.2
  -- far enough for the cost to pass the bound by one
  let growth := max 0 ((bound - 1 - tableau.basicCost cost) / (tableau.reducedCosts cost).get c)
  refine ⟨_, narrowed.ray_mem enters none_leaves (le_max_left 0 _ : 0 ≤ growth), ?_⟩
  have far : growth * (tableau.reducedCosts cost).get c ≤ bound - 1 - tableau.basicCost cost := by
    rw [← div_le_iff_of_neg lowers]
    exact le_max_right _ _
  change ∑ j, cost.get j * tableau.ray c growth j < bound
  rw [cost_ray]
  linarith

end

/-! ### Fixing an objective -/

section

variable (narrowed : tableau.Narrowed origin face)
include narrowed

/-- At an optimum the reduced costs of the face's points count against them. -/
theorem reducedCost_mul_nonneg (none_enters : tableau.entering cost = none)
    {z : Fin n → ℚ} (z_mem : z ∈ face) (j : Fin n) : 0 ≤ (tableau.reducedCosts cost).get j * z j := by
  exact narrowed.represents.canonical.reducedCost_mul_nonneg none_enters (narrowed.nonneg z_mem) ((narrowed.mem_iff z).mp z_mem).2 j

/-- A point of the face is optimal if the reduced costs do not count against it at all. -/
theorem mem_least_iff (none_enters : tableau.entering cost = none) {z : Fin n → ℚ} (z_mem : z ∈ face) :
    z ∈ least (fun z => ∑ j, cost.get j * z j) face ↔ ∀ j, (tableau.reducedCosts cost).get j * z j = 0 := by
  have cost_eq : ∀ y ∈ face, ∑ j, cost.get j * y j = tableau.basicCost cost + ∑ j, (tableau.reducedCosts cost).get j * y j := by
    intro y y_mem
    rw [(narrowed.solves y_mem).cost_eq cost, basicCost_eq]
  have counts : ∀ y ∈ face, 0 ≤ ∑ j, (tableau.reducedCosts cost).get j * y j := fun y y_mem =>
    Finset.sum_nonneg fun j _ => narrowed.reducedCost_mul_nonneg none_enters y_mem j
  have vanishes_iff : ∑ j, (tableau.reducedCosts cost).get j * z j = 0 ↔ ∀ j, (tableau.reducedCosts cost).get j * z j = 0 := by
    rw [Finset.sum_eq_zero_iff_of_nonneg fun j _ => narrowed.reducedCost_mul_nonneg none_enters z_mem j]
    simp
  rw [← vanishes_iff]
  constructor
  · intro ⟨_, z_least⟩
    have at_basic : ∑ j, cost.get j * z j ≤ tableau.basicCost cost := z_least _ narrowed.basicSolution_mem
    linarith [cost_eq z z_mem, counts z z_mem]
  · intro vanishes
    refine ⟨z_mem, fun y y_mem => ?_⟩
    linarith [cost_eq z z_mem, cost_eq y y_mem, counts y y_mem]

/-- Banning the columns that raise the cost leaves exactly the optimal points. -/
theorem fix (none_enters : tableau.entering cost = none) :
    (tableau.fix cost).Narrowed origin (least (fun z => ∑ j, cost.get j * z j) face) := by
  have banned_iff : ∀ j, (tableau.fix cost).banned.get j = true ↔ tableau.banned.get j = true
      ∨ tableau.isBasic.get j = false ∧ 0 < (tableau.reducedCosts cost).get j := by
    intro j
    simp [Tableau.fix, Vector.get_eq_getElem]
  refine ⟨⟨narrowed.settled.side_eq_zero, narrowed.settled.entry_eq_zero, fun j artificial => ?_⟩,
    narrowed.represents.ban _, fun j banned basic => ?_, fun z => ?_⟩
  · exact (banned_iff j).mpr (Or.inl (narrowed.settled.banned j artificial))
  · rcases (banned_iff j).mp banned with was_banned | ⟨nonbasic, _⟩
    · exact narrowed.artificial j was_banned basic
    · rw [show tableau.isBasic.get j = true from basic] at nonbasic
      cases nonbasic
  · constructor
    · intro z_least
      obtain ⟨solution, unbanned⟩ := (narrowed.mem_iff z).mp z_least.1
      refine ⟨solution, fun j banned => ?_⟩
      rcases (banned_iff j).mp banned with was_banned | ⟨_, raises⟩
      · exact unbanned j was_banned
      · have vanishes := (narrowed.mem_least_iff none_enters z_least.1).mp z_least j
        exact (mul_eq_zero.mp vanishes).resolve_left raises.ne'
    · intro ⟨solution, unbanned⟩
      have z_mem : z ∈ face := (narrowed.mem_iff z).mpr
        ⟨solution, fun j was_banned => unbanned j ((banned_iff j).mpr (Or.inl was_banned))⟩
      refine (narrowed.mem_least_iff none_enters z_mem).mpr fun j => ?_
      rcases (narrowed.reducedCost_mul_nonneg none_enters z_mem j).eq_or_lt with vanishes | positive
      · exact vanishes.symm
      -- a column that counts is not basic and raises the cost, so it has just been banned
      have raises := pos_of_mul_pos_left positive (narrowed.nonneg z_mem j)
      have nonbasic : tableau.isBasic.get j = false := by
        rw [← Bool.not_eq_true, narrowed.represents.canonical.marks]
        rintro ⟨k, rfl⟩
        rw [narrowed.represents.canonical.reducedCost_basic cost k] at raises
        exact lt_irrefl 0 raises
      rw [unbanned j ((banned_iff j).mpr (Or.inr ⟨nonbasic, raises⟩)), mul_zero]

theorem minimizeAndFix_cases (objective : Objective) :
    (∃ final, tableau.minimizeAndFix objective = .ok final ∧ final.Narrowed origin (least (worth objective) face))
      ∨ (tableau.minimizeAndFix objective = .error (.solver .unbounded) ∧ UnboundedBelow (worth objective) face)
      ∨ tableau.minimizeAndFix objective = .error .precondition ∧ ¬ ∀ term ∈ objective, term.1 < n := by
  by_cases inside : ∀ term ∈ objective, term.1 < n
  swap
  · refine Or.inr (Or.inr ⟨?_, inside⟩)
    simp only [Tableau.minimizeAndFix, require, if_neg inside]
    rfl
  obtain ⟨last, last_narrowed, ended⟩ := narrowed.represents.optimize_cases (scatter n objective)
    (·.Narrowed origin face) (fun _ _ _ kept enters leaves => kept.pivot enters leaves) narrowed
  have unfolded : tableau.minimizeAndFix objective
      = (tableau.optimize (scatter n objective)).map (Tableau.fix · (scatter n objective)) := by
    simp only [Tableau.minimizeAndFix, require, if_pos inside]
    rfl
  rw [unfolded]
  rcases ended with ⟨none_enters, optimized⟩ | ⟨⟨c, enters, none_leaves⟩, optimized⟩
  · exact Or.inl ⟨_, by rw [optimized]; rfl, last_narrowed.fix none_enters⟩
  · exact Or.inr (Or.inl ⟨by rw [optimized]; rfl, last_narrowed.unboundedBelow enters none_leaves⟩)

theorem foldlM_minimizeAndFix_cases (objectives : List Objective) :
    (∃ final, objectives.foldlM Tableau.minimizeAndFix tableau = .ok final
        ∧ final.Narrowed origin (optimal worth face objectives))
      ∨ (objectives.foldlM Tableau.minimizeAndFix tableau = .error (.solver .unbounded)
        ∧ ∃ earlier objective later, objectives = earlier ++ objective :: later
          ∧ UnboundedBelow (worth objective) (optimal worth face earlier))
      ∨ objectives.foldlM Tableau.minimizeAndFix tableau = .error .precondition
        ∧ ¬ ∀ objective ∈ objectives, ∀ term ∈ objective, term.1 < n := by
  induction objectives generalizing tableau face with
  | nil => exact Or.inl ⟨tableau, rfl, narrowed⟩
  | cons objective later ih =>
    rw [foldlM_cons]
    rcases narrowed.minimizeAndFix_cases objective with ⟨next, minimized, next_narrowed⟩ | ⟨refused, unbounded⟩ |
      ⟨refused, outside⟩
    · rw [minimized]
      rcases ih next_narrowed with ended | ⟨refused, earlier, other, last, rfl, unbounded⟩ | ⟨refused, outside⟩
      · exact Or.inl ended
      · exact Or.inr (Or.inl ⟨refused, objective :: earlier, other, last, rfl, unbounded⟩)
      · exact Or.inr (Or.inr ⟨refused, fun inside => outside (forall_mem_cons.mp inside).2⟩)
    · rw [refused]
      exact Or.inr (Or.inl ⟨rfl, [], objective, later, rfl, unbounded⟩)
    · rw [refused]
      exact Or.inr (Or.inr ⟨rfl, fun inside => outside (forall_mem_cons.mp inside).1⟩)

end

end Narrowed

/-- Phase one refutes the rows or ends with a tableau of all solutions. -/
theorem findFeasible_cases (represents : tableau.Represents tableau) (none_banned : ∀ j, tableau.banned.get j = false) :
    (tableau.findFeasible = .ok none ∧ tableau.solutions = ∅)
      ∨ ∃ feasible, tableau.findFeasible = .ok (some feasible) ∧ feasible.Narrowed tableau tableau.solutions := by
  have cost_nonneg : ∀ j, 0 ≤ tableau.artificialCost.get j := by
    intro j
    rw [get_artificialCost]
    split <;> norm_num
  obtain ⟨last, ⟨last_represents, banned_eq⟩, ended⟩ := represents.optimize_cases tableau.artificialCost
    (fun reached => reached.Represents tableau ∧ reached.banned = tableau.banned)
    (fun _ _ _ kept _ leaves => ⟨kept.1.pivot leaves, kept.2⟩) ⟨represents, rfl⟩
  rcases ended with ⟨none_enters, optimized⟩ | ⟨⟨c, enters, none_leaves⟩, _⟩
  swap
  · exact absurd none_leaves (leaving_ne_none cost_nonneg enters)
  cases residue : last.hasResidue with
  | true =>
    refine Or.inl ⟨?_, Set.eq_empty_iff_forall_notMem.mpr ?_⟩
    · rw [findFeasible, optimized]
      exact if_pos residue
    · rintro z ⟨solves, nonneg, no_artificial⟩
      exact not_solves_of_hasResidue last_represents none_enters residue (banned_eq ▸ none_banned) nonneg no_artificial solves
  | false =>
    have answer : tableau.findFeasible = .ok (some ((List.finRange m).foldl driveOut last).banArtificial) := by
      rw [findFeasible, optimized]
      exact if_neg (by simp [residue])
    obtain ⟨settled, feasible_represents⟩ := last_represents.settle residue
    have artificial_of_banned : ∀ j,
        (((List.finRange m).foldl driveOut last).banArtificial).banned.get j = true → tableau.firstArtificial ≤ j.val := by
      intro j banned
      have none_banned_here : last.banned[j.val] = false := banned_eq ▸ none_banned j
      rw [banArtificial, Vector.get_ofFn, Fin.getElem_fin, foldl_driveOut_banned, none_banned_here, Bool.false_or,
        decide_eq_true_eq] at banned
      exact feasible_represents.firstArtificial.ge.trans banned
    refine Or.inr ⟨_, answer, settled, feasible_represents, fun j banned _ => ?_, fun z => ?_⟩
    · exact feasible_represents.firstArtificial.le.trans (artificial_of_banned j banned)
    · exact ⟨fun solution => ⟨solution, fun j banned => solution.2.2 j (artificial_of_banned j banned)⟩, And.left⟩

end Tableau

/-! ### Lexicographic minimization -/

section Lexmin

open Tableau

variable {structural : ℕ} {rows : List Row} {objectives : List Objective} {objective : Objective} {point : Point}

/-- The structural columns of a tableau as an assignment. -/
def structuralPart (structural : ℕ) {n : ℕ} (z : Fin n → ℚ) : Assignment :=
  fun column => if column < structural then extendByZero z column else 0

theorem structuralPart_of_lt {n : ℕ} (z : Fin n → ℚ) {column : ℕ} (inside : column < structural) :
    structuralPart structural z column = extendByZero z column := if_pos inside

theorem lt_width {column : ℕ} (inside : column < structural) : column < width structural rows := by
  unfold width
  omega

theorem termsValue_structuralPart (inside : ∀ term ∈ objective, term.1 < structural) {n : ℕ} (z : Fin n → ℚ) :
    Form.termsValue objective (structuralPart structural z) = worth objective z := by
  rw [worth, sum_scatter_mul]
  exact Form.termsValue_congr inside fun column column_inside => structuralPart_of_lt z column_inside

theorem worth_startColumns (inside : ∀ term ∈ objective, term.1 < structural) (σ : Assignment) :
    worth objective (startColumns structural rows σ) = Form.termsValue objective σ := by
  rw [worth, sum_scatter_mul]
  refine Form.termsValue_congr inside fun column column_inside => ?_
  rw [extendByZero_of_lt _ (lt_width column_inside), startColumns, if_pos column_inside]

/-- The rows of machine integers can be laid out, unless a constant cannot be negated. -/
theorem checkRows_ok (within : ∀ row ∈ rows, row.form.Within structural)
    (constants : ∀ row ∈ rows, Word.Fits row.form.constant ∧ row.form.constant ≠ Word.least) :
    checkRows structural rows = .ok () := by
  refine forM_ok.mpr fun row row_mem => ?_
  have inside : ∀ term ∈ row.form.terms, term.1 ≤ width structural rows :=
    fun term term_mem => (lt_width (within row row_mem term term_mem)).le
  have fits : Word.Fits (-row.form.constant) := by
    obtain ⟨⟨least_le, le_greatest⟩, not_least⟩ := constants row row_mem
    unfold Word.least at least_le not_least
    unfold Word.greatest at le_greatest
    unfold Word.Fits Word.least Word.greatest
    omega
  simp only [bind_ok, require_ok]
  exact ⟨(), inside, _, Word.neg_ok.mpr ⟨fits, rfl⟩, rfl⟩

variable (within : ∀ row ∈ rows, row.form.Within structural)
include within

theorem startColumns_mem {σ : Assignment} (satisfied : Satisfies σ rows) :
    startColumns structural rows σ ∈ (start structural rows).solutions := by
  refine ⟨start_solves_of_satisfies within satisfied, startColumns_nonneg satisfied, fun j artificial => ?_⟩
  have bound : structural + slackCount rows ≤ j.val := artificial
  rw [startColumns, if_neg (by omega), if_neg (by omega)]

theorem satisfies_structuralPart {z : Fin (width structural rows) → ℚ} (solution : z ∈ (start structural rows).solutions) :
    Satisfies (structuralPart structural z) rows := by
  obtain ⟨solves, nonneg, no_artificial⟩ := solution
  have satisfied := satisfies_of_start_solves within solves nonneg no_artificial
  refine ⟨fun column => ?_, fun row row_mem => ?_⟩
  · unfold structuralPart
    split
    · exact satisfied.nonneg column
    · exact le_rfl
  · rw [Row.Holds, Form.value_congr (within row row_mem) fun column inside => structuralPart_of_lt z inside]
    exact satisfied.holds row row_mem

/-- What a lexicographic minimization of rows that can be laid out answers. -/
theorem lexmin_cases (laid_out : checkRows structural rows = .ok ()) (objectives : List Objective) :
    (lexmin structural rows objectives = .ok none ∧ (start structural rows).solutions = ∅)
      ∨ (∃ z ∈ optimal worth (start structural rows).solutions objectives, ∃ point : Point,
          lexmin structural rows objectives = .ok (some point) ∧ point.length = structural
            ∧ Point.assignment point = structuralPart structural z)
      ∨ (lexmin structural rows objectives = .error (.solver .unbounded) ∧ (start structural rows).solutions.Nonempty
        ∧ ∃ earlier objective later, objectives = earlier ++ objective :: later
          ∧ UnboundedBelow (worth objective) (optimal worth (start structural rows).solutions earlier))
      ∨ lexmin structural rows objectives = .error .precondition
        ∧ ¬ ∀ objective ∈ objectives, ∀ term ∈ objective, term.1 < width structural rows := by
  rcases findFeasible_cases (start_represents within) start_banned with ⟨answer, empty⟩ | ⟨feasible, answer, narrowed⟩
  · exact Or.inl ⟨by rw [lexmin, laid_out, answer]; rfl, empty⟩
  have unfolded : lexmin structural rows objectives
      = (objectives.foldlM minimizeAndFix feasible).map fun final => some (final.solution structural) := by
    rw [lexmin, laid_out, answer]
    rfl
  rw [unfolded]
  rcases narrowed.foldlM_minimizeAndFix_cases objectives with ⟨final, minimized, final_narrowed⟩ | ⟨refused, unbounded⟩ |
    ⟨refused, outside⟩
  · refine Or.inr (Or.inl ⟨_, final_narrowed.basicSolution_mem, final.solution structural, by rw [minimized]; rfl,
      by simp [solution], funext fun column => ?_⟩)
    by_cases inside : column < structural
    · rw [structuralPart_of_lt _ inside, extendByZero_of_lt _ (lt_width inside),
        ← final_narrowed.represents.canonical.value_eq_basicSolution]
      simp [Point.assignment, solution, getD_eq_getElem?_getD, inside]
    · simp [structuralPart, Point.assignment, solution, getD_eq_getElem?_getD, inside]
  · exact Or.inr (Or.inr (Or.inl ⟨by rw [refused]; rfl, ⟨_, narrowed.basicSolution_mem⟩, unbounded⟩))
  · exact Or.inr (Or.inr (Or.inr ⟨by rw [refused]; rfl, outside⟩))

/-- The point of a lexicographic minimization is read off an optimal solution. -/
theorem exists_optimal_of_lexmin (found : lexmin structural rows objectives = .ok (some point)) :
    point.length = structural ∧ ∃ z ∈ optimal worth (start structural rows).solutions objectives,
      Point.assignment point = structuralPart structural z := by
  obtain ⟨_, laid_out, _⟩ := bind_ok.mp found
  rcases lexmin_cases within laid_out objectives with ⟨refused, _⟩ | ⟨z, z_mem, same, answer, length, read_off⟩ |
    ⟨refused, _⟩ | ⟨refused, _⟩
  · cases found.symm.trans refused
  · cases found.symm.trans answer
    exact ⟨length, z, z_mem, read_off⟩
  · cases found.symm.trans refused
  · cases found.symm.trans refused

/-- The point of a lexicographic minimization has the structural columns, and satisfies the rows. -/
theorem satisfies_of_lexmin (found : lexmin structural rows objectives = .ok (some point)) :
    point.length = structural ∧ Satisfies (Point.assignment point) rows := by
  obtain ⟨length, z, z_mem, read_off⟩ := exists_optimal_of_lexmin within found
  exact ⟨length, read_off ▸ satisfies_structuralPart within (optimal_subset _ _ _ z_mem)⟩

/-- Without an answer, no assignment satisfies the rows. -/
theorem not_satisfies_of_lexmin (refused : lexmin structural rows objectives = .ok none) (σ : Assignment) :
    ¬ Satisfies σ rows := by
  intro satisfied
  obtain ⟨_, laid_out, _⟩ := bind_ok.mp refused
  rcases lexmin_cases within laid_out objectives with ⟨_, empty⟩ | ⟨_, _, _, found, _⟩ | ⟨faulted, _⟩ | ⟨faulted, _⟩
  · exact Set.notMem_empty _ (empty ▸ startColumns_mem within satisfied)
  · cases refused.symm.trans found
  · cases refused.symm.trans faulted
  · cases refused.symm.trans faulted

/-- The feasibility of rows that can be laid out is decided. -/
theorem isFeasible_outcome (laid_out : checkRows structural rows = .ok ()) :
    (isFeasible structural rows = .ok false ∧ ¬ ∃ σ, Satisfies σ rows)
      ∨ isFeasible structural rows = .ok true ∧ ∃ σ, Satisfies σ rows := by
  rw [isFeasible, laid_out]
  rcases findFeasible_cases (start_represents within) start_banned with ⟨answer, empty⟩ | ⟨feasible, answer, narrowed⟩
  · refine Or.inl ⟨by rw [answer]; rfl, fun ⟨σ, satisfied⟩ => ?_⟩
    exact Set.notMem_empty _ (empty ▸ startColumns_mem within satisfied)
  · exact Or.inr ⟨by rw [answer]; rfl, _, satisfies_structuralPart within narrowed.basicSolution_mem⟩

section Inside

variable (inside : ∀ objective ∈ objectives, ∀ term ∈ objective, term.1 < structural)
include inside

/-- Solutions of the first tableau and assignments that satisfy the rows are optimal together. -/
theorem mapsTo_optimal_start : (∀ σ ∈ optimal Form.termsValue {σ | Satisfies σ rows} objectives,
        startColumns structural rows σ ∈ optimal worth (start structural rows).solutions objectives)
      ∧ ∀ z ∈ optimal worth (start structural rows).solutions objectives,
        structuralPart structural z ∈ optimal Form.termsValue {σ | Satisfies σ rows} objectives :=
  mapsTo_optimal (fun _ satisfied => startColumns_mem within satisfied)
    (fun _ solution => satisfies_structuralPart within solution)
    (fun objective objective_mem σ _ => worth_startColumns (inside objective objective_mem) σ)
    fun objective objective_mem z _ => termsValue_structuralPart (inside objective objective_mem) z

/-- The point of a lexicographic minimization is optimal for the objectives in turn. -/
theorem optimal_of_lexmin (found : lexmin structural rows objectives = .ok (some point)) :
    Point.assignment point ∈ optimal Form.termsValue {σ | Satisfies σ rows} objectives := by
  obtain ⟨_, z, z_mem, read_off⟩ := exists_optimal_of_lexmin within found
  exact read_off ▸ (mapsTo_optimal_start within inside).2 z z_mem

variable (constants : ∀ row ∈ rows, Word.Fits row.form.constant ∧ row.form.constant ≠ Word.least)
include constants

theorem lexmin_outcome : (lexmin structural rows objectives = .ok none ∧ ¬ ∃ σ, Satisfies σ rows)
      ∨ (∃ point : Point, lexmin structural rows objectives = .ok (some point) ∧ point.length = structural
        ∧ Point.assignment point ∈ optimal Form.termsValue {σ | Satisfies σ rows} objectives)
      ∨ lexmin structural rows objectives = .error (.solver .unbounded) ∧ (∃ σ, Satisfies σ rows)
        ∧ ∃ earlier objective later, objectives = earlier ++ objective :: later
          ∧ UnboundedBelow (Form.termsValue objective) (optimal Form.termsValue {σ | Satisfies σ rows} earlier) := by
  have laid_out := checkRows_ok within constants
  rcases lexmin_cases within laid_out objectives with ⟨refused, empty⟩ | ⟨z, z_mem, point, found, length, read_off⟩ |
    ⟨faulted, ⟨z, z_mem⟩, earlier, objective, later, split, unbounded⟩ | ⟨_, outside⟩
  · refine Or.inl ⟨refused, fun ⟨σ, satisfied⟩ => ?_⟩
    exact not_satisfies_of_lexmin within refused σ satisfied
  · exact Or.inr (Or.inl ⟨point, found, length, read_off ▸ (mapsTo_optimal_start within inside).2 z z_mem⟩)
  · refine Or.inr (Or.inr ⟨faulted, ⟨_, satisfies_structuralPart within z_mem⟩, earlier, objective, later, split,
      fun bound => ?_⟩)
    rw [split] at inside
    obtain ⟨earlier_inside, rest_inside⟩ := forall_mem_append.mp inside
    obtain ⟨y, y_mem, below⟩ := unbounded bound
    refine ⟨_, (mapsTo_optimal_start within earlier_inside).2 y y_mem, ?_⟩
    rwa [termsValue_structuralPart (rest_inside objective mem_cons_self)]
  · exact absurd (fun objective objective_mem term term_mem => lt_width (inside objective objective_mem term term_mem)) outside

/-- Lexicographic minimization is exact. It always ends. It has no answer exactly if no non-negative assignment satisfies
    the rows; an answer satisfies them and has the lexicographically least objective values; and it is refused exactly if
    some objective is unbounded below on the assignments optimal for the objectives before it. The feasibility check
    decides whether some assignment satisfies the rows. -/
theorem lexmin_exact : (lexmin structural rows objectives = .ok none ↔ ¬ ∃ σ, Satisfies σ rows)
      ∧ (∀ point, lexmin structural rows objectives = .ok (some point) → point.length = structural
        ∧ Satisfies (Point.assignment point) rows ∧ ∀ σ, Satisfies σ rows →
          objectives.map (Form.termsValue · (Point.assignment point)) ≤ objectives.map (Form.termsValue · σ))
      ∧ (lexmin structural rows objectives = .error (.solver .unbounded) ↔ (∃ σ, Satisfies σ rows)
        ∧ ∃ earlier objective later, objectives = earlier ++ objective :: later
          ∧ UnboundedBelow (Form.termsValue objective) (optimal Form.termsValue {σ | Satisfies σ rows} earlier))
      ∧ ((∃ answer, lexmin structural rows objectives = .ok answer)
        ∨ lexmin structural rows objectives = .error (.solver .unbounded))
      ∧ (isFeasible structural rows = .ok true ↔ ∃ σ, Satisfies σ rows)
      ∧ (isFeasible structural rows = .ok false ↔ ¬ ∃ σ, Satisfies σ rows) := by
  have feasibility : (isFeasible structural rows = .ok true ↔ ∃ σ, Satisfies σ rows)
      ∧ (isFeasible structural rows = .ok false ↔ ¬ ∃ σ, Satisfies σ rows) := by
    rcases isFeasible_outcome within (checkRows_ok within constants) with ⟨answer, infeasible⟩ | ⟨answer, feasible⟩
    · simp [answer, infeasible]
    · simp [answer, feasible]
  have answers : ∀ point, lexmin structural rows objectives = .ok (some point) → point.length = structural
      ∧ Satisfies (Point.assignment point) rows ∧ ∀ σ, Satisfies σ rows →
        objectives.map (Form.termsValue · (Point.assignment point)) ≤ objectives.map (Form.termsValue · σ) := by
    intro point found
    obtain ⟨length, satisfied⟩ := satisfies_of_lexmin within found
    exact ⟨length, satisfied, fun σ σ_mem => map_le_map_of_mem_optimal (optimal_of_lexmin within inside found) σ_mem⟩
  rcases lexmin_outcome within inside constants with ⟨answer, infeasible⟩ | ⟨point, answer, _, is_optimal⟩ |
    ⟨answer, feasible, unbounded⟩
  · exact ⟨iff_of_true answer infeasible, answers, iff_of_false (by simp [answer]) fun claimed => infeasible claimed.1,
      Or.inl ⟨none, answer⟩, feasibility⟩
  · have feasible : ∃ σ, Satisfies σ rows := ⟨_, optimal_subset Form.termsValue {σ | Satisfies σ rows} _ is_optimal⟩
    refine ⟨iff_of_false (by simp [answer]) (not_not.mpr feasible), answers, iff_of_false (by simp [answer]) ?_,
      Or.inl ⟨some point, answer⟩, feasibility⟩
    rintro ⟨_, earlier, objective, later, rfl, unbounded⟩
    exact not_unboundedBelow_of_mem_optimal is_optimal unbounded
  · exact ⟨iff_of_false (by simp [answer]) (not_not.mpr feasible), answers, iff_of_true answer ⟨feasible, unbounded⟩,
      Or.inr answer, feasibility⟩

end Inside

end Lexmin

/-- The points of the diagonal whose coordinates sum up to three or more. -/
def diagonalRows : List Row :=
  [{ sense := .nonnegative, form := { terms := [(0, 1), (1, 1)], constant := -3 } },
    { sense := .zero, form := { terms := [(0, 1), (1, -1)], constant := 0 } }]

/-- The first point of the diagonal minimizes the first column; nothing maximizes it. -/
theorem lexmin_exact_diagonal : Satisfies (Point.assignment [3 / 2, 3 / 2]) diagonalRows ∧ (∀ σ, Satisfies σ diagonalRows →
        [[(0, 1)], [(1, -1)]].map (Form.termsValue · (Point.assignment [3 / 2, 3 / 2]))
          ≤ [[(0, 1)], [(1, -1)]].map (Form.termsValue · σ))
      ∧ ∃ earlier objective later, [[(0, -1)]] = earlier ++ objective :: later
        ∧ UnboundedBelow (Form.termsValue objective) (optimal Form.termsValue {σ | Satisfies σ diagonalRows} earlier) := by
  obtain ⟨_, minimized, _⟩ := @lexmin_exact 2 diagonalRows [[(0, 1)], [(1, -1)]] (by decide) (by decide) (by decide)
  obtain ⟨_, _, maximized, _⟩ := @lexmin_exact 2 diagonalRows [[(0, -1)]] (by decide) (by decide) (by decide)
  obtain ⟨_, satisfied, least⟩ := minimized [3 / 2, 3 / 2] (by decide +kernel)
  exact ⟨satisfied, least, (maximized.mp (by decide +kernel)).2⟩

/-! ### The first conflicting row -/

namespace Problem

variable {problem : Problem} {extra : List Row} {feasible infeasible index count : ℕ} {answer : Bool}

/-- Some assignment satisfies the extra rows and the first rows of the problem. -/
def FeasibleUpTo (problem : Problem) (extra : List Row) (count : ℕ) : Prop :=
  ∃ σ, Satisfies σ (extra ++ problem.rows.take count)

theorem forall_mem_upTo {property : Row → Prop} (all : ∀ row ∈ extra ++ problem.rows, property row) (count : ℕ) :
    ∀ row ∈ extra ++ problem.rows.take count, property row := by
  intro row row_mem
  exact all row (mem_append.mpr ((mem_append.mp row_mem).imp_right mem_of_mem_take))

theorem FeasibleUpTo.mono (has_point : problem.FeasibleUpTo extra count) (fewer : index ≤ count) :
    problem.FeasibleUpTo extra index := by
  obtain ⟨σ, satisfied⟩ := has_point
  have kept : extra ++ problem.rows.take index ⊆ extra ++ problem.rows.take count :=
    append_subset.mpr ⟨subset_append_left _ _, subset_append_of_subset_right _ (take_subset_take_left _ fewer)⟩
  exact ⟨σ, satisfied.nonneg, fun row row_mem => satisfied.holds row (kept row_mem)⟩

section Within

variable (within : ∀ row ∈ extra ++ problem.rows, row.form.Within problem.columns)
include within

theorem feasibleUpTo_iff (decided : problem.isFeasibleUpTo extra count = .ok answer) :
    problem.FeasibleUpTo extra count ↔ answer = true := by
  obtain ⟨_, laid_out, _⟩ := bind_ok.mp decided
  rcases isFeasible_outcome (forall_mem_upTo within count) laid_out with ⟨refused, none_satisfies⟩ | ⟨accepted, some_satisfies⟩
  · cases decided.symm.trans refused
    exact iff_of_false none_satisfies Bool.false_ne_true
  · cases decided.symm.trans accepted
    exact iff_of_true some_satisfies rfl

/-- The bisection keeps a feasible and an infeasible number of leading rows, and ends when they are adjacent. -/
theorem bisectConflict_spec (ordered : feasible < infeasible) (has_point : problem.FeasibleUpTo extra feasible)
    (no_point : ¬ problem.FeasibleUpTo extra infeasible)
    (found : problem.bisectConflict extra feasible infeasible = .ok index) :
    index < infeasible ∧ problem.FeasibleUpTo extra index ∧ ¬ problem.FeasibleUpTo extra (index + 1) := by
  fun_induction bisectConflict problem extra feasible infeasible with
  | case1 feasible infeasible adjacent =>
    obtain rfl := Except.ok.inj found
    obtain rfl : infeasible = feasible + 1 := by omega
    exact ⟨Nat.lt_succ_self _, has_point, no_point⟩
  | case2 feasible infeasible apart middle above below =>
    obtain ⟨answer, decided, continued⟩ := bind_ok.mp found
    have middle_iff := feasibleUpTo_iff within decided
    have between : feasible < middle ∧ middle < infeasible := by omega
    cases answer with
    | true => exact above between.2 (middle_iff.mpr rfl) no_point continued
    | false =>
      obtain ⟨index_lt, kept⟩ := below between.1 has_point (middle_iff.not.mpr Bool.false_ne_true) continued
      exact ⟨index_lt.trans between.2, kept⟩

variable (constants : ∀ row ∈ extra ++ problem.rows, Word.Fits row.form.constant ∧ row.form.constant ≠ Word.least)
include constants

theorem exists_isFeasibleUpTo (count : ℕ) : ∃ answer, problem.isFeasibleUpTo extra count = .ok answer := by
  have within_count := forall_mem_upTo within count
  have laid_out := checkRows_ok within_count (forall_mem_upTo constants count)
  rcases isFeasible_outcome within_count laid_out with ⟨refused, _⟩ | ⟨accepted, _⟩
  · exact ⟨false, refused⟩
  · exact ⟨true, accepted⟩

theorem exists_bisectConflict (feasible infeasible : ℕ) :
    ∃ index, problem.bisectConflict extra feasible infeasible = .ok index := by
  fun_induction bisectConflict problem extra feasible infeasible with
  | case1 => exact ⟨_, rfl⟩
  | case2 feasible infeasible _ middle above below =>
    obtain ⟨answer, decided⟩ := exists_isFeasibleUpTo within constants middle
    cases answer with
    | true => exact above.imp fun _ found => bind_ok.mpr ⟨true, decided, found⟩
    | false => exact below.imp fun _ found => bind_ok.mpr ⟨false, decided, found⟩

theorem exists_firstConflict : ∃ answer, problem.firstConflict extra = .ok answer := by
  obtain ⟨start, start_decided⟩ := exists_isFeasibleUpTo within constants 0
  obtain ⟨whole, whole_decided⟩ := exists_isFeasibleUpTo within constants problem.rows.length
  obtain ⟨index, found⟩ := exists_bisectConflict within constants 0 problem.rows.length
  rw [firstConflict, start_decided, whole_decided, found]
  cases start <;> cases whole <;> exact ⟨_, rfl⟩

omit constants in
theorem firstConflict_cases {result : Option ℕ} (answered : problem.firstConflict extra = .ok result) :
    (result = none ∧ ¬ problem.FeasibleUpTo extra 0) ∨ (result = none ∧ problem.FeasibleUpTo extra problem.rows.length)
      ∨ ∃ index < problem.rows.length, result = some index ∧ problem.FeasibleUpTo extra index
        ∧ ¬ problem.FeasibleUpTo extra (index + 1) := by
  obtain ⟨start, start_decided, answered⟩ := bind_ok.mp answered
  have start_iff := feasibleUpTo_iff within start_decided
  cases start with
  | false => exact Or.inl ⟨(pure_ok.mp answered).symm, start_iff.not.mpr Bool.false_ne_true⟩
  | true =>
    obtain ⟨whole, whole_decided, answered⟩ := bind_ok.mp answered
    have whole_iff := feasibleUpTo_iff within whole_decided
    cases whole with
    | true => exact Or.inr (Or.inl ⟨(pure_ok.mp answered).symm, whole_iff.mpr rfl⟩)
    | false =>
      obtain ⟨index, found, answered⟩ := bind_ok.mp answered
      have no_point := whole_iff.not.mpr Bool.false_ne_true
      have nonempty : 0 < problem.rows.length := by
        refine Nat.pos_of_ne_zero fun is_empty => no_point ?_
        rw [is_empty]
        exact start_iff.mpr rfl
      obtain ⟨index_lt, first⟩ := bisectConflict_spec within nonempty (start_iff.mpr rfl) no_point found
      exact Or.inr (Or.inr ⟨index, index_lt, (pure_ok.mp answered).symm, first⟩)

omit constants in
/-- The row that is blamed for a conflict is the first one that has no point in common with the extra rows and the rows
    before it. No row is blamed exactly if the extra rows have no point, or all rows together have one. The search for
    the row comes to an answer if every constant can be negated. -/
theorem firstConflict_exact : (∀ index, problem.firstConflict extra = .ok (some index) → index < problem.rows.length
        ∧ (∃ σ, Satisfies σ (extra ++ problem.rows.take index)) ∧ ¬ ∃ σ, Satisfies σ (extra ++ problem.rows.take (index + 1)))
      ∧ (problem.firstConflict extra = .ok none → (¬ ∃ σ, Satisfies σ extra) ∨ ∃ σ, Satisfies σ (extra ++ problem.rows))
      ∧ ((∀ row ∈ extra ++ problem.rows, Word.Fits row.form.constant ∧ row.form.constant ≠ Word.least) →
        (∃ answer, problem.firstConflict extra = .ok answer)
          ∧ ((¬ ∃ σ, Satisfies σ extra) ∨ (∃ σ, Satisfies σ (extra ++ problem.rows)) → problem.firstConflict extra = .ok none)) := by
  have start_iff : problem.FeasibleUpTo extra 0 ↔ ∃ σ, Satisfies σ extra := by rw [FeasibleUpTo, take_zero, append_nil]
  have whole_iff : problem.FeasibleUpTo extra problem.rows.length ↔ ∃ σ, Satisfies σ (extra ++ problem.rows) := by
    rw [FeasibleUpTo, take_length]
  refine ⟨fun index found => ?_, fun refused => ?_, fun constants => ?_⟩
  · rcases firstConflict_cases within found with ⟨absent, _⟩ | ⟨absent, _⟩ | ⟨_, index_lt, same, first⟩
    · cases absent
    · cases absent
    · cases same
      exact ⟨index_lt, first⟩
  · rcases firstConflict_cases within refused with ⟨_, no_point⟩ | ⟨_, has_point⟩ | ⟨_, _, present, _⟩
    · exact Or.inl (start_iff.not.mp no_point)
    · exact Or.inr (whole_iff.mp has_point)
    · cases present
  · obtain ⟨answer, answered⟩ := exists_firstConflict within constants
    refine ⟨⟨answer, answered⟩, fun no_conflict => ?_⟩
    rcases firstConflict_cases within answered with ⟨rfl, _⟩ | ⟨rfl, _⟩ | ⟨index, index_lt, _, has_point, no_point⟩
    · exact answered
    · exact answered
    · -- a conflict between the ends would contradict both
      rcases no_conflict with start_empty | whole_feasible
      · exact absurd (start_iff.mp (has_point.mono (Nat.zero_le _))) start_empty
      · exact absurd ((whole_iff.mpr whole_feasible).mono index_lt) no_point

end Within

/-- Three columns of which the second and the third are zero and the first two are equal. -/
def equalColumns : Problem :=
  { integer := [true, true, true]
    rows := [{ sense := .nonnegative, form := { terms := [(2, -1)], constant := 0 } },
      { sense := .nonnegative, form := { terms := [(0, -1)], constant := 5 } },
      { sense := .zero, form := { terms := [(0, 1), (1, -1)], constant := 0 } },
      { sense := .nonnegative, form := { terms := [(1, -1)], constant := 0 } }] }

/-- The first column is larger than the third. -/
def largerFirst : Row := { sense := .nonnegative, form := { terms := [(0, 1), (2, -1)], constant := -1 } }

/-- The first column cannot be larger than the third, and the last row is to blame. -/
theorem firstConflict_exact_equalColumns : equalColumns.firstConflict [largerFirst] = .ok (some 3)
      ∧ (∃ σ, Satisfies σ (largerFirst :: equalColumns.rows.take 3)) ∧ ¬ ∃ σ, Satisfies σ (largerFirst :: equalColumns.rows) := by
  have found : equalColumns.firstConflict [largerFirst] = .ok (some 3) := by decide +kernel
  obtain ⟨blamed, _, _⟩ := @firstConflict_exact equalColumns [largerFirst] (by decide)
  exact ⟨found, (blamed 3 found).2⟩

end Problem

end Linear

end AffineSchedule
