import AffineSchedule.Proofs.Linear.Evaluation

namespace AffineSchedule

open Finset
open List hiding Vector

namespace Linear

namespace Tableau

variable {m n : ℕ}

/-! ### Equations and unit columns -/

/-- The entry at a row and a column. -/
def entry (tableau : Tableau m n) (i : Fin m) (j : Fin n) : ℚ := (tableau.entries.get i).get j

/-- The right-hand side of a row. -/
def side (tableau : Tableau m n) (i : Fin m) : ℚ := tableau.rhs.get i

/-- The column that is basic in a row. -/
def basicColumn (tableau : Tableau m n) (i : Fin m) : Fin n := tableau.basis.get i

/-- The columns solve the equations of the tableau. -/
def Solves (tableau : Tableau m n) (z : Fin n → ℚ) : Prop :=
  ∀ i : Fin m, ∑ j, tableau.entry i j * z j = tableau.side i

/-- The basic columns are unit columns, and the marks tell which columns are basic. -/
structure Canonical (tableau : Tableau m n) : Prop where
  unit : ∀ i k : Fin m, tableau.entry i (tableau.basicColumn k) = if i = k then 1 else 0
  marks : ∀ j : Fin n, tableau.isBasic.get j = true ↔ ∃ i : Fin m, tableau.basicColumn i = j

/-- No column is basic in two rows. -/
theorem Canonical.basis_injective {tableau : Tableau m n} (canonical : tableau.Canonical) {i k : Fin m}
    (same : tableau.basicColumn i = tableau.basicColumn k) : i = k := by
  by_contra different
  have one : tableau.entry i (tableau.basicColumn i) = 1 := by rw [canonical.unit i i, if_pos rfl]
  have zero : tableau.entry i (tableau.basicColumn k) = 0 := by rw [canonical.unit i k, if_neg different]
  rw [same, zero] at one
  exact zero_ne_one one

/-- The basic solution: a basic column has the right-hand side of its row, every other column is zero. -/
def basicSolution (tableau : Tableau m n) (j : Fin n) : ℚ :=
  ∑ i : Fin m, if tableau.basicColumn i = j then tableau.side i else 0

/-- The basic solution weighs the basic columns only. -/
theorem sum_mul_basicSolution (tableau : Tableau m n) (weight : Fin n → ℚ) :
    ∑ j, weight j * tableau.basicSolution j = ∑ i : Fin m, weight (tableau.basicColumn i) * tableau.side i := by
  simp only [basicSolution, mul_sum, mul_ite, mul_zero]
  rw [sum_comm]
  simp

section

variable {tableau : Tableau m n} (canonical : tableau.Canonical)
include canonical

/-- The basic solution solves the equations. -/
theorem Canonical.solves_basicSolution :
    tableau.Solves tableau.basicSolution := by
  intro i
  rw [sum_mul_basicSolution tableau fun j => tableau.entry i j]
  simp [canonical.unit i]

/-- A basic column has the right-hand side of its row. -/
theorem Canonical.basicSolution_basis (i : Fin m) :
    tableau.basicSolution (tableau.basicColumn i) = tableau.side i := by
  rw [basicSolution, sum_eq_single i]
  · simp
  · intro k _ different
    rw [if_neg]
    exact fun same => different (canonical.basis_injective same)
  · simp

theorem Canonical.basicColumn_ne {j : Fin n} (nonbasic : tableau.isBasic.get j = false) (i : Fin m) :
    tableau.basicColumn i ≠ j := by
  intro basic
  rw [(canonical.marks j).mpr ⟨i, basic⟩] at nonbasic
  cases nonbasic

theorem Canonical.basicSolution_nonbasic {j : Fin n}
    (nonbasic : tableau.isBasic.get j = false) : tableau.basicSolution j = 0 :=
  sum_eq_zero fun i _ => if_neg (canonical.basicColumn_ne nonbasic i)

/-- There is no other solution that is zero on the nonbasic columns. -/
theorem Canonical.eq_basicSolution {z : Fin n → ℚ}
    (solves : tableau.Solves z) (nonbasic : ∀ j, tableau.isBasic.get j = false → z j = 0) : z = tableau.basicSolution := by
  have on_basis : ∀ i, z (tableau.basicColumn i) = tableau.side i := by
    intro i
    rw [← solves i, sum_eq_single (tableau.basicColumn i)]
    · rw [canonical.unit i i, if_pos rfl, one_mul]
    · intro j _ different
      cases basic : tableau.isBasic.get j with
      | false => rw [nonbasic j basic, mul_zero]
      | true =>
        obtain ⟨k, rfl⟩ := (canonical.marks j).mp basic
        rw [canonical.unit i k, if_neg fun same : i = k => different (by rw [same]), zero_mul]
    · simp
  funext j
  cases basic : tableau.isBasic.get j with
  | false => rw [nonbasic j basic, canonical.basicSolution_nonbasic basic]
  | true =>
    obtain ⟨i, rfl⟩ := (canonical.marks j).mp basic
    rw [on_basis, canonical.basicSolution_basis]

end

/-- With non-negative right-hand sides the basic solution is non-negative. -/
theorem basicSolution_nonneg {tableau : Tableau m n} (nonneg : ∀ i : Fin m, 0 ≤ tableau.side i)
    (j : Fin n) : 0 ≤ tableau.basicSolution j := by
  apply Finset.sum_nonneg
  intro i _
  by_cases basic : tableau.basicColumn i = j
  · rw [if_pos basic]
    exact nonneg i
  · rw [if_neg basic]

/-! ### Pivoting -/

/-- The shortcut for a zero dividend does not change a quotient. -/
theorem ite_zero_div (value scale : ℚ) : (if value = 0 then 0 else value / scale) = value / scale := by
  by_cases vanishes : value = 0 <;> simp [vanishes]

/-- The shortcut for a zero weight does not change a difference. -/
theorem ite_sub_mul (value factor weight : ℚ) :
    (if weight = 0 then value else value - factor * weight) = value - factor * weight := by
  by_cases vanishes : weight = 0 <;> simp [vanishes]

section

variable (tableau : Tableau m n) (r : Fin m)

/-- The entries after a pivot. -/
theorem pivot_entry (i : Fin m) (c j : Fin n) : (tableau.pivot r c).entry i j
      = if i = r then tableau.entry r j / tableau.entry r c
        else tableau.entry i j - tableau.entry i c * (tableau.entry r j / tableau.entry r c) := by
  simp only [pivot, entry, Fin.getElem_fin, Vector.get_eq_getElem, Vector.getElem_ofFn]
  by_cases pivoted : i = r
  · simp only [pivoted, if_true, Vector.getElem_map, ite_zero_div]
  · by_cases clear : tableau.entries[i.val][c.val] = 0
    · simp only [Fin.eta, pivoted, if_false, clear, if_true, zero_mul, sub_zero]
    · simp only [Fin.eta, pivoted, if_false, clear, Vector.getElem_zipWith, Vector.getElem_map, ite_zero_div, ite_sub_mul]

/-- The right-hand sides after a pivot. -/
theorem pivot_rhs (i : Fin m) (c : Fin n) : (tableau.pivot r c).side i
      = if i = r then tableau.side r / tableau.entry r c
        else tableau.side i - tableau.entry i c * (tableau.side r / tableau.entry r c) := by
  simp only [pivot, entry, side, Fin.getElem_fin, Vector.get_eq_getElem, Vector.getElem_ofFn, Fin.eta]

/-- The basis after a pivot. -/
theorem pivot_basis (i : Fin m) (c : Fin n) :
    (tableau.pivot r c).basicColumn i = if i = r then c else tableau.basicColumn i := by
  simp only [pivot, basicColumn, Fin.getElem_fin, Vector.get_eq_getElem, Vector.getElem_set, Fin.ext_iff, eq_comm]

/-- The marks after a pivot. -/
theorem pivot_isBasic (c j : Fin n) : (tableau.pivot r c).isBasic.get j
      = if j = c then true else if j = tableau.basicColumn r then false else tableau.isBasic.get j := by
  simp only [pivot, basicColumn, Fin.getElem_fin, Vector.get_eq_getElem, Vector.getElem_set, Fin.ext_iff, eq_comm]

theorem isBasic_pivot_iff {c j : Fin n} : (tableau.pivot r c).isBasic.get j = true
    ↔ j = c ∨ j ≠ tableau.basicColumn r ∧ tableau.isBasic.get j = true := by
  rw [pivot_isBasic]
  split_ifs with entered left
  · simp [entered]
  · rw [or_iff_right entered]
    simp [left]
  · simp [entered, left]

@[simp] theorem pivot_banned (c : Fin n) :
    (tableau.pivot r c).banned = tableau.banned := rfl

/-- The left-hand side of a row after a pivot. -/
theorem pivot_sum (i : Fin m) (c : Fin n) (z : Fin n → ℚ) : ∑ j, (tableau.pivot r c).entry i j * z j
      = if i = r then (∑ j, tableau.entry r j * z j) / tableau.entry r c
        else ∑ j, tableau.entry i j * z j - tableau.entry i c * ((∑ j, tableau.entry r j * z j) / tableau.entry r c) := by
  simp only [pivot_entry]
  by_cases pivoted : i = r
  · simp only [pivoted, if_true, sum_div]
    exact sum_congr rfl fun j _ => by ring
  · simp only [pivoted, if_false, sum_div, mul_sum, ← sum_sub_distrib]
    exact sum_congr rfl fun j _ => by ring

end

section

variable {tableau : Tableau m n} {r : Fin m} {c : Fin n}

/-- A pivot on a non-zero entry has the same solutions. -/
theorem pivot_solves_iff (nonzero : tableau.entry r c ≠ 0) (z : Fin n → ℚ) :
    (tableau.pivot r c).Solves z ↔ tableau.Solves z := by
  constructor
  · intro solves
    have in_pivot_row : ∑ j, tableau.entry r j * z j = tableau.side r := by
      have pivoted := solves r
      rw [pivot_sum, pivot_rhs, if_pos rfl, if_pos rfl] at pivoted
      exact (div_left_inj' nonzero).mp pivoted
    intro i
    by_cases same : i = r
    · rw [same]
      exact in_pivot_row
    · have pivoted := solves i
      rw [pivot_sum, pivot_rhs, if_neg same, if_neg same, in_pivot_row] at pivoted
      linarith
  · intro solves i
    rw [pivot_sum, pivot_rhs, solves r, solves i]

/-- A pivot on a non-zero entry makes the entering column a unit column and keeps the others. -/
theorem Canonical.pivot (canonical : tableau.Canonical) (nonzero : tableau.entry r c ≠ 0) : (tableau.pivot r c).Canonical := by
  constructor
  · intro i k
    rw [pivot_basis, pivot_entry]
    by_cases entering : k = r
    · rw [if_pos entering, entering]
      by_cases same : i = r
      · rw [if_pos same, if_pos same, div_self nonzero]
      · rw [if_neg same, if_neg same, div_self nonzero, mul_one, sub_self]
    · rw [if_neg entering, canonical.unit r k, if_neg (Ne.symm entering), zero_div, mul_zero, sub_zero, canonical.unit i k]
      by_cases same : i = r
      · rw [if_pos same, if_neg]
        exact fun i_eq_k => entering (i_eq_k.symm.trans same)
      · rw [if_neg same]
  · intro j
    rw [isBasic_pivot_iff]
    simp only [pivot_basis]
    constructor
    · rintro (rfl | ⟨stays, basic⟩)
      · exact ⟨r, if_pos rfl⟩
      · obtain ⟨i, rfl⟩ := (canonical.marks j).mp basic
        exact ⟨i, if_neg fun in_pivot_row => stays (by rw [in_pivot_row])⟩
    · rintro ⟨i, rfl⟩
      by_cases in_pivot_row : i = r
      · exact Or.inl (if_pos in_pivot_row)
      · rw [if_neg in_pivot_row]
        exact Or.inr ⟨fun left => in_pivot_row (canonical.basis_injective left), (canonical.marks _).mpr ⟨i, rfl⟩⟩

/-- A pivot in a row of least ratio keeps the right-hand sides non-negative. -/
theorem pivot_rhs_nonneg (nonneg : ∀ i : Fin m, 0 ≤ tableau.side i) (positive : 0 < tableau.entry r c)
    (least : ∀ i : Fin m, 0 < tableau.entry i c → tableau.ratio c r ≤ tableau.ratio c i)
    (i : Fin m) : 0 ≤ (tableau.pivot r c).side i := by
  have ratio_nonneg : 0 ≤ tableau.side r / tableau.entry r c := div_nonneg (nonneg r) positive.le
  rw [pivot_rhs]
  by_cases same : i = r
  · rw [if_pos same]
    exact ratio_nonneg
  · rw [if_neg same, sub_nonneg]
    rcases lt_or_ge 0 (tableau.entry i c) with entry_pos | entry_nonpos
    · have bounded := least i entry_pos
      unfold ratio at bounded
      calc tableau.entry i c * (tableau.side r / tableau.entry r c)
          ≤ tableau.entry i c * (tableau.side i / tableau.entry i c) :=
            mul_le_mul_of_nonneg_left bounded entry_pos.le
        _ = tableau.side i := mul_div_cancel₀ _ entry_pos.ne'
    · exact (mul_nonpos_of_nonpos_of_nonneg entry_nonpos ratio_nonneg).trans (nonneg i)

/-- A pivot in a row whose right-hand side is zero leaves all right-hand sides as they are. -/
theorem pivot_rhs_of_rhs_eq_zero (vanishes : tableau.side r = 0) (i : Fin m) : (tableau.pivot r c).side i = tableau.side i := by
  rw [pivot_rhs, vanishes, zero_div, mul_zero, sub_zero]
  by_cases same : i = r
  · rw [if_pos same, same, vanishes]
  · rw [if_neg same]

/-- A row with a zero in the entering column is left as it is. -/
theorem pivot_entry_of_clear {i : Fin m} (other : i ≠ r)
    (clear : tableau.entry i c = 0) (j : Fin n) : (tableau.pivot r c).entry i j = tableau.entry i j := by
  rw [pivot_entry, if_neg other, clear, zero_mul, sub_zero]

end

/-! ### Costs -/

/-- The reduced cost of a column. -/
theorem get_reducedCosts (tableau : Tableau m n) (cost : Vector ℚ n) (j : Fin n) : (tableau.reducedCosts cost).get j
      = cost.get j - ∑ i : Fin m, cost.get (tableau.basicColumn i) * tableau.entry i j := by
  -- the fold subtracts one row after the other
  have general : ∀ (rows : List (Fin m)) (costs : Vector ℚ n), (rows.foldl (fun (costs : Vector ℚ n) (i : Fin m) =>
          let weight := cost.get (tableau.basicColumn i)
          if weight = 0 then costs
          else Vector.zipWith (fun value entry => if entry = 0 then value else value - weight * entry)
            costs (tableau.entries.get i)) costs).get j
        = costs.get j - (rows.map fun i => cost.get (tableau.basicColumn i) * tableau.entry i j).sum := by
    intro rows
    induction rows with
    | nil => simp
    | cons i later ih =>
      intro costs
      rw [foldl_cons, ih, List.map_cons, List.sum_cons]
      by_cases weightless : cost.get (tableau.basicColumn i) = 0
      · simp only [weightless, if_true, zero_mul, zero_add]
      · dsimp only
        rw [if_neg weightless]
        simp only [entry, Vector.get_eq_getElem, Vector.getElem_zipWith, ite_sub_mul]
        ring
  have whole := general (List.finRange m) cost
  rw [← ofFn_eq_map, sum_ofFn] at whole
  exact whole

/-- The cost of a solution is the cost of the basic solution plus the reduced costs of the columns. -/
theorem Solves.cost_eq {tableau : Tableau m n} {z : Fin n → ℚ} (solves : tableau.Solves z) (cost : Vector ℚ n) :
    ∑ j : Fin n, cost.get j * z j = ∑ i : Fin m, cost.get (tableau.basicColumn i) * tableau.side i
        + ∑ j : Fin n, (tableau.reducedCosts cost).get j * z j := by
  have rows : ∑ i : Fin m, cost.get (tableau.basicColumn i) * tableau.side i
      = ∑ j : Fin n, (∑ i : Fin m, cost.get (tableau.basicColumn i) * tableau.entry i j) * z j := by
    simp only [sum_mul]
    rw [sum_comm]
    refine sum_congr rfl fun i _ => ?_
    rw [← solves i, mul_sum]
    exact sum_congr rfl fun j _ => by ring
  rw [rows, ← sum_add_distrib]
  refine sum_congr rfl fun j _ => ?_
  rw [get_reducedCosts]
  ring

/-- The reduced cost of a basic column is zero. -/
theorem Canonical.reducedCost_basic {tableau : Tableau m n} (canonical : tableau.Canonical)
    (cost : Vector ℚ n) (k : Fin m) : (tableau.reducedCosts cost).get (tableau.basicColumn k) = 0 := by
  rw [get_reducedCosts]
  simp only [canonical.unit, mul_ite, mul_one, mul_zero, sum_ite_eq', mem_univ, if_true, sub_self]

/-- The cost of the basic solution. -/
def basicCost (tableau : Tableau m n) (cost : Vector ℚ n) : ℚ := ∑ j, cost.get j * tableau.basicSolution j

theorem basicCost_eq (tableau : Tableau m n) (cost : Vector ℚ n) :
    tableau.basicCost cost = ∑ i : Fin m, cost.get (tableau.basicColumn i) * tableau.side i :=
  sum_mul_basicSolution tableau fun j => cost.get j

/-! ### Growing one column -/

/-- How the columns change while the equations are kept and one nonbasic column grows. -/
def direction (tableau : Tableau m n) (c j : Fin n) : ℚ :=
  (if j = c then 1 else 0) - ∑ i : Fin m, if tableau.basicColumn i = j then tableau.entry i c else 0

theorem sum_mul_direction (tableau : Tableau m n) (c : Fin n) (weight : Fin n → ℚ) : ∑ j, weight j * tableau.direction c j
      = weight c - ∑ i : Fin m, weight (tableau.basicColumn i) * tableau.entry i c := by
  simp only [direction, mul_sub, sum_sub_distrib, mul_sum, mul_ite, mul_one, mul_zero, sum_ite_eq', mem_univ, if_true]
  rw [sum_comm]
  simp

section

variable {tableau : Tableau m n} (canonical : tableau.Canonical) {c : Fin n}
include canonical

theorem direction_of_nonbasic {j : Fin n}
    (nonbasic : tableau.isBasic.get j = false) : tableau.direction c j = if j = c then 1 else 0 := by
  rw [direction, sum_eq_zero fun i _ => if_neg (canonical.basicColumn_ne nonbasic i), sub_zero]

theorem direction_basicColumn (nonbasic : tableau.isBasic.get c = false) (i : Fin m) :
    tableau.direction c (tableau.basicColumn i) = -tableau.entry i c := by
  rw [direction, if_neg (canonical.basicColumn_ne nonbasic i), sum_eq_single i, if_pos rfl, zero_sub]
  · exact fun k _ different => if_neg fun same => different (canonical.basis_injective same)
  · simp

end

/-- The solutions that a growing column leads through. -/
def ray (tableau : Tableau m n) (c : Fin n) (growth : ℚ) (j : Fin n) : ℚ :=
  tableau.basicSolution j + growth * tableau.direction c j

theorem sum_mul_ray (tableau : Tableau m n) (c : Fin n) (growth : ℚ) (weight : Fin n → ℚ) :
    ∑ j, weight j * tableau.ray c growth j
      = ∑ j, weight j * tableau.basicSolution j + growth * ∑ j, weight j * tableau.direction c j := by
  simp only [ray, mul_add, sum_add_distrib, mul_left_comm _ growth, ← mul_sum]

theorem Canonical.solves_ray {tableau : Tableau m n} (canonical : tableau.Canonical) (c : Fin n) (growth : ℚ) :
    tableau.Solves (tableau.ray c growth) := by
  intro i
  have still : ∑ j, tableau.entry i j * tableau.direction c j = 0 := by
    rw [sum_mul_direction tableau c fun j => tableau.entry i j]
    simp [canonical.unit i]
  rw [sum_mul_ray tableau c growth fun j => tableau.entry i j, still, mul_zero, add_zero]
  exact canonical.solves_basicSolution i

/-- A growing column changes the cost by its reduced cost. -/
theorem cost_ray (tableau : Tableau m n) (c : Fin n) (growth : ℚ) (cost : Vector ℚ n) : ∑ j, cost.get j * tableau.ray c growth j
      = tableau.basicCost cost + growth * (tableau.reducedCosts cost).get c := by
  rw [sum_mul_ray tableau c growth cost.get, sum_mul_direction tableau c cost.get, get_reducedCosts, basicCost]

/-! ### The choice of a pivot -/

section

variable {tableau : Tableau m n} {cost : Vector ℚ n}

/-- An entering column is neither banned nor basic, and lowers the cost. -/
theorem entering_eq_some {c : Fin n} (found : tableau.entering cost = some c) :
    tableau.banned.get c = false ∧ tableau.isBasic.get c = false ∧ (tableau.reducedCosts cost).get c < 0 := by
  have passed := find?_some found
  simp only [Bool.and_eq_true, Bool.not_eq_true', decide_eq_true_eq] at passed
  exact ⟨passed.1.1, passed.1.2, passed.2⟩

theorem reducedCost_nonneg_of_lt_entering {c j : Fin n}
    (found : tableau.entering cost = some c) (before : j < c) (allowed : tableau.banned.get j = false)
    (nonbasic : tableau.isBasic.get j = false) : 0 ≤ (tableau.reducedCosts cost).get j := by
  obtain ⟨_, index, inside, c_eq, earlier⟩ := find?_eq_some_iff_getElem.mp found
  rw [getElem_finRange] at c_eq
  have j_before : j.val < index := by
    rw [← c_eq] at before
    exact before
  have refused := earlier j.val j_before
  simp only [getElem_finRange] at refused
  simpa [← Vector.get_eq_getElem, allowed, nonbasic] using refused

theorem reducedCost_nonneg_of_entering_eq_none
    (none_enters : tableau.entering cost = none) {j : Fin n} (allowed : tableau.banned.get j = false)
    (nonbasic : tableau.isBasic.get j = false) : 0 ≤ (tableau.reducedCosts cost).get j := by
  have refused := find?_eq_none.mp none_enters j (mem_finRange j)
  simpa [← Vector.get_eq_getElem, allowed, nonbasic] using refused

end

/-- What the rows compete with to leave the basis: the ratio, then the basic column. -/
def rank (tableau : Tableau m n) (c : Fin n) (i : Fin m) : ℚ ×ₗ Fin n := toLex (tableau.ratio c i, tableau.basicColumn i)

/-- A best row among those seen: its entry in the column is positive and its rank the least. There is none
    only as long as no entry seen is positive. -/
structure Best (tableau : Tableau m n) (c : Fin n) (seen : List (Fin m)) (best : Option (Fin m)) : Prop where
  positive : ∀ row, best = some row → 0 < tableau.entry row c
  least : ∀ row, best = some row → ∀ i ∈ seen, 0 < tableau.entry i c → tableau.rank c row ≤ tableau.rank c i
  none_positive : best = none → ∀ i ∈ seen, ¬ 0 < tableau.entry i c

namespace Best

variable {tableau : Tableau m n} {c : Fin n} {seen : List (Fin m)} {best : Option (Fin m)} {i : Fin m}

theorem skip (so_far : tableau.Best c seen best) (nonpositive : ¬ 0 < tableau.entry i c) :
    tableau.Best c (seen ++ [i]) best := by
  refine ⟨so_far.positive, fun row is_best k k_mem k_pos => ?_, fun is_none k k_mem => ?_⟩
  · rcases mem_append.mp k_mem with old | new
    · exact so_far.least row is_best k old k_pos
    · exact absurd (List.mem_singleton.mp new ▸ k_pos) nonpositive
  · rcases mem_append.mp k_mem with old | new
    · exact so_far.none_positive is_none k old
    · rw [List.mem_singleton.mp new]
      exact nonpositive

/-- A row whose rank is no smaller leaves the best row as it is. -/
theorem keep {row : Fin m} (so_far : tableau.Best c seen (some row))
    (no_smaller : tableau.rank c row ≤ tableau.rank c i) : tableau.Best c (seen ++ [i]) (some row) := by
  refine ⟨so_far.positive, ?_, by simp⟩
  rintro chosen ⟨⟩ k k_mem k_pos
  rcases mem_append.mp k_mem with old | new
  · exact so_far.least row rfl k old k_pos
  · rw [List.mem_singleton.mp new]
    exact no_smaller

/-- A row whose rank is no larger than that of the best row takes its place. -/
theorem replace (so_far : tableau.Best c seen best) (positive : 0 < tableau.entry i c)
    (no_larger : ∀ row, best = some row → tableau.rank c i ≤ tableau.rank c row) : tableau.Best c (seen ++ [i]) (some i) := by
  refine ⟨?_, ?_, by simp⟩
  · rintro chosen ⟨⟩
    exact positive
  · rintro chosen ⟨⟩ k k_mem k_pos
    rcases mem_append.mp k_mem with old | new
    · cases best with
      | none => exact absurd k_pos (so_far.none_positive rfl k old)
      | some row => exact (no_larger row rfl).trans (so_far.least row rfl k old k_pos)
    · rw [List.mem_singleton.mp new]

end Best

/-- The leaving row is a best row among all rows. -/
theorem best_leaving (tableau : Tableau m n) (c : Fin n) : tableau.Best c (List.finRange m) (tableau.leaving c) := by
  unfold leaving
  generalize List.finRange m = rows
  -- the rows seen so far are a front part of the list, so the last one is split off
  induction rows using List.reverseRecOn with
  | nil => exact ⟨by simp, by simp, by simp⟩
  | append_singleton seen i so_far =>
    rw [foldl_append, foldl_cons, foldl_nil]
    generalize List.foldl _ none seen = best at so_far ⊢
    by_cases positive : 0 < tableau.entry i c
    · have enters : 0 < tableau.entries[i][c] := positive
      rw [if_pos enters]
      cases best with
      | none => exact so_far.replace positive (by simp)
      | some row =>
        have better_iff : (decide (tableau.ratio c i < tableau.ratio c row)
            || decide (tableau.ratio c i = tableau.ratio c row) && decide (tableau.basis[i] < tableau.basis[row])) = true
              ↔ tableau.rank c i < tableau.rank c row := by
          simp only [rank, Prod.Lex.toLex_lt_toLex, Bool.or_eq_true, Bool.and_eq_true, decide_eq_true_eq]
          rfl
        dsimp only
        split
        next better =>
          apply so_far.replace positive
          rintro chosen ⟨⟩
          exact (better_iff.mp better).le
        next worse => exact so_far.keep (not_lt.mp (better_iff.not.mp worse))
    · have passed_over : ¬ 0 < tableau.entries[i][c] := positive
      rw [if_neg passed_over]
      exact so_far.skip positive

section

variable {tableau : Tableau m n} {c : Fin n} {r : Fin m} (found : tableau.leaving c = some r)
include found

/-- The leaving row has a positive entry in the column, and the least ratio among such rows. -/
theorem leaving_eq_some :
    0 < tableau.entry r c ∧ ∀ i : Fin m, 0 < tableau.entry i c → tableau.ratio c r ≤ tableau.ratio c i := by
  have best := tableau.best_leaving c
  refine ⟨best.positive r found, fun i positive => ?_⟩
  exact (Prod.Lex.le_iff.mp (best.least r found i (mem_finRange i) positive)).elim le_of_lt fun tie => tie.1.le

theorem basicColumn_le_of_leaving {i : Fin m} (positive : 0 < tableau.entry i c) (tie : tableau.ratio c r = tableau.ratio c i) :
    tableau.basicColumn r ≤ tableau.basicColumn i := by
  have least := (tableau.best_leaving c).least r found i (mem_finRange i) positive
  exact (Prod.Lex.le_iff.mp least).elim (fun less => absurd tie less.ne) fun same => same.2

end

theorem leaving_ne_none {tableau : Tableau m n} {cost : Vector ℚ n} {column : Fin n}
    (nonneg : ∀ j, 0 ≤ cost.get j) (enters : tableau.entering cost = some column) : tableau.leaving column ≠ none := by
  intro none_leaves
  have lowers := (entering_eq_some enters).2.2
  have no_positive := (tableau.best_leaving column).none_positive none_leaves
  have weighted : ∑ i : Fin m, cost.get (tableau.basicColumn i) * tableau.entry i column ≤ 0 := by
    apply sum_nonpos
    intro i _
    exact mul_nonpos_of_nonneg_of_nonpos (nonneg _) (not_lt.mp (no_positive i (mem_finRange i)))
  rw [get_reducedCosts] at lowers
  linarith [nonneg column]

end Tableau

end Linear

end AffineSchedule
