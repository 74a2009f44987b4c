import AffineSchedule.Proofs.Linear.Simplex

namespace AffineSchedule

open Checked Finset

namespace Linear

namespace Tableau

variable {m n : ℕ} {tableau origin : Tableau m n} {cost : Vector ℚ n} {first last : ℕ}

/-! ### Steps of a minimization -/

/-- Some column enters the basis, and some row leaves for it. -/
def Moves (cost : Vector ℚ n) (tableau : Tableau m n) : Prop :=
  ∃ c r, tableau.entering cost = some c ∧ tableau.leaving c = some r

/-- The tableau after the next pivot; a tableau that cannot move stays. -/
def advance (cost : Vector ℚ n) (tableau : Tableau m n) : Tableau m n :=
  match tableau.entering cost with
  | none => tableau
  | some c =>
    match tableau.leaving c with
    | none => tableau
    | some r => tableau.pivot r c

theorem optimizeWithin_iterate (cost : Vector ℚ n) (steps : ℕ) (tableau : Tableau m n) :
    (∀ k < steps, Moves cost ((advance cost)^[k] tableau))
      ∨ ∃ pivots < steps, (∀ k < pivots, Moves cost ((advance cost)^[k] tableau))
        ∧ ((((advance cost)^[pivots] tableau).entering cost = none
            ∧ optimizeWithin cost steps tableau = .ok ((advance cost)^[pivots] tableau))
          ∨ (∃ c, ((advance cost)^[pivots] tableau).entering cost = some c ∧ ((advance cost)^[pivots] tableau).leaving c = none)
            ∧ optimizeWithin cost steps tableau = .error (.solver .unbounded)) := by
  induction steps generalizing tableau with
  | zero => exact Or.inl fun k impossible => absurd impossible (Nat.not_lt_zero k)
  | succ steps ih =>
    cases enters : tableau.entering cost with
    | none =>
      refine Or.inr ⟨0, Nat.succ_pos steps, fun k impossible => absurd impossible (Nat.not_lt_zero k), Or.inl ⟨enters, ?_⟩⟩
      simp only [optimizeWithin, enters]
      rfl
    | some c =>
      cases leaves : tableau.leaving c with
      | none =>
        refine Or.inr ⟨0, Nat.succ_pos steps, fun k impossible => absurd impossible (Nat.not_lt_zero k),
          Or.inr ⟨⟨c, enters, leaves⟩, ?_⟩⟩
        simp only [optimizeWithin, enters, leaves]
      | some r =>
        have moves : Moves cost tableau := ⟨c, r, enters, leaves⟩
        have continued : optimizeWithin cost (steps + 1) tableau = optimizeWithin cost steps (tableau.advance cost) := by
          simp only [optimizeWithin, enters, leaves, advance]
        have shifted : ∀ {count : ℕ}, (∀ k < count, Moves cost ((advance cost)^[k] (tableau.advance cost))) →
            ∀ k < count + 1, Moves cost ((advance cost)^[k] tableau) := by
          intro count later k below
          cases k with
          | zero => exact moves
          | succ k => exact later k (Nat.lt_of_succ_lt_succ below)
        rcases ih (tableau.advance cost) with always | ⟨pivots, below, moving, ended⟩
        · exact Or.inl (shifted always)
        · refine Or.inr ⟨pivots + 1, Nat.succ_lt_succ below, shifted moving, ?_⟩
          rw [continued]
          exact ended

/-- What the pivots of a minimization keep. -/
theorem iterate_advance_invariant (kept : Tableau m n → Prop)
    (step : ∀ tableau r c, kept tableau → tableau.entering cost = some c → tableau.leaving c = some r →
      kept (tableau.pivot r c)) (at_start : kept tableau) (k : ℕ) : kept ((advance cost)^[k] tableau) := by
  induction k with
  | zero => exact at_start
  | succ k ih =>
    rw [Function.iterate_succ_apply', advance]
    split
    · exact ih
    · split
      · exact ih
      · exact step _ _ _ ih ‹_› ‹_›

theorem Represents.iterate_advance (represents : tableau.Represents origin) (k : ℕ) :
    ((advance cost)^[k] tableau).Represents origin :=
  iterate_advance_invariant (·.Represents origin) (fun _ _ _ kept _ leaves => kept.pivot leaves) represents k

/-! ### One pivot -/

section

variable (canonical : tableau.Canonical) {r : Fin m} {c : Fin n} (nonzero : tableau.entry r c ≠ 0)
include canonical nonzero

theorem Canonical.basicCost_pivot :
    (tableau.pivot r c).basicCost cost
      = tableau.basicCost cost + (tableau.reducedCosts cost).get c * (tableau.side r / tableau.entry r c) := by
  have solves := (pivot_solves_iff nonzero _).mp (canonical.pivot nonzero).solves_basicSolution
  rw [basicCost, solves.cost_eq cost, ← basicCost_eq, sum_mul_basicSolution, sum_eq_single r]
  · rw [pivot_basis, pivot_rhs, if_pos rfl, if_pos rfl]
  · intro i _ other
    rw [pivot_basis, if_neg other, canonical.reducedCost_basic, zero_mul]
  · simp

theorem Canonical.basicSolution_pivot (vanishes : tableau.side r = 0) :
    (tableau.pivot r c).basicSolution = tableau.basicSolution := by
  symm
  apply (canonical.pivot nonzero).eq_basicSolution ((pivot_solves_iff nonzero _).mpr canonical.solves_basicSolution)
  intro j nonbasic
  have not_basic : ¬(tableau.pivot r c).isBasic.get j = true := by simp [nonbasic]
  rw [isBasic_pivot_iff, not_or, not_and_or, not_not] at not_basic
  rcases not_basic.2 with rfl | was_nonbasic
  · rw [canonical.basicSolution_basis, vanishes]
  · exact canonical.basicSolution_nonbasic (by simpa using was_nonbasic)

end

/-! ### Cycles -/

/-- Equal bases: the same columns are basic. -/
def SameBasis (tableau other : Tableau m n) : Prop := ∀ j, tableau.isBasic.get j = other.isBasic.get j

theorem Represents.basicSolution_eq {other : Tableau m n} (represents : tableau.Represents origin)
    (other_represents : other.Represents origin) (same : tableau.SameBasis other) :
    tableau.basicSolution = other.basicSolution := by
  apply other_represents.canonical.eq_basicSolution
  · exact (other_represents.solves_iff _).mpr ((represents.solves_iff _).mp represents.canonical.solves_basicSolution)
  · exact fun j nonbasic => represents.canonical.basicSolution_nonbasic ((same j).trans nonbasic)

/-- Pivots of a minimization that lead back to the basis they started from. -/
structure Cycle (cost : Vector ℚ n) (origin : Tableau m n) (run : ℕ → Tableau m n) (column : ℕ → Fin n) (row : ℕ → Fin m)
    (length : ℕ) : Prop where
  represents : ∀ k, (run k).Represents origin
  enters : ∀ k < length, (run k).entering cost = some (column k)
  leaves : ∀ k < length, (run k).leaving (column k) = some (row k)
  next : ∀ k < length, run (k + 1) = (run k).pivot (row k) (column k)
  returns : (run 0).SameBasis (run length)

namespace Cycle

variable {run : ℕ → Tableau m n} {column : ℕ → Fin n} {row : ℕ → Fin m} {length : ℕ}
  (cycle : Cycle cost origin run column row length) {k : ℕ}

include cycle

theorem entry_pos (inside : k < length) : 0 < (run k).entry (row k) (column k) :=
  (leaving_eq_some (cycle.leaves k inside)).1

theorem basicCost_succ (inside : k < length) : (run (k + 1)).basicCost cost = (run k).basicCost cost
    + ((run k).reducedCosts cost).get (column k) * ((run k).side (row k) / (run k).entry (row k) (column k)) := by
  rw [cycle.next k inside]
  exact (cycle.represents k).canonical.basicCost_pivot (cycle.entry_pos inside).ne'

/-- The cost never grows. -/
theorem basicCost_le (inside : k < length) : (run (k + 1)).basicCost cost ≤ (run k).basicCost cost := by
  rw [cycle.basicCost_succ inside]
  have lowers := (entering_eq_some (cycle.enters k inside)).2.2
  have ratio_nonneg := div_nonneg ((cycle.represents k).nonneg (row k)) (cycle.entry_pos inside).le
  linarith [mul_nonpos_of_nonpos_of_nonneg lowers.le ratio_nonneg]

theorem basicCost_antitone {later : ℕ} (below : k ≤ later) (inside : later ≤ length) :
    (run later).basicCost cost ≤ (run k).basicCost cost := by
  induction later, below using Nat.le_induction with
  | base => exact le_rfl
  | succ later _ ih => exact (cycle.basicCost_le inside).trans (ih (Nat.le_of_succ_le inside))

/-- Back at the same basis, no pivot can have lowered the cost, so every basic column that left was zero. -/
theorem side_eq_zero (inside : k < length) : (run k).side (row k) = 0 := by
  have last : (run length).basicCost cost = (run 0).basicCost cost := by
    rw [basicCost, basicCost, (cycle.represents 0).basicSolution_eq (cycle.represents length) cycle.returns]
  have before := cycle.basicCost_antitone (Nat.zero_le k) inside.le
  have after := cycle.basicCost_antitone (Nat.succ_le_of_lt inside) le_rfl
  have step := cycle.basicCost_succ inside
  have lowers := (entering_eq_some (cycle.enters k inside)).2.2
  have positive := cycle.entry_pos inside
  by_contra nonzero
  have side_pos : 0 < (run k).side (row k) := lt_of_le_of_ne ((cycle.represents k).nonneg _) (Ne.symm nonzero)
  linarith [mul_neg_of_neg_of_pos lowers (div_pos side_pos positive)]

/-- The basic solution stands still. -/
theorem basicSolution_eq (inside : k ≤ length) : (run k).basicSolution = (run 0).basicSolution := by
  induction k with
  | zero => rfl
  | succ k ih =>
    rw [cycle.next k inside, (cycle.represents k).canonical.basicSolution_pivot (cycle.entry_pos inside).ne'
      (cycle.side_eq_zero inside)]
    exact ih (Nat.le_of_succ_le inside)

theorem banned_eq (inside : k ≤ length) : (run k).banned = (run 0).banned := by
  induction k with
  | zero => rfl
  | succ k ih =>
    rw [cycle.next k inside, pivot_banned]
    exact ih (Nat.le_of_succ_le inside)

theorem isBasic_succ_iff (inside : k < length) (j : Fin n) : (run (k + 1)).isBasic.get j = true
    ↔ j = column k ∨ j ≠ (run k).basicColumn (row k) ∧ (run k).isBasic.get j = true := by
  rw [cycle.next k inside]
  exact isBasic_pivot_iff ..

/-- A column that becomes basic has entered in between. -/
theorem exists_enters {j : Fin n} (ordered : first ≤ last) (inside : last ≤ length)
    (nonbasic : (run first).isBasic.get j = false) (basic : (run last).isBasic.get j = true) :
    ∃ k, first ≤ k ∧ k < last ∧ column k = j := by
  induction last, ordered using Nat.le_induction with
  | base =>
    rw [nonbasic] at basic
    cases basic
  | succ last ordered ih =>
    rcases (cycle.isBasic_succ_iff inside j).mp basic with entered | ⟨_, before⟩
    · exact ⟨last, ordered, Nat.lt_succ_self last, entered.symm⟩
    · obtain ⟨k, above, below, column_eq⟩ := ih (Nat.le_of_succ_le inside) before
      exact ⟨k, above, Nat.lt_succ_of_lt below, column_eq⟩

/-- A column that stops being basic has left in between. -/
theorem exists_leaves {j : Fin n} (ordered : first ≤ last) (inside : last ≤ length)
    (basic : (run first).isBasic.get j = true) (nonbasic : (run last).isBasic.get j = false) :
    ∃ k, first ≤ k ∧ k < last ∧ (run k).basicColumn (row k) = j := by
  induction last, ordered using Nat.le_induction with
  | base =>
    rw [basic] at nonbasic
    cases nonbasic
  | succ last ordered ih =>
    cases before : (run last).isBasic.get j with
    | false =>
      obtain ⟨k, above, below, left⟩ := ih (Nat.le_of_succ_le inside) before
      exact ⟨k, above, Nat.lt_succ_of_lt below, left⟩
    | true =>
      refine ⟨last, ordered, Nat.lt_succ_self last, ?_⟩
      by_contra stays
      rw [(cycle.isBasic_succ_iff inside j).mpr (Or.inr ⟨fun same => stays same.symm, before⟩)] at nonbasic
      cases nonbasic

theorem enters_of_changes {j : Fin n} {second : ℕ} (first_inside : first ≤ length) (second_inside : second ≤ length)
    (basic : (run first).isBasic.get j = true) (nonbasic : (run second).isBasic.get j = false) :
    ∃ k < length, column k = j := by
  rcases Nat.le_total second first with earlier | later
  · obtain ⟨k, _, below, column_eq⟩ := cycle.exists_enters earlier first_inside nonbasic basic
    exact ⟨k, below.trans_le first_inside, column_eq⟩
  -- The column is back at the end if it was basic at the start, and has come before otherwise.
  cases at_end : (run length).isBasic.get j with
  | true =>
    obtain ⟨k, _, below, column_eq⟩ := cycle.exists_enters second_inside le_rfl nonbasic at_end
    exact ⟨k, below, column_eq⟩
  | false =>
    obtain ⟨k, _, below, column_eq⟩ := cycle.exists_enters (Nat.zero_le first) first_inside
      ((cycle.returns j).trans at_end) basic
    exact ⟨k, below.trans_le first_inside, column_eq⟩

theorem leaves_of_enters (inside : k < length) : ∃ l < length, (run l).basicColumn (row l) = column k := by
  have nonbasic := (entering_eq_some (cycle.enters k inside)).2.1
  have basic := (cycle.isBasic_succ_iff inside (column k)).mpr (Or.inl rfl)
  cases at_end : (run length).isBasic.get (column k) with
  | false =>
    obtain ⟨l, _, below, left⟩ := cycle.exists_leaves (Nat.succ_le_of_lt inside) le_rfl basic at_end
    exact ⟨l, below, left⟩
  | true =>
    obtain ⟨l, _, below, left⟩ := cycle.exists_leaves (Nat.zero_le k) inside.le ((cycle.returns _).trans at_end) nonbasic
    exact ⟨l, below.trans inside, left⟩

theorem of_enters {l : ℕ} (inside : k < length) (l_inside : l ≤ length) :
    (run l).banned.get (column k) = false ∧ (run l).basicSolution (column k) = 0 := by
  obtain ⟨allowed, nonbasic, _⟩ := entering_eq_some (cycle.enters k inside)
  rw [cycle.banned_eq l_inside, ← cycle.banned_eq inside.le, cycle.basicSolution_eq l_inside, ← cycle.basicSolution_eq inside.le]
  exact ⟨allowed, (cycle.represents k).canonical.basicSolution_nonbasic nonbasic⟩

theorem sum_reducedCosts_direction (k l : ℕ) (c : Fin n) :
    ∑ j, ((run l).reducedCosts cost).get j * (run k).direction c j = ((run k).reducedCosts cost).get c := by
  have canonical := (cycle.represents k).canonical
  have moved : ∀ z, (run k).Solves z → (run l).Solves z := fun z solves =>
    ((cycle.represents l).solves_iff z).mpr (((cycle.represents k).solves_iff z).mp solves)
  have at_rest := (moved _ canonical.solves_basicSolution).cost_eq cost
  have grown := (moved _ (canonical.solves_ray c 1)).cost_eq cost
  rw [cost_ray, one_mul, sum_mul_ray (run k) c 1 ((run l).reducedCosts cost).get, one_mul, basicCost] at grown
  linarith

theorem length_eq_zero : length = 0 := by
  by_contra nonempty
  -- The largest column that enters, where it enters and where it leaves.
  obtain ⟨k, k_mem, largest⟩ := exists_max_image (Finset.range length) column ⟨0, mem_range.mpr (Nat.pos_of_ne_zero nonempty)⟩
  have k_inside := mem_range.mp k_mem
  obtain ⟨l, l_inside, left⟩ := cycle.leaves_of_enters k_inside
  have canonical := (cycle.represents l).canonical
  obtain ⟨_, l_nonbasic, l_lowers⟩ := entering_eq_some (cycle.enters l l_inside)
  obtain ⟨_, k_nonbasic, k_lowers⟩ := entering_eq_some (cycle.enters k k_inside)
  have smaller : ∀ i < length, column i ≠ column k → ((run k).isBasic.get (column i) = false) →
      0 ≤ ((run k).reducedCosts cost).get (column i) := by
    intro i inside different nonbasic
    have below : column i < column k := lt_of_le_of_ne (largest i (mem_range.mpr inside)) different
    exact reducedCost_nonneg_of_lt_entering (cycle.enters k k_inside) below (cycle.of_enters inside k_inside.le).1 nonbasic
  have total := cycle.sum_reducedCosts_direction l k (column l)
  refine absurd total (ne_of_gt (l_lowers.trans_le (sum_nonneg fun j _ => ?_)))
  cases k_basic : (run k).isBasic.get j with
  | true =>
    obtain ⟨i, rfl⟩ := ((cycle.represents k).canonical.marks j).mp k_basic
    rw [(cycle.represents k).canonical.reducedCost_basic, zero_mul]
  | false =>
    cases l_basic : (run l).isBasic.get j with
    | false =>
      rw [direction_of_nonbasic canonical l_basic]
      split
      case isFalse => rw [mul_zero]
      case isTrue is_column =>
        rw [mul_one, is_column]
        exact smaller l l_inside (left ▸ (canonical.basicColumn_ne l_nonbasic (row l)).symm) (is_column ▸ k_basic)
    | true =>
      obtain ⟨i, basic⟩ := (canonical.marks j).mp l_basic
      rw [← basic, direction_basicColumn canonical l_nonbasic]
      by_cases is_row : i = row l
      · rw [is_row, left]
        linarith [mul_neg_of_neg_of_pos k_lowers (cycle.entry_pos l_inside)]
      -- Another basic column that enters on the cycle is zero and smaller, so its entry is not positive.
      obtain ⟨e, e_inside, e_eq⟩ := cycle.enters_of_changes l_inside.le k_inside.le l_basic k_basic
      have different : column e ≠ column k := by
        intro same
        apply is_row
        apply canonical.basis_injective
        rw [basic, left, ← e_eq, same]
      have side_zero : (run l).side i = 0 := by
        rw [← canonical.basicSolution_basis i, basic, ← e_eq]
        exact (cycle.of_enters e_inside l_inside.le).2
      have nonpositive : (run l).entry i (column l) ≤ 0 := by
        by_contra positive
        have tie : (run l).ratio (column l) (row l) = (run l).ratio (column l) i := by
          have row_zero := cycle.side_eq_zero l_inside
          unfold ratio
          unfold side at row_zero side_zero
          rw [Vector.get_eq_getElem] at row_zero side_zero
          simp only [Fin.getElem_fin, row_zero, side_zero, zero_div]
        have least := basicColumn_le_of_leaving (cycle.leaves l l_inside) (not_le.mp positive) tie
        rw [left, basic, ← e_eq] at least
        exact different (le_antisymm (largest e (mem_range.mpr e_inside)) least)
      have reduced := smaller e e_inside different (e_eq ▸ k_basic)
      rw [e_eq, ← basic] at reduced
      exact mul_nonneg reduced (neg_nonneg.mpr nonpositive)

end Cycle

section

variable (represents : tableau.Represents origin)
include represents

/-- No basis comes back: as long as a minimization moves, its tableaus have different bases. -/
theorem Represents.basis_ne_of_lt (below : first < last) (moves : ∀ k < last, Moves cost ((advance cost)^[k] tableau)) :
    ¬ ((advance cost)^[first] tableau).SameBasis ((advance cost)^[last] tableau) := by
  intro same
  have moving : ∀ k < last - first, Moves cost ((advance cost)^[first + k] tableau) := fun k inside => moves _ (by omega)
  obtain ⟨c, r, _⟩ := moving 0 (by omega)
  have : Nonempty (Fin n) := ⟨c⟩
  have : Nonempty (Fin m) := ⟨r⟩
  choose! column row enters leaves using moving
  have cycle : Cycle cost origin (fun k => (advance cost)^[first + k] tableau) column row (last - first) := by
    refine ⟨fun k => represents.iterate_advance _, enters, leaves, fun k inside => ?_, ?_⟩
    · rw [← Nat.add_assoc, Function.iterate_succ_apply']
      simp only [advance, enters k inside, leaves k inside]
    · rwa [Nat.add_sub_cancel' below.le]
  have empty := cycle.length_eq_zero
  omega

/-- A minimization stops after at most as many pivots as there are sets of columns: no column enters any more, or no row
    leaves for the one that does. -/
theorem Represents.optimize_ends (cost : Vector ℚ n) :
    ∃ pivots ≤ Nat.pow 2 n, (∀ k < pivots, Moves cost ((advance cost)^[k] tableau))
      ∧ ((((advance cost)^[pivots] tableau).entering cost = none
          ∧ tableau.optimize cost = .ok ((advance cost)^[pivots] tableau))
        ∨ (∃ c, ((advance cost)^[pivots] tableau).entering cost = some c ∧ ((advance cost)^[pivots] tableau).leaving c = none)
          ∧ tableau.optimize cost = .error (.solver .unbounded)) := by
  rcases optimizeWithin_iterate cost (Nat.pow 2 n + 1) tableau with always | ⟨pivots, below, moving, ended⟩
  swap
  · exact ⟨pivots, Nat.lt_succ_iff.mp below, moving, ended⟩
  -- One pivot more than there are sets of columns would bring a basis back.
  exfalso
  let basisAt (k : Fin (Nat.pow 2 n + 1)) : Finset (Fin n) :=
    Finset.univ.filter fun j => ((advance cost)^[k.val] tableau).isBasic.get j = true
  have fewer : Fintype.card (Finset (Fin n)) < Fintype.card (Fin (Nat.pow 2 n + 1)) := by
    rw [Fintype.card_finset, Fintype.card_fin, Fintype.card_fin]
    exact Nat.lt_succ_self _
  obtain ⟨first, last, different, same⟩ := Fintype.exists_ne_map_eq_of_card_lt basisAt fewer
  have same_basis : ∀ j, ((advance cost)^[first.val] tableau).isBasic.get j
      = ((advance cost)^[last.val] tableau).isBasic.get j := by
    intro j
    rw [Bool.eq_iff_iff]
    simpa [basisAt] using Finset.ext_iff.mp same j
  rcases Nat.lt_or_gt_of_ne (Fin.val_ne_of_ne different) with below | above
  · exact represents.basis_ne_of_lt below (fun k inside => always k (inside.trans last.isLt)) same_basis
  · exact represents.basis_ne_of_lt above (fun k inside => always k (inside.trans first.isLt)) fun j => (same_basis j).symm

/-- What a minimization answers, with what every pivot keeps. -/
theorem Represents.optimize_cases (cost : Vector ℚ n) (kept : Tableau m n → Prop)
    (step : ∀ tableau r c, kept tableau → tableau.entering cost = some c → tableau.leaving c = some r →
      kept (tableau.pivot r c)) (at_start : kept tableau) :
    ∃ last, kept last ∧ ((last.entering cost = none ∧ tableau.optimize cost = .ok last)
      ∨ (∃ c, last.entering cost = some c ∧ last.leaving c = none) ∧ tableau.optimize cost = .error (.solver .unbounded)) := by
  obtain ⟨pivots, _, _, ended⟩ := represents.optimize_ends cost
  exact ⟨_, iterate_advance_invariant kept step at_start pivots, ended⟩

theorem Represents.optimize {final : Tableau m n} (optimized : tableau.optimize cost = .ok final) : final.Represents origin := by
  obtain ⟨pivots, _, _, ⟨_, answer⟩ | ⟨_, refused⟩⟩ := represents.optimize_ends cost
  · cases optimized.symm.trans answer
    exact represents.iterate_advance pivots
  · cases optimized.symm.trans refused

end

/-! ### The tableaus of a problem -/

/-- The tableaus of some rows: the first one, what a pivot of any minimization and the two phases make of one that was
    reached, and the same tableau with any other columns banned. -/
inductive Reachable (structural : ℕ) (rows : List Row) : Tableau rows.length (width structural rows) → Prop
  | start : Reachable structural rows (start structural rows)
  | pivot {tableau : Tableau rows.length (width structural rows)} {cost : Vector ℚ (width structural rows)}
      {c : Fin (width structural rows)} {r : Fin rows.length} (reached : Reachable structural rows tableau)
      (enters : tableau.entering cost = some c) (leaves : tableau.leaving c = some r) :
      Reachable structural rows (tableau.pivot r c)
  | findFeasible {tableau feasible : Tableau rows.length (width structural rows)}
      (reached : Reachable structural rows tableau) (answer : tableau.findFeasible = .ok (some feasible)) :
      Reachable structural rows feasible
  | minimizeAndFix {tableau final : Tableau rows.length (width structural rows)} {objective : Objective}
      (reached : Reachable structural rows tableau) (minimized : tableau.minimizeAndFix objective = .ok final) :
      Reachable structural rows final
  | ban {tableau : Tableau rows.length (width structural rows)} (reached : Reachable structural rows tableau)
      (banned : Vector Bool (width structural rows)) : Reachable structural rows { tableau with banned := banned }

theorem Reachable.represents {structural : ℕ} {rows : List Row} {tableau : Tableau rows.length (width structural rows)}
    (within : ∀ row ∈ rows, row.form.Within structural) (reachable : Reachable structural rows tableau) :
    tableau.Represents (Tableau.start structural rows) := by
  induction reachable with
  | start => exact start_represents within
  | pivot _ _ leaves ih => exact ih.pivot leaves
  | findFeasible _ answer ih =>
    obtain ⟨optimal, optimized, decided⟩ := bind_ok.mp answer
    cases residue : optimal.hasResidue with
    | true => simp [residue, pure_ok] at decided
    | false =>
      simp only [residue, Bool.false_eq_true, if_false, pure_ok, Option.some.injEq] at decided
      exact decided ▸ ((ih.optimize optimized).settle residue).2
  | minimizeAndFix _ minimized ih =>
    simp only [Tableau.minimizeAndFix, bind_ok, pure_ok] at minimized
    obtain ⟨_, _, optimal, optimized, rfl⟩ := minimized
    exact (ih.optimize optimized).ban _
  | ban _ banned ih => exact ih.ban banned

/-- From every tableau of a problem, whatever columns are banned and whichever right-hand sides are zero, a minimization of
    any cost makes finitely many pivots, and answers with the last tableau or that the cost is unbounded. -/
theorem optimize_never_cycles {structural : ℕ} {rows : List Row} (within : ∀ row ∈ rows, row.form.Within structural)
    {tableau : Tableau rows.length (width structural rows)} (reachable : Reachable structural rows tableau)
    (cost : Vector ℚ (width structural rows)) :
    ∃ pivots ≤ Nat.pow 2 (width structural rows), (∀ k < pivots, Moves cost ((advance cost)^[k] tableau))
      ∧ ¬ Moves cost ((advance cost)^[pivots] tableau) ∧ (tableau.optimize cost = .ok ((advance cost)^[pivots] tableau)
        ∨ tableau.optimize cost = .error (.solver .unbounded)) := by
  obtain ⟨pivots, bound, moving, ended⟩ := (reachable.represents within).optimize_ends cost
  refine ⟨pivots, bound, moving, ?_, ended.imp And.right And.right⟩
  rintro ⟨c, r, enters, leaves⟩
  rcases ended with ⟨none_enters, _⟩ | ⟨⟨column, column_enters, none_leaves⟩, _⟩
  · rw [none_enters] at enters
    cases enters
  · rw [column_enters, Option.some.injEq] at enters
    rw [enters, leaves] at none_leaves
    cases none_leaves

/-- Phase one on two rows that meet in the origin, with the first column banned. -/
theorem optimize_never_cycles_origin :
    let rows : List Row := [{ sense := .nonnegative, form := { terms := [(0, 1), (1, -1)], constant := 0 } },
      { sense := .zero, form := { terms := [(0, 1), (1, 2)], constant := 0 } }]
    let banned : Vector Bool (width 2 rows) := #v[true, false, false, false, false]
    let tableau : Tableau rows.length (width 2 rows) := { Tableau.start 2 rows with banned := banned }
    Reachable 2 rows tableau ∧ ∃ pivots ≤ Nat.pow 2 (width 2 rows),
      (∀ k < pivots, Moves tableau.artificialCost ((advance tableau.artificialCost)^[k] tableau))
        ∧ ¬ Moves tableau.artificialCost ((advance tableau.artificialCost)^[pivots] tableau)
        ∧ (tableau.optimize tableau.artificialCost = .ok ((advance tableau.artificialCost)^[pivots] tableau)
          ∨ tableau.optimize tableau.artificialCost = .error (.solver .unbounded)) :=
  ⟨.ban .start _, optimize_never_cycles (by decide) (.ban .start _) _⟩

end Tableau

end Linear

end AffineSchedule
