import AffineSchedule.Proofs.Linear.Tableau

namespace AffineSchedule

open Checked Finset

variable {σ : Assignment}
open List hiding Vector

namespace Linear

namespace Tableau

variable {m n : ℕ}

/-! ### Tableaus that stand for the same equations -/

/-- The tableau is canonical with non-negative right-hand sides, and has the solutions of another one. -/
structure Represents (tableau origin : Tableau m n) : Prop where
  canonical : tableau.Canonical
  nonneg : ∀ i : Fin m, 0 ≤ tableau.side i
  solves_iff : ∀ z : Fin n → ℚ, tableau.Solves z ↔ origin.Solves z
  firstArtificial : tableau.firstArtificial = origin.firstArtificial

namespace Represents

section

variable {tableau origin : Tableau m n} (represents : tableau.Represents origin)
include represents

/-- A pivot of a minimization. -/
theorem pivot {r : Fin m} {c : Fin n} (leaves : tableau.leaving c = some r) : (tableau.pivot r c).Represents origin := by
  obtain ⟨positive, least⟩ := leaving_eq_some leaves
  exact {
    canonical := represents.canonical.pivot positive.ne'
    nonneg := pivot_rhs_nonneg represents.nonneg positive least
    solves_iff := fun z => (pivot_solves_iff positive.ne' z).trans (represents.solves_iff z)
    firstArtificial := represents.firstArtificial }

theorem pivot_of_side_eq_zero {r : Fin m} {c : Fin n} (vanishes : tableau.side r = 0) (nonzero : tableau.entry r c ≠ 0) :
    (tableau.pivot r c).Represents origin := by
  refine {
    canonical := represents.canonical.pivot nonzero
    nonneg := fun i => ?_
    solves_iff := fun z => (pivot_solves_iff nonzero z).trans (represents.solves_iff z)
    firstArtificial := represents.firstArtificial }
  rw [pivot_rhs_of_rhs_eq_zero vanishes i]
  exact represents.nonneg i

/-- The banned columns do not matter. -/
theorem ban (banned : Vector Bool n) :
    Represents { tableau with banned := banned } origin :=
  ⟨⟨represents.canonical.unit, represents.canonical.marks⟩, represents.nonneg, represents.solves_iff,
    represents.firstArtificial⟩

end

end Represents

/-! ### Optimality -/

/-- When no column enters and the banned columns are zero, the reduced costs of a non-negative point count against it. -/
theorem Canonical.reducedCost_mul_nonneg {tableau : Tableau m n} (canonical : tableau.Canonical) {cost : Vector ℚ n}
    (none_enters : tableau.entering cost = none) {z : Fin n → ℚ} (nonneg : ∀ j, 0 ≤ z j)
    (unbanned : ∀ j, tableau.banned.get j = true → z j = 0) (j : Fin n) : 0 ≤ (tableau.reducedCosts cost).get j * z j := by
  cases basic : tableau.isBasic.get j with
  | true =>
    obtain ⟨k, rfl⟩ := (canonical.marks j).mp basic
    rw [canonical.reducedCost_basic cost k, zero_mul]
  | false =>
    cases allowed : tableau.banned.get j with
    | true => rw [unbanned j allowed, mul_zero]
    | false => exact mul_nonneg (reducedCost_nonneg_of_entering_eq_none none_enters allowed basic) (nonneg j)

/-! ### Phase one -/

theorem get_artificialCost (tableau : Tableau m n) (j : Fin n) :
    tableau.artificialCost.get j = if tableau.firstArtificial ≤ j.val then 1 else 0 := by
  rw [artificialCost, Vector.get_ofFn]

/-- Whether some artificial column of the basis is positive. -/
theorem hasResidue_eq_true_iff {tableau : Tableau m n} : tableau.hasResidue = true ↔
      ∃ i : Fin m, tableau.firstArtificial ≤ (tableau.basicColumn i).val ∧ 0 < tableau.side i := by
  simp [hasResidue, basicColumn, side, Vector.get_eq_getElem]

theorem not_solves_of_hasResidue {tableau origin : Tableau m n} (represents : tableau.Represents origin)
    (none_enters : tableau.entering origin.artificialCost = none) (residue : tableau.hasResidue = true)
    (none_banned : ∀ j : Fin n, tableau.banned.get j = false) {z : Fin n → ℚ} (nonneg : ∀ j, 0 ≤ z j)
    (no_artificial : ∀ j : Fin n, origin.firstArtificial ≤ j.val → z j = 0) : ¬ origin.Solves z := by
  intro solves
  have costless : ∑ j : Fin n, origin.artificialCost.get j * z j = 0 := by
    apply Finset.sum_eq_zero
    intro j _
    rw [get_artificialCost]
    by_cases artificial : origin.firstArtificial ≤ j.val
    · rw [no_artificial j artificial, mul_zero]
    · rw [if_neg artificial, zero_mul]
  have reduced_nonneg : 0 ≤ ∑ j, (tableau.reducedCosts origin.artificialCost).get j * z j :=
    sum_nonneg fun j _ => represents.canonical.reducedCost_mul_nonneg none_enters nonneg
      (fun j banned => absurd banned (by simp [none_banned j])) j
  rw [((represents.solves_iff z).mpr solves).cost_eq] at costless
  obtain ⟨i, artificial, positive⟩ := hasResidue_eq_true_iff.mp residue
  have weight_nonneg : ∀ k : Fin m, 0 ≤ origin.artificialCost.get (tableau.basicColumn k) * tableau.side k := by
    intro k
    apply mul_nonneg _ (represents.nonneg k)
    rw [get_artificialCost]
    by_cases artificial : origin.firstArtificial ≤ (tableau.basicColumn k).val <;> simp [artificial]
  have counted : 0 < origin.artificialCost.get (tableau.basicColumn i) * tableau.side i := by
    rw [get_artificialCost, if_pos (represents.firstArtificial ▸ artificial), one_mul]
    exact positive
  have total := single_le_sum (fun k _ => weight_nonneg k) (mem_univ i)
  linarith

/-- No artificial column is positive: those in the basis stand in rows without any other entry, and none
    may enter. -/
structure Settled (tableau : Tableau m n) : Prop where
  side_eq_zero : ∀ i : Fin m, tableau.firstArtificial ≤ (tableau.basicColumn i).val → tableau.side i = 0
  entry_eq_zero : ∀ i : Fin m, tableau.firstArtificial ≤ (tableau.basicColumn i).val →
    ∀ j : Fin n, j.val < tableau.firstArtificial → tableau.entry i j = 0
  banned : ∀ j : Fin n, tableau.firstArtificial ≤ j.val → tableau.banned.get j = true

theorem Settled.structural {tableau : Tableau m n} (settled : tableau.Settled) {c : Fin n}
    (allowed : tableau.banned.get c = false) : c.val < tableau.firstArtificial := by
  by_contra artificial
  rw [settled.banned c (not_lt.mp artificial)] at allowed
  cases allowed

/-- Only a row other than the pivot row has an artificial column after a pivot on a structural one, and had it before. -/
theorem artificial_of_pivot {tableau : Tableau m n} {i r : Fin m} {c : Fin n} (structural : c.val < tableau.firstArtificial)
    (artificial : tableau.firstArtificial ≤ ((tableau.pivot r c).basicColumn i).val) :
    i ≠ r ∧ tableau.firstArtificial ≤ (tableau.basicColumn i).val := by
  rw [pivot_basis] at artificial
  by_cases same : i = r
  · rw [if_pos same] at artificial
    omega
  · rw [if_neg same] at artificial
    exact ⟨same, artificial⟩

/-- A pivot on a column that may enter keeps the tableau settled. -/
theorem Settled.pivot {tableau : Tableau m n} (settled : tableau.Settled) {r : Fin m} {c : Fin n}
    (allowed : tableau.banned.get c = false) : (tableau.pivot r c).Settled := by
  have structural := settled.structural allowed
  constructor
  · intro i artificial
    obtain ⟨other, was_artificial⟩ := artificial_of_pivot structural artificial
    rw [pivot_rhs, if_neg other, settled.entry_eq_zero i was_artificial c structural, zero_mul, sub_zero]
    exact settled.side_eq_zero i was_artificial
  · intro i artificial j inside
    obtain ⟨other, was_artificial⟩ := artificial_of_pivot structural artificial
    rw [pivot_entry_of_clear other (settled.entry_eq_zero i was_artificial c structural)]
    exact settled.entry_eq_zero i was_artificial j inside
  · exact settled.banned

theorem Settled.basicSolution_artificial {tableau : Tableau m n} (settled : tableau.Settled) {j : Fin n}
    (artificial : tableau.firstArtificial ≤ j.val) : tableau.basicSolution j = 0 := by
  apply Finset.sum_eq_zero
  intro i _
  by_cases basic : tableau.basicColumn i = j
  · rw [if_pos basic]
    exact settled.side_eq_zero i (basic ▸ artificial)
  · rw [if_neg basic]

/-- The rows among the given ones whose basic column is artificial have no other entry, and no artificial
    column of the basis is positive. -/
structure DrivenOut (tableau : Tableau m n) (rows : List (Fin m)) : Prop where
  side_eq_zero : ∀ i : Fin m, tableau.firstArtificial ≤ (tableau.basicColumn i).val → tableau.side i = 0
  entry_eq_zero : ∀ i ∈ rows, tableau.firstArtificial ≤ (tableau.basicColumn i).val →
    ∀ j : Fin n, j.val < tableau.firstArtificial → tableau.entry i j = 0

/-- Exchanging the artificial column of one more row. -/
theorem DrivenOut.driveOut {tableau origin : Tableau m n} {rows : List (Fin m)}
    (driven : tableau.DrivenOut rows) (represents : tableau.Represents origin) (r : Fin m) :
    (tableau.driveOut r).DrivenOut (rows ++ [r]) ∧ (tableau.driveOut r).Represents origin := by
  unfold Tableau.driveOut
  by_cases structural : tableau.basis[r].val < tableau.firstArtificial
  · rw [if_pos structural]
    refine ⟨⟨driven.side_eq_zero, ?_⟩, represents⟩
    intro i i_mem artificial
    rcases mem_append.mp i_mem with old | new
    · exact driven.entry_eq_zero i old artificial
    · rw [List.mem_singleton.mp new] at artificial
      exact absurd structural (not_lt.mpr artificial)
  · rw [if_neg structural]
    have vanishes : tableau.side r = 0 := driven.side_eq_zero r (not_lt.mp structural)
    dsimp only
    split
    next none_found =>
      refine ⟨⟨driven.side_eq_zero, ?_⟩, represents⟩
      intro i i_mem artificial j inside
      rcases mem_append.mp i_mem with old | new
      · exact driven.entry_eq_zero i old artificial j inside
      · have refused := find?_eq_none.mp none_found j (mem_finRange j)
        rw [List.mem_singleton.mp new]
        simpa [inside, entry, Vector.get_eq_getElem] using refused
    next column found =>
      have passed := find?_some found
      simp only [Bool.and_eq_true, decide_eq_true_eq] at passed
      obtain ⟨column_inside, nonzero⟩ := passed
      refine ⟨⟨?_, ?_⟩, represents.pivot_of_side_eq_zero vanishes nonzero⟩
      · intro i artificial
        rw [pivot_rhs_of_rhs_eq_zero vanishes]
        exact driven.side_eq_zero i (artificial_of_pivot column_inside artificial).2
      · intro i i_mem artificial j inside
        obtain ⟨other, was_artificial⟩ := artificial_of_pivot column_inside artificial
        rcases mem_append.mp i_mem with old | new
        · rw [pivot_entry_of_clear other (driven.entry_eq_zero i old was_artificial column column_inside)]
          exact driven.entry_eq_zero i old was_artificial j inside
        · exact absurd (List.mem_singleton.mp new) other

theorem driveOut_banned (tableau : Tableau m n) (r : Fin m) : (tableau.driveOut r).banned = tableau.banned := by
  unfold driveOut
  split
  · rfl
  · dsimp only
    split <;> rfl

theorem foldl_driveOut_banned (rows : List (Fin m)) (tableau : Tableau m n) :
    (rows.foldl driveOut tableau).banned = tableau.banned := by
  induction rows generalizing tableau with
  | nil => rfl
  | cons r later ih => rw [foldl_cons, ih, driveOut_banned]

theorem DrivenOut.foldl_driveOut {origin : Tableau m n} (later : List (Fin m)) :
    ∀ {tableau : Tableau m n} {rows : List (Fin m)}, tableau.DrivenOut rows → tableau.Represents origin →
      (later.foldl Tableau.driveOut tableau).DrivenOut (rows ++ later)
        ∧ (later.foldl Tableau.driveOut tableau).Represents origin := by
  induction later with
  | nil =>
    intro tableau rows driven represents
    simpa using ⟨driven, represents⟩
  | cons r rest ih =>
    intro tableau rows driven represents
    obtain ⟨driven_next, represents_next⟩ := driven.driveOut represents r
    rw [foldl_cons, append_cons]
    exact ih driven_next represents_next

/-- What phase one makes of an optimum without residue. -/
theorem Represents.settle {tableau origin : Tableau m n} (represents : tableau.Represents origin)
    (no_residue : tableau.hasResidue = false) : ((List.finRange m).foldl driveOut tableau).banArtificial.Settled
      ∧ ((List.finRange m).foldl driveOut tableau).banArtificial.Represents origin := by
  have at_start : tableau.DrivenOut [] := by
    refine ⟨fun i artificial => le_antisymm (not_lt.mp fun positive => ?_) (represents.nonneg i), by simp⟩
    rw [hasResidue_eq_true_iff.mpr ⟨i, artificial, positive⟩] at no_residue
    cases no_residue
  obtain ⟨driven, driven_represents⟩ := DrivenOut.foldl_driveOut (List.finRange m) at_start represents
  refine ⟨⟨driven.side_eq_zero, fun i => driven.entry_eq_zero i (by simp), fun j artificial => ?_⟩, driven_represents.ban _⟩
  have is_artificial : ((List.finRange m).foldl driveOut tableau).firstArtificial ≤ j.val := artificial
  simp [banArtificial, Vector.get_eq_getElem, is_artificial]

/-! ### Reading the answer off -/

theorem Canonical.value_eq_basicSolution {tableau : Tableau m n} (canonical : tableau.Canonical)
    (j : Fin n) : tableau.value j.val = tableau.basicSolution j := by
  -- the fold keeps the last row whose basic column is the one asked for
  have general : ∀ (rows : List (Fin m)) (found : ℚ),
      rows.foldl (fun found i => if tableau.basis[i].val = j.val then tableau.rhs[i] else found) found
        = if ∃ i ∈ rows, tableau.basicColumn i = j then tableau.basicSolution j else found := by
    intro rows
    induction rows with
    | nil => simp
    | cons i later ih =>
      intro found
      rw [foldl_cons, ih]
      by_cases basic : tableau.basicColumn i = j
      · have here : tableau.basis[i].val = j.val := congrArg Fin.val basic
        have side_eq : tableau.rhs[i] = tableau.basicSolution j := by
          rw [← basic]
          exact (canonical.basicSolution_basis i).symm
        rw [if_pos here, side_eq]
        simp [basic]
      · have elsewhere : ¬ tableau.basis[i].val = j.val := fun same => basic (Fin.ext same)
        rw [if_neg elsewhere]
        simp [basic]
  unfold value
  rw [general]
  by_cases basic : ∃ i ∈ List.finRange m, tableau.basicColumn i = j
  · rw [if_pos basic]
  · rw [if_neg basic, basicSolution, Finset.sum_eq_zero]
    intro i _
    rw [if_neg]
    exact fun same => basic ⟨i, mem_finRange i, same⟩

/-! ### The first tableau -/

/-- The assignment that extends the columns of a tableau by zero. -/
def extendByZero (z : Fin n → ℚ) : Assignment := fun column => if inside : column < n then z ⟨column, inside⟩ else 0

theorem extendByZero_of_lt (z : Fin n → ℚ) {column : ℕ} (inside : column < n) :
    extendByZero z column = z ⟨column, inside⟩ := dif_pos inside

theorem extendByZero_nonneg {z : Fin n → ℚ} (nonneg : ∀ j, 0 ≤ z j) (column : ℕ) : 0 ≤ extendByZero z column := by
  by_cases inside : column < n
  · rw [extendByZero_of_lt z inside]
    exact nonneg _
  · rw [extendByZero, dif_neg inside]

/-- Replacing one coefficient changes a weighted sum by the difference. -/
theorem sum_set_mul (dense : Vector ℚ n) (k : Fin n) (coefficient : ℚ) (z : Fin n → ℚ) :
    ∑ j : Fin n, (dense.set k.val coefficient k.isLt).get j * z j
      = ∑ j : Fin n, dense.get j * z j + (coefficient - dense.get k) * z k := by
  have changed : ∀ j : Fin n, (dense.set k.val coefficient k.isLt).get j * z j
      = dense.get j * z j + if j = k then (coefficient - dense.get k) * z k else 0 := by
    intro j
    simp only [Vector.get_eq_getElem, Vector.getElem_set]
    by_cases same : j = k
    · subst same
      rw [if_pos rfl, if_pos rfl]
      ring
    · rw [if_neg fun same_val => same (Fin.ext same_val.symm), if_neg same, add_zero]
  simp only [changed, sum_add_distrib, sum_ite_eq', mem_univ, if_true]

/-- The dense form of a list of terms has the same worth. -/
theorem sum_scatter_mul (terms : List (ℕ × ℤ)) (z : Fin n → ℚ) :
    ∑ j : Fin n, (scatter n terms).get j * z j = Form.termsValue terms (extendByZero z) := by
  have general : ∀ (terms : List (ℕ × ℤ)) (dense : Vector ℚ n),
      ∑ j : Fin n, (terms.foldl (fun (dense : Vector ℚ n) (term : ℕ × ℤ) =>
          if inside : term.1 < n then dense.set term.1 (dense[term.1] + (term.2 : ℚ)) inside else dense)
          dense).get j * z j
        = ∑ j : Fin n, dense.get j * z j + Form.termsValue terms (extendByZero z) := by
    intro terms
    induction terms with
    | nil => simp
    | cons term later ih =>
      intro dense
      rw [foldl_cons, ih, Form.termsValue_cons]
      by_cases inside : term.1 < n
      · rw [dif_pos inside, extendByZero_of_lt z inside,
          sum_set_mul dense ⟨term.1, inside⟩ (dense[term.1] + (term.2 : ℚ)) z, Vector.get_eq_getElem]
        ring
      · rw [dif_neg inside, extendByZero, dif_neg inside]
        ring
  have whole := general terms (Vector.replicate n 0)
  simp only [Vector.get_eq_getElem, Vector.getElem_replicate, zero_mul, sum_const_zero, zero_add] at whole
  exact whole

/-- A column that no term names has the coefficient zero. -/
theorem scatter_eq_zero {terms : List (ℕ × ℤ)} {j : Fin n} (absent : ∀ term ∈ terms, term.1 ≠ j.val) :
    (scatter n terms).get j = 0 := by
  have picked := sum_scatter_mul terms (Pi.single j 1)
  simp only [Pi.single_apply, mul_ite, mul_one, mul_zero, sum_ite_eq', mem_univ, if_true] at picked
  rw [picked, Form.termsValue]
  apply List.sum_eq_zero
  intro worth worth_mem
  obtain ⟨term, term_mem, rfl⟩ := List.mem_map.mp worth_mem
  have elsewhere : extendByZero (Pi.single j (1 : ℚ)) term.1 = 0 := by
    by_cases inside : term.1 < n
    · rw [extendByZero_of_lt _ inside, Pi.single_apply, if_neg]
      exact fun same => absent term term_mem (congrArg Fin.val same)
    · rw [extendByZero, dif_neg inside]
  rw [elsewhere, mul_zero]

/-- The factor that makes the right-hand side of a row non-negative. -/
def startSign (row : Row) : ℚ := if 0 < row.form.constant then -1 else 1

theorem startSign_mul_constant (row : Row) : startSign row * row.form.constant = -((row.form.constant.natAbs : ℤ) : ℚ) := by
  unfold startSign
  by_cases positive : 0 < row.form.constant
  · rw [if_pos positive, Int.natAbs_of_nonneg positive.le, neg_one_mul]
  · rw [if_neg positive, one_mul, Int.ofNat_natAbs_of_nonpos (not_lt.mp positive), Int.cast_neg, neg_neg]

theorem startSign_ne_zero (row : Row) : startSign row ≠ 0 := by
  unfold startSign
  by_cases positive : 0 < row.form.constant <;> simp [positive]

/-- The entries of a row at the start, before the sign is chosen. -/
theorem get_startEntries (slack : Fin n) (row : Row) (j : Fin n) : (startEntries n slack.val row).get j
      = startSign row * (if row.sense = .nonnegative then (scatter n row.form.terms).set slack.val (-1) slack.isLt
          else scatter n row.form.terms).get j := by
  simp only [startEntries, startSign, slack.isLt, dif_pos]
  by_cases positive : 0 < row.form.constant
  · simp [positive, Vector.get_eq_getElem]
  · simp [positive, Vector.get_eq_getElem]

theorem sum_startEntries_mul {row : Row} {slack : Fin n} (absent : ∀ term ∈ row.form.terms, term.1 ≠ slack.val)
    (z : Fin n → ℚ) : ∑ j : Fin n, (startEntries n slack.val row).get j * z j
      = startSign row * (Form.termsValue row.form.terms (extendByZero z)
          - if row.sense = .nonnegative then z slack else 0) := by
  simp only [get_startEntries, mul_assoc, ← mul_sum]
  congr 1
  by_cases inequality : row.sense = .nonnegative
  · simp only [inequality, if_true]
    rw [sum_set_mul, sum_scatter_mul, scatter_eq_zero absent]
    ring
  · simp only [inequality, if_false]
    rw [sum_scatter_mul, sub_zero]

theorem startEntries_eq_zero {row : Row} {slack j : Fin n} (absent : ∀ term ∈ row.form.terms, term.1 ≠ j.val)
    (not_slack : row.sense = .nonnegative → j ≠ slack) : (startEntries n slack.val row).get j = 0 := by
  rw [get_startEntries]
  have clear := scatter_eq_zero absent
  by_cases inequality : row.sense = .nonnegative
  · have other : slack.val ≠ j.val := fun same => not_slack inequality (Fin.ext same.symm)
    simp only [inequality, if_true, Vector.get_eq_getElem, Vector.getElem_set, other, if_false]
    rw [Vector.get_eq_getElem] at clear
    rw [clear, mul_zero]
  · simp only [inequality, if_false, clear, mul_zero]

section Start

variable {structural : ℕ} {rows : List Row}

theorem slackCount_take_le (rows : List Row) (count : ℕ) : slackCount (rows.take count) ≤ slackCount rows :=
  ((take_sublist count rows).filter _).length_le

/-- An inequality has a slack column of its own. -/
theorem slackCount_take_lt {i : ℕ} (inside : i < rows.length) (inequality : rows[i].sense = .nonnegative) :
    slackCount (rows.take i) < slackCount rows := by
  have next : slackCount (rows.take (i + 1)) = slackCount (rows.take i) + 1 := by
    rw [take_succ_eq_append_getElem inside, slackCount, filter_append, length_append,
      List.filter_cons_of_pos (by simp [inequality]), slackCount, filter_nil, length_singleton]
  have bound := slackCount_take_le rows (i + 1)
  omega

/-- The slack column of a row, if the row is an inequality. -/
def slackColumn (structural : ℕ) (rows : List Row) (i : Fin rows.length) : Fin (width structural rows) :=
  ⟨structural + slackCount (rows.take i.val), by
    have := slackCount_take_le rows i.val
    have := i.isLt
    unfold width
    omega⟩

theorem artificialColumn_lt (structural : ℕ) (rows : List Row) (i : Fin rows.length) :
    structural + slackCount rows + i.val < width structural rows := Nat.add_lt_add_left i.isLt _

/-- The artificial column of a row. -/
def artificialColumn (structural : ℕ) (rows : List Row) (i : Fin rows.length) : Fin (width structural rows) :=
  ⟨structural + slackCount rows + i.val, artificialColumn_lt structural rows i⟩

theorem start_entry (i : Fin rows.length) (j : Fin (width structural rows)) : (start structural rows).entry i j
      = ((startEntries (width structural rows) (slackColumn structural rows i).val (rows.get i)).set
          (artificialColumn structural rows i).val 1 (artificialColumn structural rows i).isLt).get j := by
  simp [start, entry, slackColumn, artificialColumn, Vector.get_eq_getElem]

theorem start_side (i : Fin rows.length) : (start structural rows).side i = (((rows.get i).form.constant.natAbs : ℤ) : ℚ) := by
  simp [start, side, Vector.get_eq_getElem]

theorem start_basicColumn (i : Fin rows.length) :
    (start structural rows).basicColumn i = artificialColumn structural rows i := by
  simp [start, basicColumn, artificialColumn, Vector.get_eq_getElem]

theorem start_banned (j : Fin (width structural rows)) : (start structural rows).banned.get j = false := by
  simp [start, Vector.get_eq_getElem]

variable (within : ∀ row ∈ rows, row.form.Within structural)

include within

/-- No row has an entry in an artificial column before its own one is put in. -/
theorem startEntries_artificial (i : Fin rows.length) {j : Fin (width structural rows)}
    (artificial : structural + slackCount rows ≤ j.val) :
    (startEntries (width structural rows) (slackColumn structural rows i).val (rows.get i)).get j = 0 := by
  apply startEntries_eq_zero
  · intro term term_mem
    have bound := within (rows.get i) (get_mem rows i) term term_mem
    omega
  · intro inequality same
    have bound := slackCount_take_lt i.isLt inequality
    have same_val := congrArg Fin.val same
    simp only [slackColumn] at same_val
    omega

theorem start_sum (i : Fin rows.length) (z : Fin (width structural rows) → ℚ) : ∑ j, (start structural rows).entry i j * z j
      = startSign (rows.get i) * (Form.termsValue (rows.get i).form.terms (extendByZero z)
          - if (rows.get i).sense = .nonnegative then z (slackColumn structural rows i) else 0)
        + z (artificialColumn structural rows i) := by
  simp only [start_entry]
  rw [sum_set_mul, startEntries_artificial within i (by simp [artificialColumn]), sum_startEntries_mul]
  · ring
  · intro term term_mem
    have bound := within (rows.get i) (get_mem rows i) term term_mem
    simp only [slackColumn]
    omega

theorem start_equation_iff (i : Fin rows.length) {z : Fin (width structural rows) → ℚ}
    (no_artificial : z (artificialColumn structural rows i) = 0) :
    ∑ j, (start structural rows).entry i j * z j = (start structural rows).side i ↔ (rows.get i).form.value (extendByZero z)
          = if (rows.get i).sense = .nonnegative then z (slackColumn structural rows i) else 0 := by
  rw [start_sum within, no_artificial, add_zero, start_side, Form.value]
  have sign := startSign_mul_constant (rows.get i)
  have nonzero := startSign_ne_zero (rows.get i)
  constructor
  · intro equation
    apply mul_left_cancel₀ nonzero
    linarith
  · intro equal_slack
    rw [← equal_slack]
    linarith

/-- The first tableau is canonical with non-negative right-hand sides. -/
theorem start_represents : (start structural rows).Represents (start structural rows) := by
  refine ⟨⟨fun i k => ?_, fun j => ?_⟩, fun i => ?_, fun z => Iff.rfl, rfl⟩
  · rw [start_entry, start_basicColumn, Vector.get_eq_getElem, Vector.getElem_set]
    by_cases same : i = k
    · rw [same, if_pos rfl, if_pos rfl]
    · have other : ¬ (artificialColumn structural rows i).val = (artificialColumn structural rows k).val := by
        simp only [artificialColumn]
        have different : i.val ≠ k.val := fun same_val => same (Fin.ext same_val)
        omega
      have clear := startEntries_artificial within i (j := artificialColumn structural rows k) (by simp [artificialColumn])
      rw [if_neg other, if_neg same]
      exact clear
  · simp only [start_basicColumn]
    have marked : (start structural rows).isBasic.get j = decide (structural + slackCount rows ≤ j.val) := by
      simp [start, Vector.get_eq_getElem]
    rw [marked, decide_eq_true_eq]
    constructor
    · intro artificial
      have bound : j.val < structural + slackCount rows + rows.length := j.isLt
      exact ⟨⟨j.val - (structural + slackCount rows), by omega⟩, Fin.ext (by simp [artificialColumn]; omega)⟩
    · rintro ⟨i, rfl⟩
      simp [artificialColumn]
  · rw [start_side]
    exact_mod_cast Int.natCast_nonneg _

end Start

end Tableau

/-! ### Lexicographic minimization -/

section Lexmin

open Tableau

variable {structural : ℕ} {rows : List Row} {objectives : List Objective}

theorem satisfies_of_start_solves (within : ∀ row ∈ rows, row.form.Within structural)
    {z : Fin (width structural rows) → ℚ} (solves : (start structural rows).Solves z) (nonneg : ∀ j, 0 ≤ z j)
    (no_artificial : ∀ j : Fin (width structural rows), structural + slackCount rows ≤ j.val → z j = 0) :
    Satisfies (extendByZero z) rows := by
  refine ⟨extendByZero_nonneg nonneg, fun row row_mem => ?_⟩
  obtain ⟨index, inside, rfl⟩ := getElem_of_mem row_mem
  let i : Fin rows.length := ⟨index, inside⟩
  have value_eq := (start_equation_iff within i (no_artificial _ (by simp [artificialColumn]))).mp (solves i)
  unfold Row.Holds
  cases sense : rows[index].sense with
  | nonnegative =>
    have is_inequality : (rows.get i).sense = .nonnegative := sense
    rw [if_pos is_inequality] at value_eq
    exact (nonneg _).trans_eq value_eq.symm
  | zero =>
    have is_equality : (rows.get i).sense = .zero := sense
    rw [if_neg (by rw [is_equality]; decide)] at value_eq
    exact value_eq

/-- The columns of the first tableau at an assignment that satisfies the rows: every slack column has the
    value of its inequality, and the artificial columns are zero. -/
def startColumns (structural : ℕ) (rows : List Row) (σ : Assignment) (j : Fin (width structural rows)) : ℚ :=
  if j.val < structural then σ j.val
  else if j.val < structural + slackCount rows then
    (((rows.filter (·.sense = .nonnegative))[j.val - structural]?).map (·.form.value σ)).getD 0
  else 0

theorem getElem?_filter_slackCount {i : ℕ} (inside : i < rows.length) (inequality : rows[i].sense = .nonnegative) :
    (rows.filter (·.sense = .nonnegative))[slackCount (rows.take i)]? = some rows[i] := by
  have split : rows.filter (·.sense = .nonnegative) = (rows.take i).filter (·.sense = .nonnegative)
        ++ rows[i] :: (rows.drop (i + 1)).filter (·.sense = .nonnegative) := by
    conv_lhs => rw [← take_append_drop i rows, drop_eq_getElem_cons inside]
    rw [filter_append, List.filter_cons_of_pos (by simp [inequality])]
  rw [split, slackCount, getElem?_append_right le_rfl, Nat.sub_self, getElem?_cons_zero]

theorem start_solves_of_satisfies (within : ∀ row ∈ rows, row.form.Within structural) (satisfied : Satisfies σ rows) :
    (start structural rows).Solves (startColumns structural rows σ) := by
  intro i
  have no_artificial : startColumns structural rows σ (artificialColumn structural rows i) = 0 := by
    rw [startColumns, if_neg (by simp only [artificialColumn]; omega), if_neg (by simp only [artificialColumn]; omega)]
  rw [start_equation_iff within i no_artificial]
  have row_mem : rows.get i ∈ rows := get_mem rows i
  have same_value : (rows.get i).form.value (extendByZero (startColumns structural rows σ)) = (rows.get i).form.value σ := by
    apply Form.value_congr (within _ row_mem)
    intro column inside
    have inside_width : column < width structural rows := by
      unfold width
      omega
    rw [extendByZero_of_lt _ inside_width, startColumns, if_pos inside]
  rw [same_value]
  have holds := satisfied.holds _ row_mem
  by_cases inequality : (rows.get i).sense = .nonnegative
  · have bound := slackCount_take_lt i.isLt inequality
    rw [if_pos inequality, startColumns, if_neg (by simp [slackColumn]), if_pos (by simpa [slackColumn] using bound)]
    have found := getElem?_filter_slackCount i.isLt inequality
    simp only [slackColumn, Nat.add_sub_cancel_left]
    rw [found]
    rfl
  · have equality : (rows.get i).sense = .zero := by
      cases sense : (rows.get i).sense with
      | nonnegative => exact absurd sense inequality
      | zero => rfl
    rw [if_neg inequality]
    unfold Row.Holds at holds
    rw [equality] at holds
    exact holds

theorem startColumns_nonneg (satisfied : Satisfies σ rows) (j : Fin (width structural rows)) :
    0 ≤ startColumns structural rows σ j := by
  unfold startColumns
  split_ifs with is_structural is_slack
  · exact satisfied.nonneg j.val
  · cases found : (rows.filter (·.sense = .nonnegative))[j.val - structural]? with
    | none => simp
    | some row =>
      have row_mem := mem_of_getElem? found
      simp only [List.mem_filter, decide_eq_true_eq] at row_mem
      have holds := satisfied.holds row row_mem.1
      rw [Row.Holds, row_mem.2] at holds
      exact holds
  · exact le_rfl

end Lexmin

end Linear

end AffineSchedule
