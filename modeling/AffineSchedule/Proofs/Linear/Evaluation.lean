import AffineSchedule.Linear.Lexmin
import AffineSchedule.Proofs.Checked
import Mathlib

namespace AffineSchedule

open Checked List

variable {α : Type} {sense : Sense}

/-- The comparison holds for a rational value. -/
def Sense.Admits (sense : Sense) (value : ℚ) : Prop :=
  match sense with
  | .nonnegative => 0 ≤ value
  | .zero => value = 0

/-- Rational and integer comparisons agree on integers. -/
theorem Sense.admits_intCast_iff {value : ℤ} : sense.Admits (value : ℚ) ↔ sense.Holds value := by
  cases sense with
  | nonnegative => exact Int.cast_nonneg_iff
  | zero => exact Int.cast_eq_zero

namespace Word

variable {a result b : ℤ}

theorem add_ok_iff : add a b = .ok result ↔ Fits (a + b) ∧ result = a + b :=
  checked_ok_iff

theorem mul_ok : mul a b = .ok result ↔ Fits (a * b) ∧ result = a * b :=
  checked_ok_iff

theorem neg_ok : neg a = .ok result ↔ Fits (-a) ∧ result = -a :=
  checked_ok_iff

end Word

namespace Linear

variable {row : Row} {form : Form} {bound : ℤ} {entries : List α}

/-- An assignment of rational values to the columns. -/
abbrev Assignment : Type := ℕ → ℚ

/-- The assignment that a point stands for; columns beyond the point are zero. -/
def Point.assignment (point : Point) : Assignment := fun column => point.getD column 0

namespace Form

variable {columns : ℕ} {τ : Assignment} {terms : List (ℕ × ℤ)}

/-! ### The value of a form -/

/-- The sum of the products of column values and coefficients. -/
def termsValue (terms : List (ℕ × ℤ)) (σ : Assignment) : ℚ :=
  (terms.map fun term => (term.2 : ℚ) * σ term.1).sum

/-- The value of a form. -/
def value (form : Form) (σ : Assignment) : ℚ := termsValue form.terms σ + form.constant

@[simp] theorem termsValue_nil (σ : Assignment) : termsValue [] σ = 0 := rfl

@[simp] theorem termsValue_cons (term : ℕ × ℤ) (later : List (ℕ × ℤ)) (σ : Assignment) :
    termsValue (term :: later) σ = term.2 * σ term.1 + termsValue later σ := by
  simp [termsValue]

@[simp] theorem termsValue_append (terms later : List (ℕ × ℤ)) (σ : Assignment) :
    termsValue (terms ++ later) σ = termsValue terms σ + termsValue later σ := by
  simp [termsValue]

@[simp] theorem value_zero (σ : Assignment) : zero.value σ = 0 := by simp [zero, value]

@[simp] theorem value_column (index : ℕ) (σ : Assignment) : (column index).value σ = σ index := by
  simp [column, value]

@[simp] theorem value_difference (positive negative : ℕ) (σ : Assignment) :
    (difference positive negative).value σ = σ positive - σ negative := by
  simp [difference, value, sub_eq_add_neg]

/-- Two assignments that agree on the columns of some terms give them the same worth. -/
theorem termsValue_congr (inside : ∀ term ∈ terms, term.1 < columns) {σ : Assignment}
    (agree : ∀ column < columns, σ column = τ column) : termsValue terms σ = termsValue terms τ := by
  have same : terms.map (fun term => (term.2 : ℚ) * σ term.1) = terms.map fun term => (term.2 : ℚ) * τ term.1 := by
    apply map_congr_left
    intro term term_mem
    rw [agree term.1 (inside term term_mem)]
  rw [termsValue, termsValue, same]

theorem value_congr (within : form.Within columns) {σ : Assignment} (agree : ∀ column < columns, σ column = τ column) :
    form.value σ = form.value τ := by
  rw [value, value, termsValue_congr within agree]

/-! ### Operations on forms -/

section

variable {factor : ℤ} {total : Form} (σ : Assignment)

theorem termsValue_scaleTerms {scaled : List (ℕ × ℤ)} (done : scaleTerms factor terms = .ok scaled) :
    termsValue scaled σ = factor * termsValue terms σ := by
  rw [scaleTerms, mapM_ok] at done
  induction done with
  | nil => simp
  | cons term_ok _ ih =>
    simp only [bind_ok, pure_ok, Word.mul_ok] at term_ok
    obtain ⟨_, ⟨_, rfl⟩, rfl⟩ := term_ok
    rw [termsValue_cons, termsValue_cons, ih]
    push_cast
    ring

/-- Adding a multiple of a form adds the multiple of its value. -/
theorem value_addScaled {other : Form} (done : form.addScaled other factor = .ok total) :
    total.value σ = form.value σ + factor * other.value σ := by
  unfold addScaled at done
  by_cases trivial : factor = 0
  · simp only [trivial, if_true, Except.ok.injEq] at done
    simp [trivial, done]
  · simp only [trivial, if_false, bind_ok, pure_ok, Word.mul_ok, Word.add_ok_iff] at done
    obtain ⟨scaled, scaled_ok, _, ⟨_, rfl⟩, _, ⟨_, rfl⟩, rfl⟩ := done
    simp only [value, termsValue_append, termsValue_scaleTerms σ scaled_ok]
    push_cast
    ring

theorem value_scaled {result : Form} (done : form.scaled factor = .ok result) :
    result.value σ = factor * form.value σ := by
  rw [value_addScaled σ done, value_zero, zero_add]

/-- A fold whose steps each add some worth adds the sum of it. -/
theorem worth_of_foldlM {β : Type} (worth : β → ℚ) (gain : α → ℚ) {step : β → α → Checked β} {start final : β}
    (folded : entries.foldlM step start = .ok final)
    (adds : ∀ {reached part next}, step reached part = .ok next → worth next = worth reached + gain part) :
    worth final = worth start + (entries.map gain).sum := by
  induction entries generalizing start with
  | nil =>
    obtain rfl := pure_ok.mp folded
    simp
  | cons part later ih =>
    rw [foldlM_cons, bind_ok] at folded
    obtain ⟨next, part_ok, later_ok⟩ := folded
    rw [ih later_ok, adds part_ok, map_cons, sum_cons, add_assoc]

/-- A combination is worth the sum of its parts, each times its factor. -/
theorem value_combination {weighted : List (Form × ℤ)} (done : combination weighted = .ok total) :
    total.value σ = (weighted.map fun part => (part.2 : ℚ) * part.1.value σ).sum := by
  rw [worth_of_foldlM (value · σ) (fun part => (part.2 : ℚ) * part.1.value σ) done (value_addScaled σ), value_zero, zero_add]

end

/-! ### Compaction -/

theorem termsValue_insertTerm {term : ℕ × ℤ} {sorted result : List (ℕ × ℤ)} (σ : Assignment)
    (done : insertTerm term sorted = .ok result) : termsValue result σ = termsValue sorted σ + term.2 * σ term.1 := by
  induction sorted generalizing result with
  | nil =>
    simp only [insertTerm, Except.ok.injEq] at done
    rw [← done, termsValue_cons, add_comm]
  | cons first later ih =>
    unfold insertTerm at done
    by_cases smaller : term.1 < first.1
    · simp only [smaller, if_true, Except.ok.injEq] at done
      rw [← done, termsValue_cons, add_comm]
    · by_cases same : term.1 = first.1
      · simp only [same, if_true, if_false, lt_irrefl, bind_ok, pure_ok, Word.add_ok_iff] at done
        obtain ⟨_, ⟨_, rfl⟩, rfl⟩ := done
        simp only [termsValue_cons, same]
        push_cast
        ring
      · simp only [smaller, same, if_false, bind_ok, pure_ok] at done
        obtain ⟨rest, rest_ok, rfl⟩ := done
        rw [termsValue_cons, termsValue_cons, ih rest_ok]
        ring

theorem termsValue_filter_ne_zero (terms : List (ℕ × ℤ)) (σ : Assignment) :
    termsValue (terms.filter (·.2 ≠ 0)) σ = termsValue terms σ := by
  induction terms with
  | nil => rfl
  | cons term later ih =>
    by_cases vanishes : term.2 = 0
    · simpa [vanishes] using ih
    · simpa [vanishes] using ih

/-- The compact form has the same value. -/
theorem value_compact {result : Form} (σ : Assignment) (done : form.compact = .ok result) : result.value σ = form.value σ := by
  simp only [compact, bind_ok, pure_ok] at done
  obtain ⟨merged, merged_ok, rfl⟩ := done
  have merged_eq := worth_of_foldlM (termsValue · σ) (fun term => (term.2 : ℚ) * σ term.1) merged_ok (termsValue_insertTerm σ)
  rw [value, termsValue_filter_ne_zero, merged_eq, termsValue_nil, zero_add]
  rfl

end Form

/-! ### Rows and problems -/

/-- The comparison of a row holds at an assignment. -/
def Row.Holds (row : Row) (σ : Assignment) : Prop := row.sense.Admits (row.form.value σ)

/-- The compacted row compares the value of the form it was made from. -/
theorem Row.make_holds_iff {σ : Assignment} (made : Row.make sense form = .ok row) :
    row.Holds σ ↔ sense.Admits (form.value σ) := by
  simp only [Row.make, bind_ok, pure_ok] at made
  obtain ⟨compacted, compact_ok, rfl⟩ := made
  rw [Row.Holds, Form.value_compact σ compact_ok]

theorem Row.atMost_holds_iff {column : ℕ} (made : Row.atMost column bound = .ok row) (σ : Assignment) :
    row.Holds σ ↔ σ column ≤ bound := by
  rw [Row.make_holds_iff made, Sense.Admits, Form.value]
  simp only [Form.termsValue_cons, Form.termsValue_nil]
  push_cast
  constructor <;> intro holds <;> linarith

theorem Row.atLeast_holds_iff {column : ℕ} (made : Row.atLeast column bound = .ok row) (σ : Assignment) :
    row.Holds σ ↔ bound ≤ σ column := by
  simp only [Row.atLeast, bind_ok, Word.neg_ok] at made
  obtain ⟨_, ⟨_, rfl⟩, made⟩ := made
  rw [Row.make_holds_iff made, Sense.Admits, Form.value]
  simp only [Form.termsValue_cons, Form.termsValue_nil]
  push_cast
  constructor <;> intro holds <;> linarith

/-- Every column is non-negative and every row of the list holds. -/
structure Satisfies (σ : Assignment) (rows : List Row) : Prop where
  nonneg : ∀ column, 0 ≤ σ column
  holds : ∀ row ∈ rows, row.Holds σ

namespace Problem

variable {extended problem earlier later : Problem} {count : ℕ} {integer : Bool}

/-- The columns and rows of an earlier problem come first. -/
structure Continues (later earlier : Problem) : Prop where
  integer : earlier.integer <+: later.integer
  rows : earlier.rows <+: later.rows

theorem Continues.refl (problem : Problem) : problem.Continues problem := ⟨prefix_rfl, prefix_rfl⟩

theorem Continues.trans {last middle first : Problem} (after : last.Continues middle) (before : middle.Continues first) :
    last.Continues first := ⟨before.integer.trans after.integer, before.rows.trans after.rows⟩

theorem Continues.columns_le (continued : later.Continues earlier) :
    earlier.columns ≤ later.columns := continued.integer.length_le

/-- What satisfies the rows of a problem satisfies those of every problem it continues. -/
theorem Continues.satisfies (continued : later.Continues earlier) {σ : Assignment} (satisfied : Satisfies σ later.rows) :
    Satisfies σ earlier.rows :=
  ⟨satisfied.nonneg, fun row row_mem => satisfied.holds row (continued.rows.subset row_mem)⟩

/-- Every row of the problem names columns of the problem only. -/
def Bounded (problem : Problem) : Prop := ∀ row ∈ problem.rows, row.form.Within problem.columns

theorem ofColumns_ok (made : ofColumns count integer = .ok problem) :
    problem = { integer := List.replicate count integer, rows := [] } := by
  simp only [ofColumns, bind_ok, pure_ok, Size.make_ok_iff] at made
  obtain ⟨_, ⟨_, rfl⟩, rfl⟩ := made
  rfl

theorem addColumns_ok (added : problem.addColumns count integer = .ok extended) :
    extended = { problem with integer := problem.integer ++ List.replicate count integer } := by
  simp only [addColumns, bind_ok, pure_ok, Size.make_ok_iff] at added
  obtain ⟨_, ⟨_, rfl⟩, rfl⟩ := added
  rfl

/-- Adding rows one by one, each made for an entry, adds exactly those, which name columns of the problem. -/
theorem foldlM_addRow_ok {make : α → Checked Row}
    (folded : entries.foldlM (fun grown entry => do addRow grown (← make entry)) problem = .ok extended) :
    ∃ rows, entries.mapM make = .ok rows ∧ extended = { problem with rows := problem.rows ++ rows }
      ∧ ∀ row ∈ rows, row.form.Within problem.columns := by
  simp only [mapM_ok]
  induction entries generalizing problem with
  | nil =>
    obtain rfl := pure_ok.mp folded
    exact ⟨[], .nil, by simp, by simp⟩
  | cons entry later ih =>
    simp only [foldlM_cons, addRow, bind_ok, pure_ok, require_ok] at folded
    obtain ⟨_, ⟨row, row_ok, _, within, rfl⟩, folded⟩ := folded
    obtain ⟨rows, rows_ok, rfl, rows_within⟩ := ih folded
    exact ⟨row :: rows, .cons row_ok rows_ok, by simp, forall_mem_cons.mpr ⟨within, rows_within⟩⟩

theorem addRows_ok {rows : List Row} (added : problem.addRows rows = .ok extended) :
    extended = { problem with rows := problem.rows ++ rows } ∧ ∀ row ∈ rows, row.form.Within problem.columns := by
  have as_made : rows.foldlM (fun grown row => do addRow grown (← pure row)) problem = .ok extended := added
  obtain ⟨made, made_ok, spec⟩ := foldlM_addRow_ok as_made
  rw [mapM_pure, map_id', pure_ok] at made_ok
  exact made_ok ▸ spec

theorem foldlM_addRows_ok {make : α → Checked (List Row)}
    (folded : entries.foldlM (fun grown entry => do addRows grown (← make entry)) problem = .ok extended) :
    ∃ groups, entries.mapM make = .ok groups ∧ extended = { problem with rows := problem.rows ++ groups.flatten }
      ∧ ∀ row ∈ groups.flatten, row.form.Within problem.columns := by
  simp only [mapM_ok]
  induction entries generalizing problem with
  | nil =>
    obtain rfl := pure_ok.mp folded
    exact ⟨[], .nil, by simp, by simp⟩
  | cons entry later ih =>
    simp only [foldlM_cons, bind_ok] at folded
    obtain ⟨_, ⟨group, group_ok, added⟩, folded⟩ := folded
    obtain ⟨rfl, group_within⟩ := addRows_ok added
    obtain ⟨groups, groups_ok, rfl, groups_within⟩ := ih folded
    exact ⟨group :: groups, .cons group_ok groups_ok, by simp, forall_mem_append.mpr ⟨group_within, groups_within⟩⟩

end Problem

end Linear

end AffineSchedule
