import AffineSchedule.Polyhedron
import AffineSchedule.Proofs.AffineForm
import AffineSchedule.Proofs.Linear.Lattice

namespace AffineSchedule

open Checked List AffineForm Linear

variable {polyhedron result : Polyhedron} {dim : ℕ} {empty : Bool} {dims params : ℕ → ℤ} {positions : List ℕ} {row : Linear.Row}
  {source target : List String} {constraint : Constraint}

/-- The constraint holds at integer values of the dimensions and parameters. -/
def Constraint.Holds (constraint : Constraint) (dims params : ℕ → ℤ) : Prop :=
  constraint.sense.Holds (constraint.form.value dims params)

namespace Polyhedron

/-- All constraints hold. -/
def Holds (polyhedron : Polyhedron) (dims params : ℕ → ℤ) : Prop :=
  ∀ constraint ∈ polyhedron.constraints, constraint.Holds dims params

/-- Every constraint has the layout of the polyhedron. -/
def LaidOut (polyhedron : Polyhedron) : Prop :=
  ∀ constraint ∈ polyhedron.constraints, constraint.HasLayout polyhedron.dim polyhedron.params

/-- No constraint uses two parameters of one name. -/
def NamesOnce (polyhedron : Polyhedron) (names : List String) : Prop :=
  ∀ constraint ∈ polyhedron.constraints, AffineForm.NamesOnce names constraint.form.params

/-- Points that agree on the dimensions of a polyhedron are both in it or both outside. -/
theorem holds_congr (laid_out : polyhedron.LaidOut) {others : ℕ → ℤ}
    (agree : ∀ place < polyhedron.dim, dims place = others place) :
    polyhedron.Holds dims params ↔ polyhedron.Holds others params := by
  refine forall₂_congr fun constraint constraint_mem => ?_
  rw [Constraint.Holds, Constraint.Holds, value_congr fun place inside =>
    agree place (inside.trans_eq (laid_out constraint constraint_mem).1)]

/-! ### Operations -/

/-- Adding a constraint adds its condition and keeps the layout. -/
theorem add_ok (added : polyhedron.add constraint = .ok result) :
    result.dim = polyhedron.dim ∧ result.params = polyhedron.params ∧ (polyhedron.LaidOut → result.LaidOut)
      ∧ ∀ dims params, result.Holds dims params ↔ polyhedron.Holds dims params ∧ constraint.Holds dims params := by
  simp only [add, bind_ok, pure_ok, require_ok] at added
  obtain ⟨_, layout, rfl⟩ := added
  refine ⟨rfl, rfl, fun laid_out => ?_, fun dims params => ?_⟩
  · exact forall_mem_append.mpr ⟨laid_out, by simpa using layout⟩
  · simp only [Holds, forall_mem_append, forall_mem_singleton]

/-- The constraints of a moved polyhedron are the moved constraints. -/
theorem relayout_ok (moved : polyhedron.relayout dim positions = .ok result) :
    result.dim = dim ∧ result.params = polyhedron.params
      ∧ Forall₂ (fun constraint image : Constraint => image.sense = constraint.sense
          ∧ constraint.form.relayout dim positions = .ok image.form) polyhedron.constraints result.constraints := by
  simp only [relayout, bind_ok, pure_ok, mapM_ok] at moved
  obtain ⟨constraints, each, rfl⟩ := moved
  refine ⟨rfl, rfl, each.imp fun constraint image step_ok => ?_⟩
  obtain ⟨form, form_ok, rfl⟩ := step_ok
  exact ⟨rfl, form_ok⟩

/-- A moved polyhedron holds where the polyhedron holds at the renamed dimensions. -/
theorem holds_relayout_iff (moved : polyhedron.relayout dim positions = .ok result) (dims params : ℕ → ℤ) :
    result.Holds dims params ↔ polyhedron.Holds (fun place => dims (positions.getD place 0)) params := by
  obtain ⟨_, _, each⟩ := relayout_ok moved
  refine each.forall_mem_iff fun constraint image _ ⟨sense_eq, form_ok⟩ => ?_
  rw [Constraint.Holds, sense_eq, (value_relayout form_ok dims params).2.2, Constraint.Holds]

theorem laidOut_of_relayout (laid_out : polyhedron.LaidOut) (moved : polyhedron.relayout dim positions = .ok result) :
    result.LaidOut := by
  obtain ⟨dim_eq, params_eq, each⟩ := relayout_ok moved
  refine each.forall_mem ?_ laid_out
  rintro constraint image _ ⟨_, form_ok⟩ layout
  obtain ⟨_, image_layout, _⟩ := value_relayout form_ok (fun _ => 0) (fun _ => 0)
  exact ⟨image_layout.1.trans dim_eq.symm, image_layout.2.trans (layout.2.trans params_eq.symm)⟩

theorem alignParams_ok (aligned : polyhedron.alignParams source target = .ok result) :
    result.dim = polyhedron.dim ∧ result.params = target.length
      ∧ Forall₂ (fun constraint image : Constraint => image.sense = constraint.sense
          ∧ constraint.form.alignParams source target = .ok image.form) polyhedron.constraints result.constraints := by
  simp only [alignParams, bind_ok, pure_ok, mapM_ok] at aligned
  obtain ⟨constraints, each, rfl⟩ := aligned
  refine ⟨rfl, rfl, each.imp fun constraint image step_ok => ?_⟩
  obtain ⟨form, form_ok, rfl⟩ := step_ok
  exact ⟨rfl, form_ok⟩

/-- A polyhedron over another parameter list has the same points under values by name. -/
theorem holds_alignParams_iff (once : polyhedron.NamesOnce source)
    (aligned : polyhedron.alignParams source target = .ok result) (dims : ℕ → ℤ) (values : String → ℤ) :
    result.Holds dims (named target values) ↔ polyhedron.Holds dims (named source values) := by
  obtain ⟨_, _, each⟩ := alignParams_ok aligned
  refine each.forall_mem_iff fun constraint image constraint_mem ⟨sense_eq, form_ok⟩ => ?_
  obtain ⟨_, value_eq, _⟩ := AffineForm.value_alignParams (once constraint constraint_mem) form_ok
  rw [Constraint.Holds, sense_eq, value_eq, Constraint.Holds]

/-! ### Emptiness -/

theorem not_holds_of_isObviouslyEmpty (empty : polyhedron.isObviouslyEmpty = true) (dims params : ℕ → ℤ) :
    ¬ polyhedron.Holds dims params := by
  intro holds
  obtain ⟨constraint, constraint_mem, is_false⟩ := any_eq_true.mp empty
  have constraint_holds := holds constraint constraint_mem
  unfold Constraint.isFalse AffineForm.constant? at is_false
  by_cases constant : constraint.form.isConstant = true
  · rw [if_pos constant] at is_false
    rw [Constraint.Holds, value_of_isConstant constant] at constraint_holds
    simp [constraint_holds] at is_false
  · simp [constant] at is_false

/-- The divisor of a list divides its entries and whatever was joined before. -/
theorem dvd_of_gcdAll {values : List ℤ} {divisor : ℤ} (done : Word.gcdAll values = .ok divisor) :
    ∀ value ∈ values, divisor ∣ value := by
  have general : ∀ {entries : List ℤ} {start final : ℤ}, entries.foldlM Word.gcd start = .ok final →
      final ∣ start ∧ ∀ value ∈ entries, final ∣ value := by
    intro entries
    induction entries with
    | nil =>
      intro start final folded
      rw [foldlM_nil, pure_ok] at folded
      simp [folded]
    | cons first later ih =>
      intro start final folded
      rw [foldlM_cons, bind_ok] at folded
      obtain ⟨next, step_ok, later_ok⟩ := folded
      obtain ⟨_, rfl⟩ := Word.checked_ok_iff.mp step_ok
      obtain ⟨divides_next, divides_later⟩ := ih later_ok
      refine ⟨divides_next.trans (Int.gcd_dvd_left _ _), forall_mem_cons.mpr ⟨?_, divides_later⟩⟩
      exact divides_next.trans (Int.gcd_dvd_right _ _)
  exact (general done).2

theorem not_holds_of_isIndivisible {equality : Constraint} (is_equality : equality.isEquality = true)
    (indivisible : isIndivisible equality = .ok true) (dims params : ℕ → ℤ) : ¬ equality.Holds dims params := by
  intro holds
  have sense_eq : equality.sense = .zero := by simpa [Constraint.isEquality] using is_equality
  have vanishes : equality.form.value dims params = 0 := by
    rw [Constraint.Holds, sense_eq] at holds
    exact holds
  simp only [isIndivisible, bind_ok, linearGcd] at indivisible
  obtain ⟨divisor, divisor_ok, decided⟩ := indivisible
  have divides := dvd_of_gcdAll divisor_ok
  obtain ⟨coeffs_divide, params_divide⟩ := forall_mem_append.mp divides
  have constant_divides : divisor ∣ equality.form.constant := by
    have linear_divides := dvd_add (dvd_dot coeffs_divide dims) (dvd_dot params_divide params)
    have constant_eq : equality.form.constant = -(dot equality.form.coeffs dims + dot equality.form.params params) := by
      rw [AffineForm.value] at vanishes
      linarith
    rw [constant_eq]
    exact (dvd_neg).mpr linear_divides
  by_cases no_divisor : divisor = 0
  · rw [if_pos no_divisor, pure_ok, decide_eq_true_eq] at decided
    exact decided (zero_dvd_iff.mp (no_divisor ▸ constant_divides))
  · rw [if_neg no_divisor, pure_ok, decide_eq_true_eq] at decided
    exact decided (Int.tmod_eq_zero_of_dvd constant_divides)

/-- The dimensions followed by the parameters, as free variables. -/
def freeVariables (dim : ℕ) (dims params : ℕ → ℤ) : ℕ → ℤ :=
  fun index => if index < dim then dims index else params (index - dim)

/-- Terms by position are worth the weighted sum. -/
theorem termsValue_positions (coefficients : List ℤ) (start : ℕ) (σ : Linear.Assignment) :
    Form.termsValue ((coefficients.zipIdx start).map fun entry => (entry.2, entry.1)) σ
      = ∑ place ∈ Finset.range coefficients.length, (coefficients.getD place 0 : ℚ) * σ (start + place) := by
  induction coefficients generalizing start with
  | nil => simp
  | cons first later ih =>
    rw [zipIdx_cons, map_cons, Form.termsValue_cons, ih, length_cons, Finset.sum_range_succ', add_comm]
    simp only [getD_cons_succ, getD_cons_zero, Nat.add_zero, Nat.add_assoc, Nat.add_comm 1]

theorem mapM_paramTerms {start : ℕ} {coefficients : List ℤ} {terms : List (ℕ × ℤ)}
    (done : (coefficients.zipIdx start).mapM (fun entry => do return (← Size.add dim entry.2, entry.1)) = .ok terms) :
    terms = (coefficients.zipIdx (dim + start)).map fun entry => (entry.2, entry.1) := by
  induction coefficients generalizing start terms with
  | nil =>
    cases done
    rfl
  | cons first later ih =>
    simp only [zipIdx_cons, mapM_cons, bind_ok, pure_ok, Size.add_ok_iff] at done
    obtain ⟨_, ⟨_, ⟨_, rfl⟩, rfl⟩, rest, rest_ok, rfl⟩ := done
    rw [ih rest_ok, zipIdx_cons, map_cons, Nat.add_assoc]

/-- The row of a constraint compares the value of its expression. -/
theorem constraintRow_holds_iff (made : constraintRow dim constraint = .ok row) (σ : Linear.Assignment) :
    row.Holds σ ↔ constraint.sense.Admits (constraint.form.rationalValue σ fun i => σ (dim + i)) := by
  simp only [constraintRow, bind_ok] at made
  obtain ⟨paramTerms, paramTerms_ok, made⟩ := made
  rw [Row.make_holds_iff made, Linear.Form.value, mapM_paramTerms paramTerms_ok, Form.termsValue_append,
    termsValue_positions, termsValue_positions, rationalValue, add_comm, ← add_assoc]
  simp only [Nat.zero_add, Nat.add_zero, AffineForm.coeff, paramCoeff]

/-- At integers, the row of a constraint holds where the constraint does. -/
theorem constraintRow_holds_freeVariables_iff (length_eq : constraint.form.coeffs.length = dim)
    (made : constraintRow dim constraint = .ok row) (dims params : ℕ → ℤ) :
    row.Holds (integerAssignment (freeVariables dim dims params)) ↔ constraint.Holds dims params := by
  have params_eq : (fun i => freeVariables dim dims params (dim + i)) = params := by
    funext i
    rw [freeVariables, if_neg (by omega), Nat.add_sub_cancel_left]
  have value_eq : constraint.form.value (freeVariables dim dims params) params = constraint.form.value dims params := by
    apply value_congr
    intro place inside
    rw [freeVariables, if_pos (inside.trans_eq length_eq)]
  have rational_eq := constraint.form.rationalValue_intCast (freeVariables dim dims params)
    fun i => freeVariables dim dims params (dim + i)
  rw [params_eq, value_eq] at rational_eq
  rw [constraintRow_holds_iff made, Constraint.Holds, ← Sense.admits_intCast_iff, ← rational_eq, ← params_eq]
  rfl

/-- The search among the integer points comes to an outcome. -/
def Searches (polyhedron : Polyhedron) (outcome : Linear.Feasibility) : Prop :=
  ∃ rows, Forall₂ (fun constraint row => constraintRow polyhedron.dim constraint = .ok row) polyhedron.constraints rows
    ∧ integerFeasible (polyhedron.dim + polyhedron.params) rows emptinessBudget = .ok outcome

/-- A polyhedron is empty for a false constant or an indivisible equality; otherwise the search decides. -/
theorem isEmpty_cases (tested : polyhedron.isEmpty = .ok empty) : (empty = true ∧ (polyhedron.isObviouslyEmpty = true
        ∨ ∃ equality ∈ polyhedron.constraints, equality.isEquality = true ∧ isIndivisible equality = .ok true))
      ∨ ∃ outcome, polyhedron.Searches outcome ∧ decide (outcome = .infeasible) = empty := by
  unfold isEmpty at tested
  by_cases obvious : polyhedron.isObviouslyEmpty = true
  · rw [if_pos obvious, pure_ok] at tested
    exact Or.inl ⟨tested.symm, Or.inl obvious⟩
  · simp only [obvious, Bool.false_eq_true, if_false, bind_ok] at tested
    obtain ⟨indivisible, searched, rest⟩ := tested
    cases indivisible with
    | true =>
      rw [if_pos rfl, pure_ok] at rest
      obtain ⟨equality, equality_mem, divided⟩ := exists_of_anyM_ok_true searched
      obtain ⟨constraint_mem, is_equality⟩ := mem_filter.mp equality_mem
      exact Or.inl ⟨rest.symm, Or.inr ⟨equality, constraint_mem, is_equality, divided⟩⟩
    | false =>
      simp only [Bool.false_eq_true, if_false, bind_ok, pure_ok, mapM_ok, Size.add_ok_iff] at rest
      obtain ⟨rows, rows_ok, _, ⟨_, rfl⟩, outcome, search_ok, answered⟩ := rest
      exact Or.inr ⟨outcome, ⟨rows, rows_ok, search_ok⟩, answered⟩

/-- A polyhedron that is reported empty has no integer point. -/
theorem not_holds_of_isEmpty (laid_out : polyhedron.LaidOut) (empty : polyhedron.isEmpty = .ok true)
    (dims params : ℕ → ℤ) : ¬ polyhedron.Holds dims params := by
  intro holds
  rcases isEmpty_cases empty with ⟨_, obvious | ⟨equality, equality_mem, is_equality, divided⟩⟩ |
    ⟨outcome, ⟨rows, rows_ok, searched⟩, ended⟩
  · exact not_holds_of_isObviouslyEmpty obvious dims params holds
  · exact not_holds_of_isIndivisible is_equality divided dims params (holds equality equality_mem)
  · obtain rfl := of_decide_eq_true ended
    refine not_holds_of_integerFeasible searched (freeVariables polyhedron.dim dims params) ?_
    exact (rows_ok.forall_mem_iff fun constraint row constraint_mem made =>
      constraintRow_holds_freeVariables_iff (laid_out constraint constraint_mem).1 made dims params).mpr holds

/-- A polyhedron with a point is not said to be empty. -/
theorem isEmpty_eq_false (laid_out : polyhedron.LaidOut) (tested : polyhedron.isEmpty = .ok empty)
    (holds : polyhedron.Holds dims params) : empty = false := by
  cases empty with
  | false => rfl
  | true => exact absurd holds (not_holds_of_isEmpty laid_out tested dims params)

/-- A polyhedron that is not reported empty has an integer point, unless the search ran out of its budget. -/
theorem exists_holds_of_isEmpty (laid_out : polyhedron.LaidOut) (tested : polyhedron.isEmpty = .ok false) :
    (∃ dims params, polyhedron.Holds dims params) ∨ polyhedron.Searches .unknown := by
  rcases isEmpty_cases tested with ⟨impossible, _⟩ | ⟨outcome, ⟨rows, rows_ok, searched⟩, ended⟩
  · cases impossible
  · cases outcome with
    | infeasible => cases ended
    | unknown => exact Or.inr ⟨rows, rows_ok, searched⟩
    | feasible =>
      obtain ⟨v, rows_hold⟩ := holds_of_integerFeasible searched
      have free_eq : freeVariables polyhedron.dim v (fun i => v (polyhedron.dim + i)) = v := by
        funext index
        by_cases inside : index < polyhedron.dim
        · rw [freeVariables, if_pos inside]
        · rw [freeVariables, if_neg inside, Nat.add_sub_cancel' (not_lt.mp inside)]
      rw [← free_eq] at rows_hold
      exact Or.inl ⟨_, _, (rows_ok.forall_mem_iff fun constraint row constraint_mem made =>
        constraintRow_holds_freeVariables_iff (laid_out constraint constraint_mem).1 made _ _).mp rows_hold⟩

end Polyhedron

end AffineSchedule
