import AffineSchedule.AffineForm
import AffineSchedule.Proofs.Checked
import AffineSchedule.RowMatrix
import Mathlib.Data.Int.Notation

namespace AffineSchedule

open Checked List

variable {length : ℕ} {condition : Prop} {more : Fault → Prop}

/-- A fault that inputs, machine limits or search budgets bring about. Every refused precondition counts as one, whether an
    input or a list too long brings it about, and so does the allowance of pivots: it is never used up, but only if the rows
    name no column beyond their own. -/
def Fault.Routine : Fault → Prop
  | .unfinished .pivots => True
  | .unfinished _ => False
  | .internal _ => False
  | .unschedulable _ => False
  | .solver .unbounded => False
  | _ => True

/-- A number left the range of machine integers. -/
def Fault.isOverflow : Fault → Bool
  | .overflow => true
  | .solver .matrixOverflow => true
  | .solver .boundOverflow => true
  | .solver .coefficientOverflow => true
  | _ => false

/-- A class of faults with all overflows. -/
class Fault.Tolerates (allowed : Fault → Prop) : Prop where
  allows : ∀ fault : Fault, fault.isOverflow → allowed fault

/-- The faults of a computation that only makes numbers, and lists of at most the given length. -/
def Fault.Limits (length : ℕ) (fault : Fault) : Prop :=
  fault.isOverflow ∨ fault = .precondition ∧ Size.unreachable ≤ length

instance : Fault.Tolerates Fault.Routine where
  allows
    | .overflow, _ => trivial
    | .solver .matrixOverflow, _ => trivial
    | .solver .boundOverflow, _ => trivial
    | .solver .coefficientOverflow, _ => trivial

instance (length : ℕ) : Fault.Tolerates (Fault.Limits length) where
  allows _ := Or.inl

theorem Fault.Tolerates.of_routine {allowed : Fault → Prop} (routine : ∀ fault : Fault, fault.Routine → allowed fault) :
    Fault.Tolerates allowed := ⟨fun fault overflow => routine fault (allows fault overflow)⟩

theorem Fault.Limits.mono {more : ℕ} (le : length ≤ more) (fault : Fault) (limits : Fault.Limits length fault) :
    Fault.Limits more fault := limits.imp_right fun ⟨refused, beyond⟩ => ⟨refused, Nat.le_trans beyond le⟩

theorem Fault.Limits.routine (fault : Fault) (limits : Fault.Limits length fault) : fault.Routine := by
  rcases limits with overflow | ⟨rfl, _⟩
  · exact Tolerates.allows fault overflow
  · trivial

namespace Checked

variable {α β : Type} {allowed : Fault → Prop}

/-- Every fault that stops the computation is an allowed one. -/
def FaultsIn (allowed : Fault → Prop) (computed : Checked α) : Prop :=
  ∀ fault, computed = .error fault → allowed fault

theorem FaultsIn.mono {computed : Checked α} (faults : FaultsIn allowed computed) (weaker : ∀ fault, allowed fault → more fault) :
    FaultsIn more computed :=
  fun fault stopped => weaker fault (faults fault stopped)

@[simp] theorem faultsIn_ok (value : α) : FaultsIn allowed (.ok value) := by
  intro fault stopped
  cases stopped

@[simp] theorem faultsIn_pure (value : α) : FaultsIn allowed (pure value : Checked α) := faultsIn_ok value

@[simp] theorem faultsIn_error_iff {fault : Fault} : FaultsIn allowed (.error fault : Checked α) ↔ allowed fault := by
  constructor
  · intro faults
    exact faults fault rfl
  · rintro is_allowed other ⟨⟩
    exact is_allowed

@[simp high] theorem faultsIn_overflow [Fault.Tolerates allowed] : FaultsIn allowed (.error .overflow : Checked α) :=
  faultsIn_error_iff.mpr (Fault.Tolerates.allows _ rfl)

@[simp high] theorem faultsIn_matrixOverflow [Fault.Tolerates allowed] :
    FaultsIn allowed (.error (.solver .matrixOverflow) : Checked α) := faultsIn_error_iff.mpr (Fault.Tolerates.allows _ rfl)

@[simp high] theorem faultsIn_boundOverflow [Fault.Tolerates allowed] :
    FaultsIn allowed (.error (.solver .boundOverflow) : Checked α) := faultsIn_error_iff.mpr (Fault.Tolerates.allows _ rfl)

@[simp] theorem faultsIn_throw_iff {fault : Fault} : FaultsIn allowed (throw fault : Checked α) ↔ allowed fault :=
  faultsIn_error_iff

/-- What follows a computation only matters if it succeeds. -/
@[simp] theorem faultsIn_bind_iff {first : Checked α} {next : α → Checked β} : FaultsIn allowed (first >>= next) ↔
      FaultsIn allowed first ∧ ∀ value, first = .ok value → FaultsIn allowed (next value) := by
  cases first with
  | error fault => simp [bind, Except.bind]
  | ok value => simp [bind, Except.bind]

@[simp] theorem faultsIn_map_iff {computed : Checked α} {after : α → β} :
    FaultsIn allowed (after <$> computed) ↔ FaultsIn allowed computed := by
  cases computed with
  | error fault => simp [Functor.map, Except.map]
  | ok value => simp [Functor.map, Except.map]

@[simp] theorem faultsIn_ite_iff [Decidable condition] {first second : Checked α} :
    FaultsIn allowed (if condition then first else second) ↔
      (condition → FaultsIn allowed first) ∧ (¬condition → FaultsIn allowed second) := by
  by_cases holds : condition <;> simp [holds]

@[simp] theorem faultsIn_dite_iff [Decidable condition] {first : condition → Checked α} {second : ¬condition → Checked α} :
    FaultsIn allowed (if holds : condition then first holds else second holds) ↔
      (∀ holds, FaultsIn allowed (first holds)) ∧ (∀ fails, FaultsIn allowed (second fails)) := by
  by_cases holds : condition <;> simp [holds]

theorem faultsIn_require [Decidable condition] (holds : condition) : FaultsIn allowed (require condition) := by
  simp [require, holds]

/-! ### Results -/

/-- Only allowed faults stop the computation, and what it delivers has a property. -/
structure Meets (allowed : Fault → Prop) (computed : Checked α) (property : α → Prop) : Prop where
  faults : FaultsIn allowed computed
  result : ∀ value, computed = .ok value → property value

section

variable {computed : Checked α} {property : α → Prop} (meets : Meets allowed computed property)
include meets

theorem Meets.imp {weaker : α → Prop} (implies : ∀ value, property value → weaker value) : Meets allowed computed weaker :=
  ⟨meets.faults, fun value delivered => implies value (meets.result value delivered)⟩

theorem Meets.mono
    (weaker : ∀ fault, allowed fault → more fault) : Meets more computed property := ⟨meets.faults.mono weaker, meets.result⟩

end

section

variable {first : Checked α} {next : α → Checked β} {property : β → Prop}

theorem Meets.bind {middle : α → Prop} (first_meets : Meets allowed first middle)
    (next_meets : ∀ value, first = .ok value → middle value → Meets allowed (next value) property) :
    Meets allowed (first >>= next) property := by
  refine ⟨faultsIn_bind_iff.mpr ⟨first_meets.faults, fun value delivered => ?_⟩, fun result delivered => ?_⟩
  · exact (next_meets value delivered (first_meets.result value delivered)).faults
  · obtain ⟨value, first_ok, next_ok⟩ := bind_ok.mp delivered
    exact (next_meets value first_ok (first_meets.result value first_ok)).result result next_ok

theorem FaultsIn.bind (faults : FaultsIn allowed first)
    (next_meets : ∀ value, first = .ok value → Meets allowed (next value) property) :
    Meets allowed (first >>= next) property := by
  have first_meets : Meets allowed first fun _ => True := ⟨faults, fun _ _ => trivial⟩
  exact first_meets.bind fun value delivered _ => next_meets value delivered

end

theorem meets_pure {value : α} {property : α → Prop} (holds : property value) :
    Meets allowed (pure value : Checked α) property := by
  refine ⟨faultsIn_pure value, fun result delivered => ?_⟩
  obtain rfl := pure_ok.mp delivered
  exact holds

/-! ### Loops -/

@[simp] theorem faultsIn_mapM {step : α → Checked β} {entries : List α}
    (each : ∀ entry ∈ entries, FaultsIn allowed (step entry)) : FaultsIn allowed (entries.mapM step) := by
  induction entries with
  | nil => simp
  | cons entry later ih =>
    obtain ⟨first, rest⟩ := forall_mem_cons.mp each
    simp only [mapM_cons, faultsIn_bind_iff, faultsIn_pure, implies_true, and_true]
    exact ⟨first, fun _ _ => ih rest⟩

theorem meets_mapM {step : α → Checked β} {entries : List α} {property : β → Prop}
    (each : ∀ entry ∈ entries, Meets allowed (step entry) property) :
    Meets allowed (entries.mapM step) fun results => ∀ result ∈ results, property result := by
  refine ⟨faultsIn_mapM fun entry entry_mem => (each entry entry_mem).faults, fun results done => ?_⟩
  exact (mapM_ok.mp done).forall_mem (fun entry result entry_mem step_ok _ =>
    (each entry entry_mem).result result step_ok) fun _ _ => trivial

section

variable {step : β → α → Checked β} {entries : List α} {start : β}

/-- A fold whose steps meet a property of its states meets it. -/
theorem meets_foldlM (kept : β → Prop) (at_start : kept start)
    (each : ∀ state, ∀ entry ∈ entries, kept state → Meets allowed (step state entry) kept) :
    Meets allowed (entries.foldlM step start) kept := by
  induction entries generalizing start with
  | nil => exact meets_pure at_start
  | cons entry later ih =>
    rw [foldlM_cons]
    refine (each start entry mem_cons_self at_start).bind fun next _ kept_next => ih kept_next ?_
    exact fun state other other_mem => each state other (mem_cons_of_mem _ other_mem)

@[simp] theorem faultsIn_foldlM_of_forall
    (each : ∀ state, ∀ entry ∈ entries, FaultsIn allowed (step state entry)) : FaultsIn allowed (entries.foldlM step start) :=
  (meets_foldlM (fun _ => True) trivial fun state entry entry_mem _ =>
    ⟨each state entry entry_mem, fun _ _ => trivial⟩).faults

end

@[simp] theorem faultsIn_forM {step : α → Checked Unit} {entries : List α}
    (each : ∀ entry ∈ entries, FaultsIn allowed (step entry)) : FaultsIn allowed (forM entries step) := by
  induction entries with
  | nil => simp
  | cons entry later ih =>
    obtain ⟨first, rest⟩ := forall_mem_cons.mp each
    rw [forM_cons, faultsIn_bind_iff]
    exact ⟨first, fun _ _ => ih rest⟩

section

variable {test : α → Checked Bool} {entries : List α} (each : ∀ entry ∈ entries, FaultsIn allowed (test entry))
include each

@[simp] theorem faultsIn_anyM : FaultsIn allowed (entries.anyM test) := by
  induction entries with
  | nil => simp [List.anyM]
  | cons entry later ih =>
    obtain ⟨first, rest⟩ := forall_mem_cons.mp each
    rw [anyM_cons, faultsIn_bind_iff]
    refine ⟨first, fun answer _ => ?_⟩
    cases answer
    · exact ih rest
    · simp

@[simp] theorem faultsIn_allM : FaultsIn allowed (entries.allM test) := by
  induction entries with
  | nil => simp [List.allM]
  | cons entry later ih =>
    obtain ⟨first, rest⟩ := forall_mem_cons.mp each
    rw [allM_cons, faultsIn_bind_iff]
    refine ⟨first, fun answer _ => ?_⟩
    cases answer
    · simp
    · exact ih rest

@[simp] theorem faultsIn_filterM : FaultsIn allowed (entries.filterM test) := by
  have collected : ∀ (later earlier : List α), (∀ entry ∈ later, FaultsIn allowed (test entry)) →
      FaultsIn allowed (later.filterAuxM test earlier) := by
    intro later
    induction later with
    | nil => simp [List.filterAuxM]
    | cons first rest ih =>
      intro earlier each_later
      obtain ⟨first_faults, rest_faults⟩ := forall_mem_cons.mp each_later
      rw [List.filterAuxM, faultsIn_bind_iff]
      exact ⟨first_faults, fun answer _ => ih _ rest_faults⟩
  rw [List.filterM, faultsIn_bind_iff]
  exact ⟨collected entries [] each, fun _ _ => faultsIn_pure _⟩

end

/-! ### Computations that are cut short -/

/-- The computation is another one, or is stopped by one of the faults. -/
def Cuts (allowed : Fault → Prop) (computed other : Checked α) : Prop :=
  computed = other ∨ ∃ fault, allowed fault ∧ computed = .error fault

namespace Cuts

theorem refl (computed : Checked α) : Cuts allowed computed computed := Or.inl rfl

theorem bind {first second : Checked α} {next after : α → Checked β} (cuts : Cuts allowed first second)
    (later : ∀ value, Cuts allowed (next value) (after value)) : Cuts allowed (first >>= next) (second >>= after) := by
  rcases cuts with rfl | ⟨fault, is_allowed, rfl⟩
  · cases first with
    | error _ => exact Or.inl rfl
    | ok value => exact later value
  · exact Or.inr ⟨fault, is_allowed, rfl⟩

theorem foldlM {step other : β → α → Checked β} {entries : List α}
    (each : ∀ state, ∀ entry ∈ entries, Cuts allowed (step state entry) (other state entry)) (start : β) :
    Cuts allowed (entries.foldlM step start) (entries.foldlM other start) := by
  induction entries generalizing start with
  | nil => exact .refl _
  | cons entry later ih =>
    rw [foldlM_cons, foldlM_cons]
    exact .bind (each start entry mem_cons_self) fun next =>
      ih (fun state later_entry later_mem => each state later_entry (mem_cons_of_mem _ later_mem)) next

section

variable {computed other : Checked α} (cuts : Cuts allowed computed other)
include cuts

theorem of_ok {value : α} (done : computed = .ok value) :
    other = .ok value := by
  rcases cuts with rfl | ⟨_, _, stopped⟩
  · exact done
  · cases stopped.symm.trans done

theorem faultsIn (faults : FaultsIn allowed other) :
    FaultsIn allowed computed := by
  rcases cuts with rfl | ⟨fault, is_allowed, rfl⟩
  · exact faults
  · exact faultsIn_error_iff.mpr is_allowed

end

end Cuts

/-! ### Routine -/

/-- The computation is stopped by routine faults only. -/
abbrev Routine (computed : Checked α) : Prop := FaultsIn Fault.Routine computed

@[simp] theorem routine_ofOption (found : Option α) : Routine (ofOption found) := by
  cases found <;> simp [ofOption, Fault.Routine]

@[simp] theorem routine_require (condition : Prop) [Decidable condition] : Routine (require condition) := by
  simp [require, Fault.Routine]

end Checked

open Checked

section Tolerated

variable {allowed : Fault → Prop} [Fault.Tolerates allowed]

namespace Word

@[simp] theorem faultsIn_checked (value : ℤ) : FaultsIn allowed (checked value) := by
  simp [checked]

section

variable (a : ℤ)

@[simp] theorem faultsIn_add (b : ℤ) : FaultsIn allowed (add a b) := faultsIn_checked _

@[simp] theorem faultsIn_sub (b : ℤ) : FaultsIn allowed (sub a b) := faultsIn_checked _

@[simp] theorem faultsIn_mul (b : ℤ) : FaultsIn allowed (mul a b) := faultsIn_checked _

@[simp] theorem faultsIn_neg : FaultsIn allowed (neg a) := faultsIn_checked _

@[simp] theorem faultsIn_abs : FaultsIn allowed (abs a) := faultsIn_checked _

@[simp] theorem faultsIn_gcd (b : ℤ) : FaultsIn allowed (gcd a b) := faultsIn_checked _

end

@[simp] theorem faultsIn_gcdAll (values : List ℤ) : FaultsIn allowed (gcdAll values) := by
  simp [gcdAll]

end Word

namespace Size

@[simp] theorem faultsIn_checked (value : ℕ) : FaultsIn allowed (checked value) := by
  simp [checked]

@[simp] theorem faultsIn_add (a b : ℕ) : FaultsIn allowed (add a b) := faultsIn_checked _

@[simp] theorem faultsIn_consecutive (start count : ℕ) : FaultsIn allowed (consecutive start count) := by
  simp [consecutive]

end Size

namespace AffineForm

@[simp] theorem faultsIn_scale (form : AffineForm) (factor : ℤ) : FaultsIn allowed (form.scale factor) := by
  simp [scale]

@[simp] theorem faultsIn_neg (form : AffineForm) : FaultsIn allowed form.neg := by
  simp [neg]

@[simp] theorem faultsIn_linearGcd (form : AffineForm) : FaultsIn allowed form.linearGcd := by
  simp [linearGcd]

end AffineForm

end Tolerated

namespace Size

theorem limits_reserve (count : ℕ) : FaultsIn (Fault.Limits count) (reserve count) := by
  simp only [reserve, faultsIn_ite_iff, faultsIn_ok, implies_true, faultsIn_error_iff, true_and]
  exact fun beyond => Or.inr ⟨rfl, Nat.not_lt.mp beyond⟩

@[simp] theorem routine_reserve (count : ℕ) : Routine (reserve count) := (limits_reserve count).mono Fault.Limits.routine

@[simp] theorem routine_make {α : Type} (build : ℕ → α) (count : ℕ) : Routine (make build count) := by
  simp [make]

end Size

/-! ### Matrices -/

namespace RowMatrix

section

variable (matrix : RowMatrix)

@[simp] theorem routine_row (index : ℕ) : Routine (matrix.row index) := by
  simp [row]

@[simp] theorem routine_replaceRow (index : ℕ) (newRow : List ℤ) :
    Routine (matrix.replaceRow index newRow) := by
  simp [replaceRow, Fault.Routine]

@[simp] theorem routine_pushRow (newRow : List ℤ) : Routine (matrix.pushRow newRow) := by
  simp [pushRow, Fault.Routine]

@[simp] theorem routine_columnBlock (start count : ℕ) : Routine (matrix.columnBlock start count) := by
  simp [columnBlock, Fault.Routine]

@[simp] theorem routine_mulVec (vector : List ℤ) : Routine (matrix.mulVec vector) := by
  simp [mulVec, innerProduct]

end

end RowMatrix

/-! ### Expressions -/

namespace AffineForm

@[simp] theorem routine_ofRow (row : List ℤ) (params : ℕ) : Routine (ofRow row params) := by
  simp [ofRow]

@[simp] theorem routine_sub (left right : AffineForm) : Routine (left.sub right) := by
  simp [sub, add]

@[simp] theorem routine_relayout (form : AffineForm) (dim : ℕ) (positions : List ℕ) :
    Routine (form.relayout dim positions) := by
  simp [relayout, accumulate]

@[simp] theorem routine_embed (form : AffineForm) (dim offset : ℕ) : Routine (form.embed dim offset) := by
  simp [embed]

@[simp] theorem routine_alignParams (form : AffineForm) (source target : List String) :
    Routine (form.alignParams source target) := by
  have positioned : ∀ place, Routine (paramPosition source target place) := by
    intro place
    unfold paramPosition
    split
    · simp [Fault.Routine]
    · split <;> simp [Fault.Routine]
  simp [alignParams, alignCoefficients, positioned]

end AffineForm

end AffineSchedule
