import AffineSchedule.Proofs.Construction.Bounds
import AffineSchedule.Proofs.Schedule.Coincidence

namespace AffineSchedule

open AffineSchedule.Graph List

variable {first other row : ℕ}

namespace StatementSchedule

variable {statement : StatementSchedule} {node : Node}

/-- Rows of one band have one label. -/
theorem Shows.bands_eq (shows : statement.Shows node) (row_in : statement.InBand row first)
    (other_in : statement.InBand other first) : node.bands[other]? = node.bands[row]? := by
  obtain ⟨label, row_label, other_label⟩ := exists_common_label shows.bandEnds row_in other_in
  exact other_label.trans row_label.symm

theorem Shows.coefficients_eq (shows : statement.Shows node) {form : AffineForm}
    (form_at : statement.map.outputs[row]? = some form) :
    form.params ++ form.coeffs = (node.schedule.rows.getD row []).drop 1 := by
  obtain ⟨entries, entries_at, made⟩ := shows.outputs.getElem?_left form_at
  rw [getD_eq_getElem?_getD, entries_at, Option.getD_some]
  exact AffineForm.coefficients_ofRow made

end StatementSchedule

namespace SchedulingProblem

/-- The coefficients of every row keep to the bound, unless the row carries dependences: then it is not coincident, shares
    its band with no other row, and a positive multiple of it is a row of the carrying problem of some graph. -/
theorem coefficients_bounded {problem : SchedulingProblem} {options : Options} {schedule : Schedule}
    (done : problem.schedule options = .ok schedule) {bound : ℕ} (limit : options.maxCoefficient = some bound)
    {statement : StatementSchedule} (statement_mem : statement ∈ schedule.statements) {row : ℕ} {form : AffineForm}
    (form_at : statement.map.outputs[row]? = some form) :
    (∀ coefficient ∈ form.params ++ form.coeffs, |coefficient| ≤ (bound : ℤ)) ∨ statement.coincident[row]? = some false
        ∧ (∀ first other, statement.InBand row first → statement.InBand other first → other = row)
        ∧ (problem.validity ≠ [] ∨ problem.conditionalValidity ≠ [])
        ∧ ∃ (graph : Graph) (cache : ConeCache) (carrying : CarryingRow), graph.carryingRow cache options = .ok carrying
          ∧ ∃ entries ∈ carrying.rows, ∃ factor : ℤ, 0 < factor
            ∧ entries.drop 1 = (form.params ++ form.coeffs).map (factor * ·) := by
  obtain ⟨node, band, labels, shows, labelled, _, _, holds, zeros⟩ :=
    exists_bandwise done (bandwise_withinOrCarried limit _) statement_mem
  rw [shows.coefficients_eq form_at]
  cases label_at : labels[row]? with
  | none =>
    -- Rows behind the last band are padding.
    refine Or.inl (Node.rowWithin_of_zeros fun coefficient coefficient_mem => ?_)
    obtain ⟨entries, entries_at, _⟩ := shows.outputs.getElem?_left form_at
    rw [getD_eq_getElem?_getD, entries_at, Option.getD_some] at coefficient_mem
    refine zeros entries (mem_of_getElem? (i := row - labels.length) ?_) coefficient coefficient_mem
    rw [getElem?_drop, Nat.add_sub_cancel' (getElem?_eq_none_iff.mp label_at)]
    exact entries_at
  | some label =>
    have in_label : node.InLabel label row := labelled.getElem?_bands_iff.mpr label_at
    have label_lt := (labelled.gap_free.mem_iff label).mp (mem_of_getElem? label_at)
    rcases holds label label_lt with within | ⟨given, single, graph, cache, carrying, carry_ok, divides⟩
    · exact Or.inl (within row in_label)
    · refine Or.inr ⟨shows.coincident ▸ single.unflagged row in_label, fun first other row_in other_in => ?_, given,
        graph, cache, carrying, carry_ok, divides row in_label⟩
      exact single.alone other row ((shows.bands_eq row_in other_in).trans in_label) in_label

/-- A line whose instances run one after the other; the constraint is twice the usual one. -/
def doubledStep : SchedulingProblem :=
  { domain := [everywhere "S" 1]
    validity := [Relation.onLines "S" "S" []
      [{ sense := .zero, form := { constant := -2, coeffs := [-2, 2], params := [] } }]] }

/-- A schedule of the doubled step that has one row. -/
def doubledStepSchedule (coefficient : ℤ) (flag : Bool) : Schedule :=
  Schedule.ofStatements [] 1 [{
    space := Space.named "S" 1
    map := { space := Space.named "S" 1, outputs := [{ constant := 0, coeffs := [coefficient], params := [] }] }
    bandEnds := [1]
    bandIds := [0]
    coincident := [flag] }]

set_option maxRecDepth 100000 in
/-- The carrying row has the multiplier one half, so its coefficient is doubled. -/
theorem doubledStep_schedule : doubledStep.schedule { maxCoefficient := some 1 } = .ok (doubledStepSchedule 1 true)
    ∧ doubledStep.schedule { algorithm := .carrying, maxCoefficient := some 1 } = .ok (doubledStepSchedule 2 false) := by
  constructor <;> apply Checked.ok_of_toOption <;> decide +kernel

/-- The row of the row solver is coincident and keeps to the bound. The carrying row exceeds it; a multiple of it solves a
    carrying problem. -/
theorem coefficients_bounded_doubledStep :
    doubledStep.schedule { maxCoefficient := some 1 } = .ok (doubledStepSchedule 1 true)
      ∧ (∃ statement ∈ (doubledStepSchedule 1 true).statements, ∃ form, statement.map.outputs[0]? = some form
        ∧ statement.coincident[0]? = some true ∧ ∀ coefficient ∈ form.params ++ form.coeffs, |coefficient| ≤ ((1 : ℕ) : ℤ))
      ∧ doubledStep.schedule { algorithm := .carrying, maxCoefficient := some 1 } = .ok (doubledStepSchedule 2 false)
      ∧ ∃ (graph : Graph) (cache : ConeCache) (carrying : CarryingRow),
        graph.carryingRow cache { algorithm := .carrying, maxCoefficient := some 1 } = .ok carrying
          ∧ ∃ entries ∈ carrying.rows, ∃ factor : ℤ, 0 < factor ∧ entries.drop 1 = [factor * 2] := by
  obtain ⟨solved, carried⟩ := doubledStep_schedule
  refine ⟨solved, ⟨_, mem_singleton_self _, _, rfl, rfl, ?_⟩, carried, ?_⟩
  · exact (coefficients_bounded solved rfl (mem_singleton_self _) (rfl : _[0]? = some _)).resolve_right fun exempt => by
      cases exempt.1
  · have exempt := (coefficients_bounded carried rfl (mem_singleton_self _) (rfl : _[0]? = some _)).resolve_left (by decide)
    exact exempt.2.2.2

end SchedulingProblem

end AffineSchedule
