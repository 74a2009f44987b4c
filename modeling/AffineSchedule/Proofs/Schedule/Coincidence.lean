import AffineSchedule.Proofs.Construction.BandShapes
import AffineSchedule.Proofs.Schedule.Bands
import AffineSchedule.Proofs.Schedule.Contracts

namespace AffineSchedule

open Checked AffineSchedule.Graph List

variable {problem : SchedulingProblem} {statement : StatementSchedule}

theorem exists_stop_of_lead {flags : List Bool} {first last : ℕ} (inside : last ≤ flags.length)
    (lead : ∀ row other, first ≤ row → row ≤ other → other < last → flags[other]? = some true → flags[row]? = some true) :
    ∃ stop, ∀ row, first ≤ row → row < last → flags[row]? = some (decide (row < stop)) := by
  induction last with
  | zero => exact ⟨0, fun _ _ before => absurd before (Nat.not_lt_zero _)⟩
  | succ last ih =>
    have flag_at : flags[last]? = some flags[last] := getElem?_eq_getElem inside
    cases flag_eq : flags[last] with
    | true =>
      rw [flag_eq] at flag_at
      refine ⟨last + 1, fun row from_first before => ?_⟩
      rw [decide_eq_true before]
      exact lead row last from_first (Nat.le_of_lt_succ before) (Nat.lt_succ_self last) flag_at
    | false =>
      rw [flag_eq] at flag_at
      obtain ⟨stop, up_to_stop⟩ := ih (Nat.le_of_succ_le inside) fun row other from_first row_le other_lt =>
        lead row other from_first row_le (Nat.lt_succ_of_lt other_lt)
      refine ⟨min stop last, fun row from_first before => ?_⟩
      rcases Nat.lt_succ_iff_lt_or_eq.mp before with earlier | rfl
      · rw [up_to_stop row from_first earlier]
        simp [earlier]
      · simp [flag_at]

theorem StatementSchedule.Divides.inLabel_iff {node : Node} {band : ℕ} {labels : List ℕ}
    (divides : statement.Divides node band labels) (labelled : node.Labelled band labels) {level : ℕ} (inside : level < band)
    (row : ℕ) : node.InLabel level row ↔ statement.bandStart level ≤ row ∧ row < statement.bandStop level := by
  have ascending := labelled.gap_free.ascending
  rw [Node.InLabel, labelled.getElem?_bands_iff, divides.bandStart_eq_countP inside.le, divides.bandStop_eq inside]
  constructor
  · intro label_at
    refine ⟨Nat.le_of_not_lt fun before => ?_, (lt_countP_iff ascending label_at).mpr (Nat.lt_succ_self level)⟩
    exact Nat.lt_irrefl level ((lt_countP_iff ascending label_at).mp before)
  · rintro ⟨from_start, before_stop⟩
    have label_at := getElem?_eq_getElem (before_stop.trans_le countP_le_length)
    have label_le := Nat.le_of_lt_succ ((lt_countP_iff ascending label_at).mp before_stop)
    have label_ge := Nat.le_of_not_lt ((lt_countP_iff ascending label_at).not.mp (Nat.not_lt.mpr from_start))
    rw [label_at, Nat.le_antisymm label_le label_ge]

namespace SchedulingProblem

theorem given_of_hasValidity {aligned : SchedulingProblem} {start : Graph} (align_ok : problem.align = .ok aligned)
    (start_ok : aligned.graph = .ok start) (has_validity : start.HasValidity) :
    problem.validity ≠ [] ∨ problem.conditionalValidity ≠ [] := by
  obtain ⟨edge, edge_mem, any_validity⟩ := has_validity
  have given : ∀ kind, edge.has kind = true → problem.ofKind kind ≠ [] := by
    intro kind has_kind
    obtain ⟨inhabited, stems⟩ := given_of_edge align_ok start_ok edge_mem has_kind
    obtain ⟨conjunct, conjunct_mem⟩ := exists_mem_of_ne_nil _ inhabited
    obtain ⟨relation, relation_mem, _⟩ := stems conjunct conjunct_mem
    exact ne_nil_of_mem relation_mem
  exact (Bool.or_eq_true_iff.mp any_validity).imp (given .validity) (given .conditionalValidity)

theorem exists_bandwise {options : Options} {schedule : Schedule} {property : Node → ℕ → Prop}
    (done : problem.schedule options = .ok schedule)
    (bandwise : Bandwise options (problem.validity ≠ [] ∨ problem.conditionalValidity ≠ []) property)
    (statement_mem : statement ∈ schedule.statements) :
    ∃ node band labels, statement.Shows node ∧ node.Labelled band labels ∧ statement.Divides node band labels
      ∧ node.Finished schedule.totalRows ∧ (∀ label < band, property node label)
      ∧ ∀ row ∈ node.schedule.rows.drop labels.length, ∀ coefficient ∈ row, coefficient = 0 := by
  obtain ⟨_, align_ok, ⟨_, no_statement⟩ | ⟨_, start, finished, start_ok, finished_ok, shown, course, solved⟩⟩ :=
    graph_of_schedule done
  · rw [no_statement] at statement_mem
    cases statement_mem
  · have finishes := finishes_of_graph start_ok finished_ok
    have holds := bandwise.of_course course (given_of_hasValidity align_ok start_ok)
    simp only [Schedule.ofGraph, bind_ok, pure_ok, mapM_ok] at shown
    obtain ⟨statements, each, rfl⟩ := shown
    obtain ⟨node, node_mem, made⟩ := each.exists_left statement_mem
    obtain ⟨_, _, settles⟩ := finishes.nodes.exists_left node_mem
    obtain ⟨band, labels, labelled, zeros⟩ := settles.finished.labelled
    refine ⟨node, band, labels, StatementSchedule.shows_of_ofNode made, labelled,
      StatementSchedule.divides_of_ofNode made labelled, settles.finished, fun label label_lt => ?_, zeros⟩
    obtain ⟨row, label_at⟩ := getElem?_of_mem (labelled.mem_bands label_lt)
    have from_start := solved.grows.labels node node_mem row label (solved.start_rows.trans_le (Nat.zero_le row)) label_at
    exact holds node node_mem label from_start

/-- The coincident rows of a band come first. If coincidence is insisted on at the outermost row, a band of several rows
    begins with a coincident one. -/
theorem coincident_rows_lead {problem : SchedulingProblem} {options : Options} {schedule : Schedule}
    (done : problem.schedule options = .ok schedule) {statement : StatementSchedule}
    (statement_mem : statement ∈ schedule.statements) {level : ℕ} (level_lt : level < statement.bandCount) :
    (∃ stop, ∀ row, statement.bandStart level ≤ row → row < statement.bandStop level →
        statement.coincident[row]? = some (decide (row < stop)))
      ∧ (options.outerCoincidence = true → statement.bandStart level + 1 < statement.bandStop level →
          statement.coincident[statement.bandStart level]? = some true) := by
  obtain ⟨node, band, labels, shows, labelled, divides, finished, flags_lead, _⟩ :=
    exists_bandwise done bandwise_flagsLead statement_mem
  rw [divides.bandCount_eq] at level_lt
  obtain ⟨lead, first⟩ := flags_lead level level_lt
  have in_level := divides.inLabel_iff labelled level_lt
  rw [shows.coincident]
  refine ⟨exists_stop_of_lead ?_ fun row other from_first row_le other_lt flagged => ?_, fun outer several => ?_⟩
  · rw [finished.has_rows.coincident]
    exact ((banded_of_schedule done).statements statement statement_mem).stop_le level
  · exact lead row other row_le ((in_level row).mpr ⟨from_first, row_le.trans_lt other_lt⟩)
      ((in_level other).mpr ⟨from_first.trans row_le, other_lt⟩) flagged
  · refine first outer _ (statement.bandStart level + 1) (Nat.lt_succ_self _) ((in_level _).mpr ⟨Nat.le_succ _, several⟩)
      ((in_level _).mpr ⟨le_rfl, (Nat.lt_succ_self _).trans several⟩) ?_
    exact fun earlier earlier_in => ((in_level earlier).mp earlier_in).1

/-- A plane without dependences. -/
def freePlane : SchedulingProblem := { domain := [everywhere "S" 2] }

/-- The coordinates in order. -/
def freePlaneSchedule : Schedule :=
  Schedule.ofStatements [] 2 [{
    space := Space.named "S" 2
    map := {
      space := Space.named "S" 2
      outputs := [{ constant := 0, coeffs := [1, 0], params := [] }, { constant := 0, coeffs := [0, 1], params := [] }] }
    bandEnds := [2]
    bandIds := [0]
    coincident := [true, true] }]

set_option maxRecDepth 100000 in
theorem freePlane_schedule : freePlane.schedule { outerCoincidence := true } = .ok freePlaneSchedule := by
  apply ok_of_toOption
  decide +kernel

/-- A band of two rows begins with a coincident one. -/
theorem coincident_rows_lead_freePlane : freePlane.schedule { outerCoincidence := true } = .ok freePlaneSchedule
      ∧ ∃ statement ∈ freePlaneSchedule.statements, statement.bandStart 0 + 1 < statement.bandStop 0
        ∧ statement.coincident[statement.bandStart 0]? = some true :=
  ⟨freePlane_schedule, _, mem_singleton_self _, by decide,
    (coincident_rows_lead freePlane_schedule (mem_singleton_self _) (by decide)).2 rfl (by decide)⟩

end SchedulingProblem

end AffineSchedule
