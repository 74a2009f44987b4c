import AffineSchedule.Proofs.Schedule.Soundness

namespace AffineSchedule

open Checked AffineSchedule.Graph

namespace SchedulingProblem

@[simp] theorem routine_align (problem : SchedulingProblem) : Routine problem.align := by
  simp [align, allParams, Space.listParams, Domain.alignParams]

@[simp] theorem routine_ofGraph (graph : Graph) : Routine (Schedule.ofGraph graph) := by
  simp [Schedule.ofGraph, StatementSchedule.ofNode, TimeMap.ofMatrix]

section Problem

variable {problem aligned : SchedulingProblem} {options : Options} (align_ok : problem.align = .ok aligned)
  {start : Graph} (start_ok : aligned.graph = .ok start)
include align_ok start_ok

/-- An edge stems from the relations of the problem that are given for its kinds. -/
theorem given_of_edge {edge : Edge} (edge_mem : edge ∈ start.edges) {kind : Kind}
    (has_kind : edge.has kind = true) : edge.relation.disjuncts ≠ [] ∧ ∀ conjunct ∈ edge.relation.disjuncts,
      ∃ relation ∈ problem.ofKind kind, ∃ result, relation.alignParams aligned.params = .ok result
        ∧ result.Gives start.findNode? edge.source edge.target conjunct := by
  have edge_drawn := drawn_of_build start_ok edge edge_mem
  refine ⟨edge_drawn.inhabited, fun conjunct conjunct_mem => ?_⟩
  obtain ⟨entry, entry_mem, kind_eq, stems⟩ := edge_drawn.stems kind has_kind
  obtain ⟨result, result_mem, gives⟩ := stems conjunct conjunct_mem
  obtain ⟨same, _, rfl⟩ := List.mem_map.mp entry_mem
  obtain rfl : same = kind := kind_eq
  obtain ⟨relation, relation_mem, result_ok⟩ := (aligns_of_align align_ok).origins same result result_mem
  exact ⟨relation, relation_mem, result, result_ok, gives⟩

end Problem

/-- A schedule that solves its problem, with the course its rows have taken. -/
structure Traced (problem : SchedulingProblem) (options : Options) (schedule : Schedule)
    (start final : Graph) : Prop where
  of_problem : ∃ aligned, problem.align = .ok aligned ∧ aligned.graph = .ok start
  solved : Solved problem schedule start final
  course : Course options start final
  rows_le : schedule.totalRows ≤ start.nodes.length + 2 * start.deepest

/-- The schedule has no statements, or it has a course. -/
def Computed (problem : SchedulingProblem) (options : Options) (schedule : Schedule) : Prop :=
  (schedule.statements = [] ∧ schedule.totalRows = 0) ∨ ∃ start final, Traced problem options schedule start final

/-- A schedule is computed along a course, or the computation stops with a tolerated fault. -/
theorem meets_schedule (problem : SchedulingProblem) {options : Options} (regime : Regime options)
    (suited : ∀ aligned start, problem.align = .ok aligned → aligned.graph = .ok start → start.Suited regime.suits) :
    Meets regime.allowed (problem.schedule options) (problem.Computed options) := by
  refine ((routine_align problem).mono regime.routine).bind fun aligned align_ok => ?_
  split
  case isTrue => exact meets_pure (Or.inl ⟨rfl, rfl⟩)
  case isFalse has_domain =>
    have nonempty : aligned.domain ≠ [] := by simpa using has_domain
    have graph_routine := routine_build aligned.params aligned.domain aligned.nodup_relations
    refine (graph_routine.mono regime.routine).bind fun start start_ok => ?_
    have ready := ready_of_graph align_ok start_ok nonempty (suited aligned start align_ok start_ok)
    refine (contained_of_schedule ready).bind fun finished finished_ok completes => ?_
    refine ⟨(routine_ofGraph _).mono regime.routine, fun schedule schedule_ok => Or.inr ⟨start, finished.graph, ?_⟩⟩
    have solved := solved_of_graph align_ok start_ok completes.course schedule_ok
    exact ⟨⟨aligned, align_ok, start_ok⟩, solved, completes.course, solved.rows ▸ completes.rows_le⟩

theorem meets_schedule_blameless (problem : SchedulingProblem) (options : Options) :
    Meets (blameless options).allowed (problem.schedule options) (problem.Computed options) :=
  problem.meets_schedule (blameless options) fun _ _ align_ok start_ok => suited_blameless align_ok start_ok options

theorem Traced.deepest_le {problem : SchedulingProblem} {options : Options} {schedule : Schedule}
    {start final : Graph} (traced : Traced problem options schedule start final) {depth : ℕ}
    (dims_le : ∀ statement ∈ schedule.statements, statement.space.dim ≤ depth) : start.deepest ≤ depth := by
  refine foldl_max_le (Nat.zero_le depth) fun node node_mem => ?_
  obtain ⟨last, last_mem, prolonged⟩ := traced.solved.grows.nodes.exists_right node_mem
  obtain ⟨statement, statement_mem, shows⟩ := traced.solved.statements.exists_right last_mem
  have space_eq : statement.space = node.space := shows.space.trans prolonged.space
  exact space_eq ▸ dims_le statement statement_mem

/-- No contract of the construction is ever broken and its solver never runs out of bounds. A schedule of `n`
    statements with at most `d` dimensions has at most `n + 2 * d` rows. -/
theorem contracts_kept (problem : SchedulingProblem) (options : Options) :
    (∀ contract, problem.schedule options ≠ .error (.internal contract))
      ∧ problem.schedule options ≠ .error (.solver .unbounded)
      ∧ ∀ schedule, problem.schedule options = .ok schedule → ∀ depth : ℕ,
          (∀ statement ∈ schedule.statements, statement.space.dim ≤ depth) →
          schedule.totalRows ≤ schedule.statements.length + 2 * depth := by
  obtain ⟨faults, computed⟩ := meets_schedule_blameless problem options
  refine ⟨fun contract stopped => ?_, fun stopped => ?_, fun schedule done depth dims_le => ?_⟩
  · exact (faults _ stopped).1 contract rfl
  · exact (faults _ stopped).2 rfl
  · rcases computed schedule done with ⟨_, no_rows⟩ | ⟨start, final, traced⟩
    · exact no_rows ▸ Nat.zero_le _
    · have length_eq : start.nodes.length = schedule.statements.length :=
        traced.solved.grows.nodes.length_eq.trans traced.solved.statements.length_eq
      calc schedule.totalRows ≤ start.nodes.length + 2 * start.deepest := traced.rows_le
        _ ≤ schedule.statements.length + 2 * depth := by
          have deepest_le := traced.deepest_le dims_le
          omega

/-- Two statements with one dimension need at most four rows. -/
theorem contracts_kept_copiedLine : copiedLine.schedule {} = .ok copiedLineSchedule
    ∧ copiedLineSchedule.totalRows ≤ copiedLineSchedule.statements.length + 2 * 1 :=
  ⟨copiedLine_schedule, (contracts_kept copiedLine {}).2.2 copiedLineSchedule copiedLine_schedule 1 (by decide)⟩

end SchedulingProblem

end AffineSchedule
