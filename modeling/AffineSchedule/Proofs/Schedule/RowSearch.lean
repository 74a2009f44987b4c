/-
Module: AffineSchedule.Proofs.Schedule.RowSearch
Purpose: What the two searches for rows deliver in the states that the construction comes to. A carrying row
  carries all that rows can carry; the next row of a band is the least of the admissible ones.
-/
import AffineSchedule.Proofs.Construction.AdmissibleRows
import AffineSchedule.Proofs.Construction.CarryingFaults
import AffineSchedule.Proofs.Construction.MaximalCarrying
import AffineSchedule.Proofs.Schedule.Narrowing

namespace AffineSchedule

open Checked AffineSchedule.Graph

variable {start : Graph} {options : Options} {state : Construction}

/-- The states in which the next row of a band is searched for: those to which filling leads from a graph that is taken as
    connected. -/
inductive Searches (options : Options) (start : Graph) : Construction → Prop
  | intro {depth : ℕ} {state last : Construction} {graph : Graph} {use : Bool}
      (entered : Entered options start depth .connected state)
      (measure_ok : state.graph.detectStrong.updateRowsNeeded = .ok graph)
      (runs : BandRuns options graph.clearLocal.hasCoincidence graph.clearLocal.hasConditionalPairs
        (graph.clearLocal.hasCoincidence, { state with graph := graph.clearLocal }) (use, last)) :
      Searches options start { last with graph := { last.graph with conflict := none } }

theorem Searches.tended {size deepest : ℕ} (ready : Ready (SchedulingProblem.blameless options) size deepest start)
    (searches : Searches options start state) : state.graph.Tended ∧ state.cache.Sound ∧ state.graph.Partitioned
      ∧ ∀ node ∈ state.graph.nodes, node.Based := by
  cases searches with
  | @intro _ _ last _ _ entered measure_ok runs =>
    obtain ⟨entered_ready, cache_sound⟩ := ready_of_entered ready (fun allowed => allowed.2 rfl : ¬_) entered
    have measured := (measured_of_updateRowsNeeded entered_ready measure_ok).1.clearLocal
    have at_start := measured.ready.at_start
    obtain ⟨filling, last_sound⟩ := filling_of_runs runs at_start measured.ranked
      (at_start.filling measured.parted.partitioned measured.ranked) cache_sound
    have fresh : Filling _ { last.graph with conflict := none } := filling.of_core_eq rfl
    exact ⟨measured.ready.tended.of_stage rfl fresh.stage, last_sound, fresh.partitioned, fun node node_mem => (fresh.ranked node node_mem).1⟩

namespace SchedulingProblem

variable {problem aligned : SchedulingProblem}

set_option maxRecDepth 100000 in
set_option synthInstance.maxSize 400 in
/-- The first rows of the copied line, as a carrying row and as the next row of a band. -/
theorem copiedLine_rows : ∃ aligned start graph carrying search, copiedLine.align = .ok aligned ∧ aligned.domain ≠ []
    ∧ aligned.graph = .ok start ∧ Worked {} start ⟨graph, ConeCache.empty⟩
    ∧ Searches {} start ⟨{ graph.clearLocal with conflict := none }, ConeCache.empty⟩
    ∧ graph.carryingRow ConeCache.empty {} = .ok carrying ∧ carrying.rows = [[0, 0], [1, 0]]
    ∧ { graph.clearLocal with conflict := none }.nextRow ConeCache.empty {} true = .ok search
    ∧ search.rows = some [[0, 1], [0, 1]] := by
  have computed : (do
      let aligned ← copiedLine.align
      let start ← aligned.graph
      let graph ← (start.separated {}).detectStrong.updateRowsNeeded
      let carrying ← graph.carryingRow ConeCache.empty {}
      let search ← { graph.clearLocal with conflict := none }.nextRow ConeCache.empty {} true
      return (aligned.domain.length, (start.separated {}).componentCount, carrying.rows, search.rows))
        = .ok (2, 1, [[0, 0], [1, 0]], some [[0, 1], [0, 1]]) := by
    apply Checked.ok_of_toOption
    decide +kernel
  simp only [bind_ok, pure_ok, Prod.mk.injEq] at computed
  obtain ⟨aligned, align_ok, start, start_ok, graph, measure_ok, carrying, carry_ok, search, search_ok, domains, connected,
    carrying_rows, search_rows⟩ := computed
  have entered : Entered {} start start.nesting .connected ⟨start.separated {}, ConeCache.empty⟩ := .passed .root connected.le
  exact ⟨aligned, start, graph, carrying, search, align_ok, List.length_pos_iff.mp (domains ▸ Nat.two_pos), start_ok,
    .measured entered measure_ok, .intro entered measure_ok .refl, carry_ok, carrying_rows, search_ok, search_rows⟩

/-- In every state in which the construction of a problem can ask for a carrying row, with no bounds on the coefficients, the
    rows that it gets run no pair of a validity or conditional validity edge backwards, and carry by at least one every
    disjunct on which some such rows keep a positive distance. It is told that nothing can be carried only if there is no such
    disjunct; and if there is none, it is told so, unless a number leaves the range of machine integers or a list of the
    search grows too long. -/
theorem carrying_maximal (align_ok : problem.align = .ok aligned) (nonempty : aligned.domain ≠ [])
    (start_ok : aligned.graph = .ok start) (unlimited : options.maxCoefficient = none ∧ options.maxConstantTerm = none)
    (worked : Worked options start state) :
    (∀ carrying, state.graph.carryingRow state.cache options = .ok carrying →
      state.graph.RowsForward (fun place => (rowsOf state.graph.params.length carrying.rows place).cast)
      ∧ ∀ edge disjunct, state.graph.Carriable edge disjunct → ∀ columns params : ℕ → ℚ,
        disjunct.system.HoldsAt columns params →
        1 ≤ disjunct.distance (rowsOf state.graph.params.length carrying.rows edge.source).cast
          (rowsOf state.graph.params.length carrying.rows edge.target).cast columns params)
    ∧ (state.graph.carryingRow state.cache options = .error (.unschedulable .cannotCarry) →
        ¬ ∃ edge disjunct, state.graph.Carriable edge disjunct)
    ∧ ((¬ ∃ edge disjunct, state.graph.Carriable edge disjunct) →
        ∃ fault, state.graph.carryingRow state.cache options = .error fault
          ∧ (fault = .unschedulable .cannotCarry ∨ Fault.Limits state.graph.carryingSize fault)) := by
  obtain ⟨tended, sound, partitioned, _⟩ := worked.tended (ready_blameless align_ok start_ok options nonempty)
  have holding : ∀ edge ∈ state.graph.edges, ∀ disjunct ∈ edge.relation.disjuncts, disjunct.MayHold :=
    fun edge edge_mem => (tended.kept edge edge_mem).holding
  have carriable_iff : ∀ placed complete columns point, state.graph.CarryingPoint state.cache options placed complete columns point →
      ((∃ edge disjunct, state.graph.Carriable edge disjunct) ↔ Linear.Point.assignment point 0 < state.graph.validityDisjuncts.length) :=
    fun _ _ _ _ => exists_carriable_iff tended.well_formed partitioned sound unlimited holding
  refine ⟨fun carrying done => carries_of_carryingRow tended.well_formed partitioned sound unlimited holding done, ?_, ?_⟩
  · intro stopped
    have faults : FaultsIn (fun fault => fault = .unschedulable .cannotCarry → ¬ ∃ edge disjunct, state.graph.Carriable edge disjunct)
        (state.graph.carryingRow state.cache options) := by
      have routine : ∀ fault, Fault.Routine fault → fault = .unschedulable .cannotCarry →
          ¬ ∃ edge disjunct, state.graph.Carriable edge disjunct := by
        rintro _ routine rfl
        exact routine.elim
      have : Fault.Tolerates _ := .of_routine routine
      refine faultsIn_carryingRow ((routine_carryingProblem options tended.well_formed sound).mono routine) ?_
        (fun _ _ _ _ _ _ => routine) tended.well_formed partitioned sound
      rintro placed complete columns point solves none_carried -
      rw [carriable_iff placed complete columns point solves]
      exact not_lt.mpr none_carried
    exact faults _ stopped rfl
  · intro none_carriable
    cases searched : state.graph.carryingRow state.cache options with
    | ok carrying =>
      obtain ⟨complete, columns, point, solves, _, _, _, carries⟩ := carryingRow_ok searched
      exact absurd ((carriable_iff _ _ _ _ solves).mpr carries) none_carriable
    | error fault =>
      have : Fault.Tolerates fun fault => fault = .unschedulable .cannotCarry ∨ Fault.Limits state.graph.carryingSize fault :=
        ⟨fun _ overflow => Or.inr (Or.inl overflow)⟩
      have set_up := (limits_carryingProblem unlimited tended.well_formed partitioned sound).mono fun fault limits =>
        Or.inr (a := fault = .unschedulable .cannotCarry) limits
      refine ⟨fault, rfl, faultsIn_carryingRow set_up (fun _ _ _ _ _ _ => Or.inl rfl) ?_ tended.well_formed partitioned sound
        fault searched⟩
      intro placed complete columns point solves carries
      exact absurd ((carriable_iff _ _ _ _ solves).mpr carries) none_carriable

/-- The carrying row of the copied line runs the copy one step behind the line. -/
theorem carrying_maximal_copiedLine : ∃ aligned start graph carrying, copiedLine.align = .ok aligned
    ∧ aligned.graph = .ok start ∧ Worked {} start ⟨graph, ConeCache.empty⟩ ∧ graph.carryingRow ConeCache.empty {} = .ok carrying
    ∧ carrying.rows = [[0, 0], [1, 0]] ∧ graph.RowsForward (fun place => (rowsOf graph.params.length carrying.rows place).cast)
    ∧ ∃ edge disjunct, graph.Carriable edge disjunct := by
  obtain ⟨aligned, start, graph, carrying, _, align_ok, nonempty, start_ok, worked, _, carry_ok, rows_eq, _⟩ := copiedLine_rows
  obtain ⟨carries, _, stops⟩ := carrying_maximal align_ok nonempty start_ok ⟨rfl, rfl⟩ worked
  refine ⟨aligned, start, graph, carrying, align_ok, start_ok, worked, carry_ok, rows_eq, (carries carrying carry_ok).1, ?_⟩
  by_contra none_carriable
  obtain ⟨fault, stopped, _⟩ := stops none_carriable
  cases carry_ok.symm.trans stopped

/-- In every state in which the construction of a problem searches for the next row of a band, and whether or not coincidence is
    asked for, the rows that are found are admissible, with a limit of the distances at which they cost no more than any
    admissible rows with any limit. If none are found, no rows are admissible. -/
theorem next_row_least (align_ok : problem.align = .ok aligned) (nonempty : aligned.domain ≠ [])
    (start_ok : aligned.graph = .ok start) (searches : Searches options start state) {coincide : Bool} {search : RowSearch}
    (done : state.graph.nextRow state.cache options coincide = .ok search) :
    (∀ rows, search.rows = some rows →
      ∃ limit, state.graph.Admissible options coincide (rowsOf state.graph.params.length rows) limit
        ∧ ∀ others other_limit, state.graph.Admissible options coincide others other_limit →
          state.graph.rowCost (rowsOf state.graph.params.length rows) limit ≤ state.graph.rowCost others other_limit)
    ∧ (search.rows = none → ∀ rows limit, ¬state.graph.Admissible options coincide rows limit) := by
  obtain ⟨tended, sound, partitioned, based⟩ := searches.tended (ready_blameless align_ok start_ok options nonempty)
  refine ⟨fun rows found => ?_, fun none_found rows limit admissible => ?_⟩
  · exact least_of_nextRow tended.well_formed based partitioned sound (fun edge edge_mem => (tended.kept edge edge_mem).holding) done found
  · exact rows_ne_none_of_admissible tended.well_formed based partitioned sound done admissible none_found

/-- The first row of a band of the copied line runs the copy along with the line. -/
theorem next_row_least_copiedLine : ∃ aligned start graph limit, copiedLine.align = .ok aligned ∧ aligned.graph = .ok start
    ∧ Searches {} start ⟨graph, ConeCache.empty⟩
    ∧ graph.Admissible {} true (rowsOf graph.params.length [[0, 1], [0, 1]]) limit
    ∧ ∀ others other_limit, graph.Admissible {} true others other_limit →
      graph.rowCost (rowsOf graph.params.length [[0, 1], [0, 1]]) limit ≤ graph.rowCost others other_limit := by
  obtain ⟨aligned, start, graph, _, search, align_ok, nonempty, start_ok, _, searches, _, _, search_ok, rows_eq⟩ := copiedLine_rows
  obtain ⟨limit, admissible, least⟩ := (next_row_least align_ok nonempty start_ok searches search_ok).1 _ rows_eq
  exact ⟨aligned, start, _, limit, align_ok, start_ok, searches, admissible, least⟩

end SchedulingProblem

end AffineSchedule
