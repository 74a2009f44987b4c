import AffineSchedule.Proofs.Construction.Readiness

namespace AffineSchedule

open Checked AffineSchedule.Graph Edge List Node ComponentFilter AffineSchedule.Relation

variable {graph start ordered : Graph} {state : Construction} {count : ℕ} {forced : Bool} {filled : Construction}
  {next : Graph}

/-! ### Routine parts -/

namespace Graph

section

variable (graph : Graph)

theorem routine_violatedRelations (edges : List Edge) :
    Routine (graph.violatedRelations edges) := by
  induction edges with
  | nil => simp [violatedRelations]
  | cons edge later ih => simp [violatedRelations, isViolated, ordersBackwards, ih]

theorem routine_localizeAdjacent (violated : List Relation) (edges : List Edge) :
    Routine (graph.localizeAdjacent violated edges) := by
  induction edges with
  | nil => simp [localizeAdjacent]
  | cons edge later ih =>
    simp [localizeAdjacent, Edge.isAdjacentTo, isAdjacent, domainMeetsRange,
      rangeMeetsDomain, satisfiesCondition, ih]

theorem routine_checkConditional : Routine graph.checkConditional := by
  simp [checkConditional, routine_violatedRelations, routine_localizeAdjacent]

end

theorem routine_splitFactor (room : graph.counters.totalRows < graph.counters.maxRows) : Routine graph.splitFactor := by
  have divides : ∀ (node : Node) (index : ℕ) (factor : ℤ), Routine (node.divideRow index factor) := by
    intro node index factor
    simp [divideRow]
  have appends : ∀ value, Routine (graph.nextBand.appendConstantRow value) := fun value => routine_appendConstantRow room
  simp [splitFactor, rowFactor, divides, appends]

theorem routine_sortStatements (tabled : graph.Tabled)
    (room : 1 < graph.nodes.length → graph.counters.totalRows < graph.counters.maxRows) : Routine (sortStatements graph) := by
  rw [sortStatements]
  split
  case isTrue => exact faultsIn_pure _
  case isFalse several =>
    refine faultsIn_bind_iff.mpr ⟨routine_narrowEdges tabled, fun narrowed narrow_ok => ?_⟩
    split
    case isTrue => exact faultsIn_pure _
    case isFalse =>
      obtain ⟨_, _, rfl⟩ := exists_edges_of_narrowEdges narrow_ok
      exact routine_appendConstantRow (room (Nat.lt_of_not_le several))

/-- Sorting the statements adds at most a row. -/
theorem rows_of_sortStatements (done : sortStatements graph = .ok next) :
    next.counters.totalRows ≤ graph.counters.totalRows + 1 := by
  obtain ⟨_, _, rfl⟩ | ⟨edges, table, _, append_ok⟩ := sortStatements_ok done
  · exact Nat.le_succ _
  · exact (congrArg (·.counters.totalRows) (appendConstantRow_ok append_ok).1).le

end Graph

/-! ### Nested steps -/

/-- All rows of a graph are there: they are paid for, and they came about along a course. -/
structure Construction.Completes (options : Options) (size deepest : ℕ) (start : Graph)
    (final : Construction) : Prop where
  rows_le : final.graph.counters.totalRows ≤ size + 2 * deepest
  cache : final.cache.Sound
  course : Course options start final.graph

open Construction (Completes)

theorem Construction.Completes.of_sameRows {options : Options} {size deepest : ℕ} {final : Construction}
    (done : Completes options size deepest graph final) (same : graph.SameRows start) :
    Completes options size deepest start final := ⟨done.rows_le, done.cache, .rebased same done.course⟩

/-- From a ready graph, a nested step completes the rows, or stops with a tolerated fault. -/
def NestedStep.Contained {options : Options} (nested : NestedStep) (regime : Regime options) (size deepest : ℕ) : Prop :=
  ∀ scope state, Ready regime size deepest state.graph → state.cache.Sound →
    Meets regime.allowed (nested scope state) (Completes options size deepest state.graph)

/-- A nested step delivers a graph with so many rows, from a ready graph with the given counters. -/
def NestedStep.Delivers {options : Options} (nested : NestedStep) (regime : Regime options) (size deepest : ℕ)
    (scope : Scope) (counters : BandCounters) (rows : ℕ) : Prop :=
  ∃ state final, Ready regime size deepest state.graph ∧ state.cache.Sound ∧ state.graph.counters = counters
    ∧ nested scope state = .ok final ∧ final.graph.counters.totalRows = rows

/-- So many rows are no more than those that are counted, or than those of a connected part that is constructed. -/
def NestedStep.Accounts {options : Options} (nested : NestedStep) (regime : Regime options) (size deepest : ℕ)
    (counters : BandCounters) (rows : ℕ) : Prop :=
  rows ≤ counters.totalRows ∨ ∃ most, rows ≤ most ∧ nested.Delivers regime size deepest .connected counters most

section Steps

variable {options : Options} {regime : Regime options} {size deepest : ℕ} {nested : NestedStep}

theorem Regime.faultsIn (regime : Regime options) {α : Type} {computed : Checked α} (routine : Routine computed) :
    FaultsIn regime.allowed computed := routine.mono regime.routine

/-! ### Parts -/

/-- The counters of a graph, up to those that its parts are counted with. -/
def SharesCounters (start graph : Graph) : Prop :=
  graph.counters = { start.counters with totalRows := graph.counters.totalRows, band := graph.counters.band }

theorem SharesCounters.refl (graph : Graph) : SharesCounters graph graph := rfl

theorem SharesCounters.withCounts (shared : SharesCounters start state.graph) :
    (state.withCounts start.counters.totalRows start.counters.band).graph.counters = start.counters := by
  simp only [Construction.withCounts]
  rw [shared]

theorem divided_of_separate {nodes : List Node} (ready : Ready regime size deepest graph) (parted : graph.Parted)
    (ordered_ok : (if forced || options.fuse = .minimal || options.separateComponents then graph.splitOnComponents
      else pure graph) = .ok ordered)
    (cores : Forall₂ (fun before after : Node => after.core = before.core) ordered.nodes nodes) :
    Divided regime size deepest { ordered with nodes := nodes } (graph.nodes.length - 1)
      ∧ Arranges graph { ordered with nodes := nodes } ∧ { ordered with nodes := nodes }.Parted := by
  have spare : graph.nodes.length = graph.nodes.length - 1 + 1 := by
    have positive := length_pos_iff.mpr ready.nonempty
    omega
  have relabelled : { ordered with nodes := nodes }.core = ordered.core := core_withNodes cores
  have same := sameRows_of_core_eq relabelled
  suffices facts : Divided regime size deepest ordered (graph.nodes.length - 1) ∧ ordered.Parted
      ∧ ∀ next : Graph, next.SameRows ordered → Arranges graph next by
    obtain ⟨divided, ordered_parted, arranges⟩ := facts
    refine ⟨⟨same.atBandStart divided.at_start, divided.tabled, ?_, divided.locals,
      divided.forward.of_components (components_of_core_eq relabelled) rfl, divided.budget.of_sameRows same⟩,
      arranges _ same, ordered_parted.of_parts (sameParts_of_core_eq relabelled)⟩
    exact divided.suited.of_prolongs (same.nodes.imp fun _ _ node_same => node_same.prolongs) rfl
  split at ordered_ok
  case isTrue =>
    simp only [splitOnComponents, bind_ok, pure_ok] at ordered_ok
    obtain ⟨appended, append_ok, rfl⟩ := ordered_ok
    have edges_eq : appended.edges = graph.edges := congrArg (·.edges) (appendConstantRow_ok append_ok).1
    have ordinal_le : ∀ edge ∈ graph.edges, edge.isAnyValidity = true → ∀ a b, graph.nodes[edge.source]? = some a →
        graph.nodes[edge.target]? = some b → a.ordinal ≤ b.ordinal := by
      intro edge edge_mem is_validity a b a_at b_at
      rw [parted.partitioned.ordinal_eq ready.at_start.well_formed (mem_of_getElem? a_at),
        parted.partitioned.ordinal_eq ready.at_start.well_formed (mem_of_getElem? b_at)]
      exact Int.ofNat_le.mpr (parted.forward edge edge_mem is_validity a b a_at b_at)
    have appended_parted := parted.of_parts (sameParts_of_appendConstantRow append_ok).nextBand
    obtain ⟨order, _⟩ := ready.at_start.ordered_components parted.partitioned (by rw [splitOnComponents, append_ok]; rfl)
    have budget := ready.budget.appendConstantRow spare append_ok
    refine ⟨⟨order.at_start, ready.tabled.of_sameEdges order.edges, ready.suited.of_prolongs order.grows.nodes order.edges, ?_,
      appended_parted.forward, budget.max_rows, budget.total, budget.rank⟩, appended_parted, ?_⟩
    · intro edge edge_mem
      exact ready.locals edge (edges_eq ▸ edge_mem)
    · exact fun next same => .row (SameRows.refl graph) append_ok ordinal_le same
  case isFalse =>
    obtain rfl := pure_ok.mp ordered_ok
    have total := ready.budget.total
    refine ⟨⟨ready.at_start, ready.tabled, ready.suited, ready.locals, parted.forward, ready.budget.max_rows, ?_,
      ready.budget.rank⟩, parted, fun next same => .plain same⟩
    omega

theorem counters_of_ordered {condition : Prop} [Decidable condition]
    (done : (if condition then graph.splitOnComponents else pure graph) = .ok ordered) :
    ordered.counters.rows = graph.counters.rows ∧ ordered.counters.totalRows ≤ graph.counters.totalRows + 1 := by
  split at done
  case isTrue =>
    simp only [splitOnComponents, bind_ok, pure_ok] at done
    obtain ⟨appended, append_ok, rfl⟩ := done
    obtain ⟨appended_eq, _⟩ := appendConstantRow_ok append_ok
    exact ⟨congrArg (·.counters.rows) appended_eq, (congrArg (·.counters.totalRows) appended_eq).le⟩
  case isFalse =>
    obtain rfl := pure_ok.mp done
    exact ⟨rfl, Nat.le_succ _⟩

theorem separateComponents_eq_bind (nested : NestedStep) :
    separateComponents nested options forced state
      = (if forced || options.fuse = .minimal || options.separateComponents then state.graph.splitOnComponents
          else pure state.graph) >>= fun ordered => do
        let nodes ← ordered.nodes.mapM fun node => node.updateBandId ordered.counters.band (Size.add · node.component)
        let labelled := { ordered with nodes := nodes }
        let finished ← constructComponents nested labelled.counters (List.range labelled.componentCount)
          { state with graph := labelled }
        return { finished with graph := ← finished.graph.padRows } := by
  rw [separateComponents]
  split <;> rfl

/-! ### Connected graphs -/

/-- A ready graph with its components and the rows it needs. -/
structure Measured (regime : Regime options) (size deepest : ℕ) (graph : Graph) : Prop where
  ready : Ready regime size deepest graph
  parted : graph.Parted
  ranked : graph.Ranked
  needed_le : graph.rowsNeeded ≤ deepest
  tight : graph.Tight

theorem Measured.of_core_eq (measured : Measured regime size deepest graph) (same : next.core = graph.core)
    (locals : next.OnlyConditionsLocal) : Measured regime size deepest next := by
  have same_rows := sameRows_of_core_eq same
  have needed_eq : next.rowsNeeded = graph.rowsNeeded := congrArg (·.rowsNeeded) same
  exact ⟨measured.ready.of_sameRows same_rows locals, measured.parted.of_parts (sameParts_of_core_eq same),
    ranked_of_core_eq same.symm measured.ranked, needed_eq ▸ measured.needed_le, measured.tight.of_sameRows same_rows needed_eq⟩

theorem Measured.clearLocal (measured : Measured regime size deepest graph) : Measured regime size deepest graph.clearLocal := by
  refine measured.of_core_eq (core_clearLocal graph) fun edge edge_mem is_local => absurd is_local ?_
  rw [nothing_local_clearLocal measured.ready.locals edge edge_mem]
  exact Bool.false_ne_true

theorem measured_of_updateRowsNeeded (ready : Ready regime size deepest graph)
    (done : graph.detectStrong.updateRowsNeeded = .ok next) :
    Measured regime size deepest next ∧ next.SameRows graph.detectStrong := by
  have detected : graph.detectStrong.SameRows graph := sameRows_assign
  have detected_ready := ready.of_sameRows detected ready.locals
  obtain ⟨same, ranked, parts⟩ := ranked_of_updateRowsNeeded done
  have needed_le := detected_ready.budget.rowsNeeded_le detected_ready.at_start.well_formed done
  have tight := tight_of_updateRowsNeeded detected_ready.at_start.well_formed done detected_ready.nonempty
  simp only [updateRowsNeeded, bind_ok, pure_ok, mapM_ok] at done
  obtain ⟨nodes, each, rfl⟩ := done
  exact ⟨⟨detected_ready.of_sameRows same ready.locals, (parted_detectStrong ready.tabled).of_parts parts, ranked, needed_le, tight⟩,
    same⟩

section

variable (measured : Measured regime size deepest start) (filling : Filling start graph) (locals : graph.OnlyConditionsLocal)
include measured filling locals

theorem Measured.of_empty (same : graph.SameRows start) : Measured regime size deepest graph := by
  exact ⟨measured.ready.of_sameRows same locals, measured.parted.of_parts filling.parts, filling.ranked,
    filling.needed ▸ measured.needed_le, measured.tight.of_sameRows same filling.needed⟩

end

theorem meets_sortStatements (measured : Measured regime size deepest start) (fills : Fills options start .complete filled) :
    Meets regime.allowed (do return { filled with graph := ← sortStatements (closeBand filled.graph) })
      (Completes options size deepest start) := by
  have filling := fills.filling
  have budget := filling.budget measured.ready.budget measured.needed_le
  have nonempty := nodes_ne_nil filling.stage.grows.nodes measured.ready.nonempty
  have room := budget.room nonempty (length_pos_iff.mpr measured.ready.nonempty)
  have tabled := measured.ready.tabled.of_sameEdges filling.stage.edges
  have same_edges : filled.graph.SameEdges (closeBand filled.graph) := by
    unfold closeBand
    split <;> rfl
  have rows_eq := totalRows_closeBand filled.graph
  have max_eq : (closeBand filled.graph).counters.maxRows = filled.graph.counters.maxRows := by
    unfold closeBand
    split <;> rfl
  have sorts := routine_sortStatements (tabled.of_sameEdges same_edges) fun _ => (rows_eq.trans_lt room).trans_eq max_eq.symm
  refine (regime.faultsIn sorts).bind fun sorted sort_ok => meets_pure ⟨?_, fills.spec.2.1, .sorted fills sort_ok⟩
  have added := rows_of_sortStatements sort_ok
  rw [rows_eq] at added
  have total := budget.total
  have rows_le := budget.rows_le nonempty
  have positive := length_pos_iff.mpr measured.ready.nonempty
  dsimp only
  omega

theorem meets_fillBand_of_measured {cache : ConeCache} (steps : ℕ) (measured : Measured regime size deepest start)
    (cache_sound : cache.Sound) : Meets regime.allowed
      (fillBand options start.hasCoincidence start.hasConditionalPairs steps start.hasCoincidence ⟨start, cache⟩) fun result =>
      ∃ use last, BandRuns options start.hasCoincidence start.hasConditionalPairs (start.hasCoincidence, ⟨start, cache⟩)
        (use, last) ∧ BandEnds options use last result := by
  have at_start := measured.ready.at_start
  have begins := at_start.filling measured.parted.partitioned measured.ranked
  refine meets_fillBand steps (fun _ _ => regime.unfinished .rows) ?_ ?_ (fun graph => regime.faultsIn (routine_checkConditional graph))
    fun graph => regime.faultsIn (routine_resetBand graph)
  · intro use last runs _
    obtain ⟨filling, last_sound⟩ := filling_of_runs runs at_start measured.ranked begins cache_sound
    have fresh : Filling start { last.graph with conflict := none } := filling.of_core_eq rfl
    exact regime.faultsIn (routine_nextRow options use fresh.stage.well_formed
      (fun node node_mem => (fresh.ranked node node_mem).1) fresh.partitioned last_sound)
  · intro use last search rows runs searched found
    obtain ⟨filling, last_sound⟩ := filling_of_runs runs at_start measured.ranked begins cache_sound
    obtain ⟨same, _, _⟩ := searched.sound filling last_sound
    have budget := (filling.of_core_eq same).budget measured.ready.budget measured.needed_le
    have room : search.graph.counters.totalRows < search.graph.counters.maxRows := by
      apply budget.room_of_lt
      rw [counters_of_core_eq same]
      exact searched.incomplete.trans_le (filling.needed.trans_le measured.needed_le)
    exact regime.faultsIn (routine_appendRow room (length_of_nextRow searched.done found))

/-! ### Steps that nest -/

variable (contained : nested.Contained regime size deepest)
include contained

/-- Continuing with a new band completes what is ready for it. -/
theorem meets_continueBands (ready : Ready regime size deepest state.graph.nextBand) (cache_sound : state.cache.Sound) :
    Meets regime.allowed (continueBands nested state) fun final => final.graph.counters.totalRows ≤ size + 2 * deepest
      ∧ final.cache.Sound ∧ ∃ narrowed, state.graph.narrowEdges = .ok narrowed ∧ Grows narrowed.nextBand.Links narrowed.nextBand final.graph
        ∧ Course options narrowed.nextBand final.graph := by
  have tabled : state.graph.Tabled := ready.tabled
  refine (regime.faultsIn (routine_narrowEdges tabled)).bind fun narrowed narrow_ok => ?_
  have narrowed_ready := ready.narrow (narrowEdges_nextBand narrow_ok)
  have entered_cache : ({ state with graph := narrowed.nextBand } : Construction).cache.Sound := cache_sound
  refine (contained .whole _ narrowed_ready entered_cache).imp fun final completes => ?_
  exact ⟨completes.rows_le, completes.cache, narrowed, narrow_ok, completes.course.grows narrowed_ready.at_start,
    completes.course⟩

/-- Constructing an untouched part of a divided graph. -/
theorem meets_constructPart {scope : Scope} {filter : ComponentFilter} (divided : Divided regime size deepest ordered count)
    (inhabited : ∃ node ∈ ordered.nodes, filter.keepsNode node.component = true)
    (smaller : (ordered.nodes.filter fun node => filter.keepsNode node.component).length ≤ count)
    (assembles : Assembles ordered state.graph) (untouched : Untouched filter ordered state.graph)
    (counters_eq : state.graph.counters = ordered.counters) (cache_sound : state.cache.Sound) :
    Meets regime.allowed (constructPart nested scope state filter) fun final =>
      final.graph.counters.totalRows ≤ size + 2 * deepest ∧ final.cache.Sound ∧ SharesCounters ordered final.graph
        ∧ Restores filter ordered state.graph final.graph
        ∧ nested.Delivers regime size deepest scope ordered.counters final.graph.counters.totalRows
        ∧ ∃ part finished, PartCourse options filter ordered final.graph part finished := by
  have forward : state.graph.Forward :=
    divided.forward.of_components (assembles.nodes.imp fun _ _ related => related.2) (.of_eq assembles.edges assembles.table)
  have tabled := divided.tabled.of_sameEdges (.of_eq assembles.edges assembles.table)
  refine (regime.faultsIn (routine_extract filter forward tabled)).bind fun part extracted => ?_
  have ready := divided.ready_of_extract inhabited smaller assembles untouched counters_eq extracted
  have entered_cache : ({ state with graph := part } : Construction).cache.Sound := cache_sound
  refine (contained scope _ ready entered_cache).bind fun finished delivered completes => ?_
  have grows := completes.course.grows ready.at_start
  refine meets_pure ⟨completes.rows_le, completes.cache, ?_, assembles.restores extracted grows.nodes rfl rfl rfl rfl, ?_, part,
    finished.graph, ?_⟩
  · simp only [SharesCounters, restore]
    rw [counters_eq]
  · have part_counters := (extract_ok extracted).2.1
    exact ⟨_, finished, ready, entered_cache, part_counters.trans counters_eq, delivered, rfl⟩
  · refine ⟨assembles.regroups untouched counters_eq extracted, grows, completes.course, le_rfl, ?_⟩
    intro i in_part node node_at
    obtain ⟨before, before_at, keeps⟩ := (assembles.inPart_iff i).mpr in_part
    obtain ⟨found, found_at, prolonged, restored_at⟩ :=
      getElem?_restoreNodes_of_keeps extracted grows.nodes before_at keeps
    obtain rfl := Option.mem_unique restored_at node_at
    rw [selectedBefore_congr (assembles.nodes.imp fun _ _ related => related.2)] at found_at
    exact ⟨found, found_at, prolonged.sameRows_withRowsOf⟩

theorem meets_constructComponents (divided : Divided regime size deepest ordered count) {components : List ℕ} (distinct : components.Nodup)
    (inhabited : ∀ component ∈ components, ∃ node ∈ ordered.nodes, node.component = component)
    (smaller : ∀ component ∈ components,
      (ordered.nodes.filter fun node => (ComponentFilter.exactly component).keepsNode node.component).length ≤ count)
    (assembles : Assembles ordered state.graph)
    (untouched : ∀ component ∈ components, Untouched (.exactly component) ordered state.graph)
    (shared : SharesCounters ordered state.graph) (rows_le : state.graph.counters.totalRows ≤ size + 2 * deepest)
    (accounts : nested.Accounts regime size deepest ordered.counters state.graph.counters.totalRows)
    (cache_sound : state.cache.Sound) :
    Meets regime.allowed (constructComponents nested ordered.counters components state) fun final =>
      Assembles ordered final.graph ∧ final.graph.counters.totalRows ≤ size + 2 * deepest
        ∧ nested.Accounts regime size deepest ordered.counters final.graph.counters.totalRows
        ∧ final.cache.Sound ∧ (∀ component ∈ components, ∃ part finished,
            PartCourse options (.exactly component) ordered final.graph part finished)
        ∧ ∀ component ∉ components, ∀ part finished, PartCourse options (.exactly component) ordered state.graph part finished →
            PartCourse options (.exactly component) ordered final.graph part finished := by
  induction components generalizing state with
  | nil =>
    exact meets_pure ⟨assembles, rows_le, accounts, cache_sound, fun _ absent => absurd absent not_mem_nil, fun _ _ _ _ => id⟩
  | cons component later ih =>
    obtain ⟨first_absent, later_distinct⟩ := nodup_cons.mp distinct
    obtain ⟨first_inhabited, later_inhabited⟩ := forall_mem_cons.mp inhabited
    obtain ⟨first_smaller, later_smaller⟩ := forall_mem_cons.mp smaller
    have reset_assembles := Assembles.withCounts assembles ordered.counters.totalRows ordered.counters.band
    have reset_cache : (state.withCounts ordered.counters.totalRows ordered.counters.band).cache.Sound := cache_sound
    have kept : ∃ node ∈ ordered.nodes, (ComponentFilter.exactly component).keepsNode node.component = true := by
      obtain ⟨node, node_mem, component_eq⟩ := first_inhabited
      exact ⟨node, node_mem, decide_eq_true component_eq⟩
    refine (meets_constructPart contained divided kept first_smaller reset_assembles
      (untouched component mem_cons_self) shared.withCounts reset_cache).bind fun finished _ facts => ?_
    obtain ⟨finished_le, part_cache, finished_shared, restores, delivers, part, part_finished, part_course⟩ := facts
    have finished_accounts : nested.Accounts regime size deepest ordered.counters
        (max state.graph.counters.totalRows finished.graph.counters.totalRows) := by
      rcases Nat.le_total state.graph.counters.totalRows finished.graph.counters.totalRows with below | above
      · exact Or.inr ⟨_, (Nat.max_eq_right below).le, delivers⟩
      · rwa [Nat.max_eq_left above]
    have counted := Assembles.withCounts restores.assembles
      (max state.graph.counters.totalRows finished.graph.counters.totalRows)
      (max state.graph.counters.band finished.graph.counters.band)
    refine (ih later_distinct later_inhabited later_smaller counted
      (fun other other_mem => restores.untouched reset_assembles
        (not_exactly_of_ne (ne_of_mem_of_not_mem other_mem first_absent)) (untouched other (mem_cons_of_mem _ other_mem)))
      (by simp only [SharesCounters, Construction.withCounts]; rw [finished_shared]) (Nat.max_le.mpr ⟨rows_le, finished_le⟩)
      finished_accounts part_cache).imp fun final facts => ?_
    obtain ⟨final_assembles, final_le, final_accounts, final_cache, courses, carried_on⟩ := facts
    refine ⟨final_assembles, final_le, final_accounts, final_cache, ?_, ?_⟩
    · intro other other_mem
      rcases mem_cons.mp other_mem with rfl | in_later
      · exact ⟨part, part_finished, carried_on other first_absent part part_finished
          (part_course.of_unchanged (fun _ _ => rfl) (le_max_right _ _))⟩
      · exact courses other in_later
    · intro other absent other_part other_finished other_course
      obtain ⟨different, not_later⟩ := not_or.mp (mem_cons.not.mp absent)
      refine carried_on other not_later other_part other_finished (other_course.of_unchanged ?_ (le_max_left _ _))
      exact fun i in_part => restores.getElem?_eq reset_assembles (not_exactly_of_ne different) in_part

/-- Separating the components completes a graph with several of them, and its rows are those of a part. -/
theorem meets_separateComponents
    (ready : Ready regime size deepest state.graph) (parted : state.graph.Parted) (several : 1 < state.graph.componentCount)
    (separated : forced = false → options.fuse ≠ .minimal → state.graph.Separated) (cache_sound : state.cache.Sound) :
    Meets regime.allowed (separateComponents nested options forced state) fun final =>
      Completes options size deepest state.graph final ∧ ∃ counters : BandCounters,
        counters.rows = state.graph.counters.rows ∧ counters.totalRows ≤ state.graph.counters.totalRows + 1
          ∧ nested.Accounts regime size deepest counters final.graph.counters.totalRows := by
  have nodes_pos := length_pos_iff.mpr ready.nonempty
  have ordering_routine : Routine (if forced || options.fuse = .minimal || options.separateComponents then
      state.graph.splitOnComponents else pure state.graph) := by
    have room := ready.budget.room ready.nonempty nodes_pos
    refine faultsIn_ite_iff.mpr ⟨fun _ => ?_, fun _ => faultsIn_pure _⟩
    exact faultsIn_bind_iff.mpr ⟨routine_appendConstantRow room, fun _ _ => faultsIn_pure _⟩
  rw [separateComponents_eq_bind]
  refine (regime.faultsIn ordering_routine).bind fun ordered ordered_ok => ?_
  refine (regime.faultsIn (faultsIn_mapM fun node _ => routine_updateBandId node _ fun _ => by simp)).bind
    fun nodes each => ?_
  have cores : Forall₂ (fun before after : Node => after.core = before.core) ordered.nodes nodes :=
    (mapM_ok.mp each).imp fun _ _ step => core_of_updateBandId step
  obtain ⟨divided, arranged, labelled_parted⟩ := divided_of_separate ready parted ordered_ok cores
  obtain ⟨order, count_eq, parcels⟩ := ready.at_start.parcels_separate parted.partitioned separated ordered_ok cores
  have entered_cache : ({ state with graph := { ordered with nodes := nodes } } : Construction).cache.Sound := cache_sound
  have length_eq : nodes.length = state.graph.nodes.length := order.grows.nodes.length_eq.symm
  have smaller : ∀ component ∈ List.range ordered.componentCount,
      (nodes.filter fun node => (ComponentFilter.exactly component).keepsNode node.component).length
        ≤ state.graph.nodes.length - 1 := by
    intro component _
    have fewer := labelled_parted.length_component_lt (several.trans_eq count_eq.symm) component
    dsimp only at fewer
    omega
  have room : ordered.counters.totalRows ≤ size + 2 * deepest := by
    have rows_le := divided.budget.rows_le (length_pos_iff.mp (length_eq ▸ nodes_pos))
    have total := divided.budget.total
    dsimp only at rows_le total
    omega
  refine (meets_constructComponents contained divided nodup_range
    (fun component component_mem => labelled_parted.populated component (mem_range.mp component_mem)) smaller
    (assembles_refl _) (fun _ _ => untouched_refl _ _) (SharesCounters.refl _) room (Or.inl le_rfl)
    entered_cache).bind fun finished _ facts => ?_
  obtain ⟨assembles, finished_le, accounts, finished_cache, courses, _⟩ := facts
  refine (regime.faultsIn (routine_padRows _)).bind fun padded padded_ok => meets_pure ⟨⟨?_, finished_cache, ?_⟩,
    ordered.counters, ?_⟩
  · rw [padRows_ok padded_ok]
    exact finished_le
  · refine course_of_padRows ready.at_start arranged divided.at_start parcels ?_ assembles ?_ padded_ok
    · simp only [ne_eq, map_eq_nil_iff, range_eq_nil]
      omega
    intro filter filter_mem
    obtain ⟨component, component_mem, rfl⟩ := mem_map.mp filter_mem
    exact courses component component_mem
  · obtain ⟨rows_eq, total_le⟩ := counters_of_ordered ordered_ok
    refine ⟨rows_eq, total_le, ?_⟩
    rw [padRows_ok padded_ok]
    exact accounts

theorem meets_splitAfter (ready : Ready regime size deepest start) (parted : start.Parted) (filling : Filling start state.graph)
    (locals : state.graph.OnlyConditionsLocal) (conflict : state.graph.ConflictOrdered)
    (found : state.graph.conflict.isSome = true) (cache_sound : state.cache.Sound) :
    Meets regime.allowed (splitAfter nested state) (Completes options size deepest start) := by
  obtain ⟨⟨component, another⟩, conflict_eq⟩ := Option.isSome_iff_exists.mp found
  have conflict := conflict component another conflict_eq
  rw [splitAfter, conflict_eq]
  have nodes_pos := length_pos_iff.mpr ready.nonempty
  refine (regime.faultsIn (routine_resetBand _)).bind fun reset reset_ok => ?_
  obtain ⟨same, _, parts, _⟩ := filling.sameRows_resetBand ready.at_start reset_ok
  have reset_budget := ready.budget.of_sameRows same
  have room := reset_budget.room (nodes_ne_nil same.nodes ready.nonempty) nodes_pos
  refine (regime.faultsIn (routine_appendConstantRow room)).bind fun appended append_ok => ?_
  refine (regime.faultsIn (faultsIn_mapM fun node _ => ?_)).bind fun nodes each => ?_
  · exact faultsIn_ite_iff.mpr ⟨fun _ => routine_updateBandId node _ fun _ => by simp, fun _ => by simp⟩
  have cores : Forall₂ (fun before after : Node => after.core = before.core) appended.nodes nodes := by
    refine (mapM_ok.mp each).imp fun before after step => ?_
    split at step
    · exact core_of_updateBandId step
    · cases step
      rfl
  obtain ⟨order, parcels⟩ := ready.at_start.parcels_split same (parted.partitioned.of_parts parts) append_ok cores
  have components : SameComponents start.nodes nodes :=
    (parts.trans (sameParts_of_appendConstantRow append_ok)).components.trans
      (cores.imp fun _ _ => component_of_core_eq)
  have divided : Divided regime size deepest { appended.nextBand with nodes := nodes } (start.nodes.length - 1) := by
    have spare : start.nodes.length = start.nodes.length - 1 + 1 := by omega
    have budget := reset_budget.appendConstantRow spare append_ok
    have relabelled : { appended.nextBand with nodes := nodes }.SameRows appended.nextBand :=
      sameRows_of_core_eq (core_withNodes cores)
    refine ⟨order.at_start, ready.tabled.of_sameEdges order.edges, ready.suited.of_prolongs order.grows.nodes order.edges, ?_,
      parted.forward.of_components components order.edges, ?_⟩
    · intro edge edge_mem
      have edges_eq : appended.edges = state.graph.edges :=
        (congrArg (·.edges) (appendConstantRow_ok append_ok).1).trans (congrArg (·.edges) (resetBand_ok reset_ok).1)
      exact locals edge (edges_eq ▸ edge_mem)
    · have next_budget : appended.nextBand.Budget size deepest (start.nodes.length - 1) :=
        ⟨budget.max_rows, budget.total, budget.rank⟩
      exact next_budget.of_sameRows relabelled
  -- Both ends of the conflict are among the labelled nodes, one on either side of the split.
  obtain ⟨⟨a_after, a_after_mem, a_earlier⟩, b_after, b_after_mem, b_behind⟩ :=
    exists_sides filling.parts.components components conflict
  have length_eq : nodes.length = start.nodes.length := components.length_eq.symm
  have first_smaller := length_filter_lt b_after_mem (not_atMost_of_atLeast b_behind)
  have second_smaller := length_filter_lt a_after_mem (not_atLeast_of_atMost a_earlier)
  have entered_cache : ({ state with graph := { appended.nextBand with nodes := nodes } } : Construction).cache.Sound :=
    cache_sound
  refine (meets_constructPart contained divided ⟨a_after, a_after_mem, a_earlier⟩ (by dsimp only; omega)
    (assembles_refl _) (untouched_refl _ _) rfl entered_cache).bind fun first _ first_facts => ?_
  obtain ⟨first_le, first_cache, first_shared, first_restores, _, first_part, first_finished, first_course⟩ := first_facts
  have recounted := Assembles.withCounts first_restores.assembles appended.nextBand.counters.totalRows
    appended.nextBand.counters.band
  have untouched := first_restores.untouched (assembles_refl _) (fun _ => not_atMost_of_atLeast)
    (untouched_refl (.atLeast (component + 1)) _)
  refine (meets_constructPart contained divided ⟨b_after, b_after_mem, b_behind⟩ (by dsimp only; omega) recounted
    untouched first_shared.withCounts first_cache).bind fun second _ second_facts => ?_
  obtain ⟨second_le, second_cache, _, second_restores, _, second_part, second_finished, second_course⟩ := second_facts
  refine (regime.faultsIn (routine_padRows _)).bind fun padded padded_ok => meets_pure ⟨?_, second_cache, ?_⟩
  · rw [padRows_ok padded_ok]
    exact Nat.max_le.mpr ⟨second_le, first_le⟩
  · have forward : ∀ edge ∈ reset.edges, edge.isAnyValidity = true → ∀ a b, reset.nodes[edge.source]? = some a →
        reset.nodes[edge.target]? = some b → (if decide (component < a.component) = true then (1 : ℤ) else 0)
          ≤ if decide (component < b.component) = true then 1 else 0 := by
      intro edge edge_mem is_validity a b a_at b_at
      have component_le := (parted.forward.of_components parts.components parts.edges) edge edge_mem is_validity a b a_at b_at
      simp only [decide_eq_true_eq]
      split_ifs <;> omega
    refine course_of_padRows ready.at_start (.row same append_ok forward (sameRows_of_core_eq (core_withNodes cores)))
      divided.at_start parcels (cons_ne_nil _ _) (Assembles.withCounts second_restores.assembles _ _) ?_ padded_ok
    intro filter filter_mem
    simp only [mem_cons, not_mem_nil, or_false] at filter_mem
    rcases filter_mem with rfl | rfl
    · refine ⟨first_part, first_finished, first_course.of_unchanged ?_ (le_max_right _ _)⟩
      exact fun i in_part => second_restores.getElem?_eq recounted (fun _ => not_atLeast_of_atMost) in_part
    · exact ⟨second_part, second_finished, second_course.of_unchanged (fun _ _ => rfl) (le_max_left _ _)⟩

/-- A carrying row completes a graph, if an unschedulable one is tolerated. -/
theorem meets_carryDependences
    (measured : Measured regime size deepest state.graph) (outlet : ∀ cause, regime.allowed (.unschedulable cause))
    (cache_sound : state.cache.Sound) :
    Meets regime.allowed (carryDependences nested options state) (Completes options size deepest state.graph) := by
  have at_start := measured.ready.at_start
  have : Fault.Tolerates regime.allowed := .of_routine regime.routine
  have set_up := (routine_carryingProblem options at_start.well_formed cache_sound).mono regime.routine
  refine (faultsIn_carryingRow set_up (fun _ _ _ _ _ _ => outlet .cannotCarry) (fun _ _ _ _ _ _ => regime.routine)
    at_start.well_formed measured.parted.partitioned cache_sound).bind fun carrying carried => ?_
  obtain ⟨same, carrying_cache, forward⟩ := sound_of_carryingRow at_start.well_formed cache_sound carried
  have ordered := forward .validity (Or.inl rfl)
  obtain ⟨_, _, point, _, read, trivial_ok, _⟩ := carryingRow_ok carried
  have edges_eq := (redrawn_of_carryingRow carried).2
  have locals : carrying.graph.OnlyConditionsLocal := by
    rw [OnlyConditionsLocal, edges_eq]
    exact measured.ready.locals
  have carrying_measured := measured.of_core_eq same locals
  have carrying_start := carrying_measured.ready.at_start
  have searched_cache : ({ graph := carrying.graph, cache := carrying.cache } : Construction).cache.Sound := carrying_cache
  dsimp only
  cases is_trivial : carrying.isTrivial with
  | true =>
    rw [if_pos rfl]
    split
    case isTrue several =>
      suffices completes : Meets regime.allowed _ (Completes options size deepest carrying.graph) from
        completes.imp fun _ completed => completed.of_sameRows (sameRows_of_core_eq same)
      have forced : true = false → options.fuse ≠ .minimal → carrying.graph.Separated := fun unforced => Bool.noConfusion unforced
      exact (meets_separateComponents contained carrying_measured.ready carrying_measured.parted several forced
        searched_cache).imp fun _ facts => facts.1
    case isFalse =>
      refine ⟨faultsIn_throw_iff.mpr (outlet _), fun final impossible => ?_⟩
      exact (throw_ok.mp impossible).elim
  | false =>
    rw [if_neg Bool.false_ne_true]
    rw [is_trivial] at trivial_ok
    have length_eq := length_of_readRows read
    have rows_lt := carrying_measured.tight.rows_lt carrying_measured.ranked carrying_start.well_formed trivial_ok length_eq
    have room := carrying_measured.ready.budget.room_of_lt (rows_lt.trans_le carrying_measured.needed_le)
    refine (regime.faultsIn (routine_appendRow room length_eq)).bind fun appended append_ok => ?_
    have appended_stage : Stage carrying.graph.Links carrying.graph appended :=
      carrying_start.stage.appendRow append_ok ordered fun flagged => absurd flagged Bool.false_ne_true
    have appended_ranked := carrying_measured.ranked.appendCarried carrying_start.well_formed trivial_ok append_ok
    have appended_budget := carrying_measured.ready.budget.appendCarried carrying_measured.needed_le appended_ranked
      appended_stage.well_formed append_ok
    have appended_nonempty := nodes_ne_nil appended_stage.grows.nodes carrying_measured.ready.nonempty
    have appended_edges := edges_of_appendRow append_ok
    have rest : ∀ split : Graph, Stage carrying.graph.Links carrying.graph split →
        split.edges = appended.edges → split.Budget size deepest carrying.graph.nodes.length →
        (split = appended ∨ appended.splitFactor = .ok split) →
        Meets regime.allowed (continueBands nested { graph := split, cache := carrying.cache })
          (Completes options size deepest state.graph) := by
      intro split stage split_edges budget split_ok
      have split_locals : split.OnlyConditionsLocal := by
        rw [OnlyConditionsLocal, split_edges, appended_edges]
        exact locals
      have ready : Ready regime size deepest (⟨split, carrying.cache⟩ : Construction).graph.nextBand :=
        carrying_measured.ready.stage stage split_locals budget
      refine (meets_continueBands contained ready carrying_cache).imp fun final facts => ?_
      obtain ⟨rows_le, final_cache, narrowed, narrow_ok, grows, course⟩ := facts
      exact ⟨rows_le, final_cache, .carried at_start cache_sound carried append_ok split_ok narrow_ok grows course⟩
    split
    case isTrue =>
      have split_room := appended_budget.room appended_nonempty (Nat.succ_pos _)
      refine (regime.faultsIn (routine_splitFactor split_room)).bind fun split split_ok => ?_
      have stage : Stage carrying.graph.Links carrying.graph split :=
        carrying_start.stage_splitFactor append_ok ordered split_ok
      have split_edges : split.edges = appended.edges := by
        rcases splitFactor_spec appended_stage.grows.has_rows split_ok with rfl | ⟨_, _, _, _, _, _, edges_same, _⟩
        · rfl
        · exact edges_same
      exact rest split stage split_edges (appended_budget.splitFactor appended_stage.grows.has_rows split_ok) (Or.inr split_ok)
    case isFalse =>
      refine (faultsIn_pure _).bind fun split split_ok => ?_
      obtain rfl := pure_ok.mp split_ok
      refine rest appended appended_stage rfl ?_ (Or.inl rfl)
      exact ⟨appended_budget.max_rows, (Nat.le_succ _).trans appended_budget.total, appended_budget.rank⟩

theorem meets_resolveStuck (measured : Measured regime size deepest start)
    (fills : Fills options start .stuck filled) (locals : filled.graph.OnlyConditionsLocal)
    (conflict : filled.graph.ConflictOrdered) (cache_sound : filled.cache.Sound) :
    Meets regime.allowed (resolveStuck nested options filled) (Completes options size deepest start) := by
  have filling := fills.filling
  have continues : Meets regime.allowed (continueBands nested filled) (Completes options size deepest start) := by
    have ready := measured.ready.stage filling.stage locals (filling.budget measured.ready.budget measured.needed_le)
    refine (meets_continueBands contained ready cache_sound).imp fun final facts => ?_
    obtain ⟨rows_le, final_cache, narrowed, narrow_ok, grows, course⟩ := facts
    exact ⟨rows_le, final_cache, .band fills narrow_ok grows course⟩
  simp only [resolveStuck]
  split
  case isTrue => exact continues
  case isFalse =>
    split
    case isTrue found =>
      exact meets_splitAfter contained measured.ready measured.parted filling locals conflict found cache_sound
    case isFalse =>
      split
      case isTrue => exact continues
      case isFalse not_filled =>
        have is_empty : filled.graph.counters.totalRows = filled.graph.counters.bandStart := by simpa using not_filled
        have same := filling.sameRows_of_empty measured.ready.at_start is_empty
        have carried := meets_carryDependences contained (measured.of_empty filling locals same)
          (regime.stuck measured.ready.suited fills) cache_sound
        exact carried.imp fun _ completed => completed.of_sameRows same

/-- The rows of a graph that is taken as connected are completed. -/
theorem meets_constructConnected (ready : Ready regime size deepest state.graph) (cache_sound : state.cache.Sound) :
    Meets regime.allowed (constructConnected nested options state) (Completes options size deepest state.graph) := by
  refine (regime.faultsIn (routine_updateRowsNeeded _)).bind fun graph needed_ok => ?_
  obtain ⟨measured, updated⟩ := measured_of_updateRowsNeeded ready needed_ok
  have detected : state.graph.detectStrong.SameRows state.graph := sameRows_assign
  suffices completes : Meets regime.allowed _ (Completes options size deepest graph) from
    completes.imp fun _ completed => (completed.of_sameRows updated).of_sameRows detected
  have entered_cache : ({ state with graph := graph } : Construction).cache.Sound := cache_sound
  split
  case isTrue carries =>
    obtain ⟨edge, edge_mem, is_validity⟩ := any_eq_true.mp ((Bool.and_eq_true _ _).mp carries).2
    obtain ⟨a, b, a_at, b_at⟩ := measured.ready.at_start.well_formed.exists_ends edge_mem
    have outlet := regime.carried (measured.ready.suited edge edge_mem a b a_at b_at) is_validity
    exact meets_carryDependences contained measured outlet entered_cache
  case isFalse =>
    have cleared := nothing_local_clearLocal measured.ready.locals
    have cleared_measured := measured.clearLocal
    have at_start := cleared_measured.ready.at_start
    suffices completes : Meets regime.allowed _ (Completes options size deepest graph.clearLocal) from
      completes.imp fun _ completed => completed.of_sameRows (sameRows_of_core_eq (core_clearLocal graph))
    refine (meets_fillBand_of_measured graph.clearLocal.bandSteps cleared_measured cache_sound).bind fun result fill_ok ended => ?_
    obtain ⟨bandEnd, filled⟩ := result
    have fills : Fills options graph.clearLocal bandEnd filled :=
      ⟨at_start, cleared_measured.parted.partitioned, cleared_measured.ranked, cleared, state.cache, _, cache_sound, fill_ok⟩
    cases bandEnd with
    | complete => exact meets_sortStatements cleared_measured fills
    | stuck =>
      obtain ⟨use, last, runs, ends⟩ := ended
      have begins := at_start.filling cleared_measured.parted.partitioned cleared_measured.ranked
      obtain ⟨filling, last_sound⟩ := filling_of_runs runs at_start cleared_measured.ranked begins cache_sound
      have last_locals := keeps_of_runs OnlyConditionsLocal onlyConditionsLocal_of_noted
        (onlyConditionsLocal_of_checkConditional ·) runs cleared_measured.ready.locals
      cases ends with
      | stuck searched none_found insists =>
        have fresh : Filling graph.clearLocal { last.graph with conflict := none } := filling.of_core_eq rfl
        have fresh_locals : { last.graph with conflict := none }.OnlyConditionsLocal := last_locals
        obtain ⟨_, search_sound, _⟩ := searched.sound filling last_sound
        exact meets_resolveStuck contained cleared_measured fills
          (onlyConditionsLocal_of_noted fresh_locals (redrawn_of_nextRow searched.done).edges)
          (conflict_of_nextRow fresh.partitioned rfl searched.done) search_sound

theorem constructStep_contained :
    NestedStep.Contained (constructStep nested options) regime size deepest := by
  intro scope state ready cache_sound
  cases scope with
  | connected => exact meets_constructConnected contained ready cache_sound
  | whole =>
    have detect : ∀ separated : Graph, separated.SameRows state.graph → separated.OnlyConditionsLocal →
        separated.Parted → (options.fuse ≠ .minimal → separated.Separated) →
        Meets regime.allowed (if 1 < separated.componentCount then
          separateComponents nested options false { state with graph := separated }
        else constructConnected nested options { state with graph := separated })
          (Completes options size deepest state.graph) := by
      intro separated same locals parted apart
      have separated_ready := ready.of_sameRows same locals
      have entered_cache : ({ state with graph := separated } : Construction).cache.Sound := cache_sound
      suffices completes : Meets regime.allowed _ (Completes options size deepest separated) from
        completes.imp fun _ completed => completed.of_sameRows same
      split
      case isTrue several =>
        exact (meets_separateComponents contained separated_ready parted several (fun _ => apart) entered_cache).imp
          fun _ facts => facts.1
      case isFalse => exact meets_constructConnected contained separated_ready entered_cache
    rw [constructStep]
    cases fuse : options.fuse with
    | minimal =>
      exact detect _ sameRows_assign ready.locals (parted_detectStrong ready.tabled) (fun unlike => absurd fuse unlike)
    | maximal => exact detect _ sameRows_assign ready.locals (parted_detectWeak ready.tabled) (fun _ => separated_detectWeak ready.tabled)

end Steps

/-- The construction is contained at every depth. -/
theorem construct_contained {options : Options} (regime : Regime options) (size deepest depth : ℕ) :
    NestedStep.Contained (construct options depth) regime size deepest := by
  induction depth with
  | zero =>
    intro scope state _ _
    refine ⟨faultsIn_error_iff.mpr (regime.unfinished .bands), fun final impossible => ?_⟩
    cases impossible
  | succ depth ih => exact constructStep_contained ih

/-- The schedule of a ready graph is completed, or stops with a tolerated fault. -/
theorem Graph.contained_of_schedule {options : Options} {regime : Regime options} {size deepest : ℕ}
    (ready : Ready regime size deepest graph) :
    Meets regime.allowed (graph.schedule options) (Completes options size deepest graph) :=
  construct_contained regime size deepest graph.nesting .whole _ ready ConeCache.sound_empty

end AffineSchedule
