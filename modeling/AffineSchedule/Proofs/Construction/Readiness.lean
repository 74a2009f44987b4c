import AffineSchedule.Proofs.Construction.Budget
import AffineSchedule.Proofs.Construction.Course
import AffineSchedule.Proofs.Construction.RowFaults

namespace AffineSchedule

open Checked Edge List

variable {graph next : Graph} {filter : ComponentFilter} {nodes : List Node}
  {after before : Bool × Construction}

/-- The edge without its ends and the bookkeeping of the search for rows. -/
def Edge.unplaced (edge : Edge) : Edge := { edge.core with source := 0, target := 0 }

namespace Graph

/-! ### Components -/

/-- The components are numbered without gaps, and no dependence leads from a later to an earlier one. -/
structure Parted (graph : Graph) : Prop where
  partitioned : graph.Partitioned
  forward : graph.Forward
  populated : ∀ component < graph.componentCount, ∃ node ∈ graph.nodes, node.component = component

theorem populated_assign {follows : ℕ → ℕ → Bool} :
    ∀ component < (graph.assign (Components.compute graph.nodes.length follows)).componentCount,
      ∃ node ∈ (graph.assign (Components.compute graph.nodes.length follows)).nodes, node.component = component := by
  intro component below
  obtain ⟨index, inside, label_eq⟩ := Components.exists_label below
  have length_eq : (Components.compute graph.nodes.length follows).labels.length = graph.nodes.length :=
    length_labels_compute graph.nodes.length
  have node_at := getElem?_assign length_eq index
  rw [getElem?_eq_getElem inside, Option.map_some] at node_at
  exact ⟨_, mem_of_getElem? node_at, label_eq⟩

theorem parted_detectStrong (tabled : graph.Tabled) : graph.detectStrong.Parted :=
  ⟨partitioned_detectStrong tabled, forward_detectStrong tabled, populated_assign⟩

theorem parted_detectWeak (tabled : graph.Tabled) : graph.detectWeak.Parted :=
  ⟨partitioned_detectWeak tabled, forward_detectWeak tabled, populated_assign⟩

theorem Parted.of_parts (parted : graph.Parted) (same : graph.SameParts next) : next.Parted := by
  refine ⟨parted.partitioned.of_parts same, parted.forward.of_components same.components same.edges, ?_⟩
  intro component below
  obtain ⟨node, node_mem, component_eq⟩ := parted.populated component (same.count ▸ below)
  obtain ⟨after, after_mem, after_component⟩ := same.components.exists_right node_mem
  exact ⟨after, after_mem, after_component.trans component_eq⟩

/-- A part that lacks a node has fewer nodes. -/
theorem length_filter_lt {node : Node} (node_mem : node ∈ nodes) (drops : filter.keepsNode node.component = false) :
    (nodes.filter fun node => filter.keepsNode node.component).length < nodes.length :=
  length_filter_lt_length_iff_exists.mpr ⟨node, node_mem, by simp [drops]⟩

/-- A component has fewer nodes than a graph with several of them. -/
theorem Parted.length_component_lt (parted : graph.Parted) (several : 1 < graph.componentCount) (component : ℕ) :
    (graph.nodes.filter fun node => (ComponentFilter.exactly component).keepsNode node.component).length
      < graph.nodes.length := by
  obtain ⟨other, other_lt, different⟩ : ∃ other < graph.componentCount, other ≠ component := by
    rcases Nat.eq_zero_or_pos component with rfl | positive
    · exact ⟨1, several, Nat.one_ne_zero⟩
    · exact ⟨0, Nat.zero_lt_of_lt several, positive.ne⟩
  obtain ⟨node, node_mem, component_eq⟩ := parted.populated other other_lt
  exact length_filter_lt node_mem (decide_eq_false (component_eq ▸ different))

/-- Nodes of two components are on either side of a split behind the earlier one. -/
theorem exists_sides {first labelled : List Node} {component : ℕ} (before : SameComponents first nodes)
    (after : SameComponents first labelled)
    (conflict : ∃ a ∈ nodes, ∃ b ∈ nodes, a.component = component ∧ component < b.component) :
    (∃ a ∈ labelled, (ComponentFilter.atMost component).keepsNode a.component = true)
      ∧ ∃ b ∈ labelled, (ComponentFilter.atLeast (component + 1)).keepsNode b.component = true := by
  have onward : ∀ node ∈ nodes, ∃ after ∈ labelled, after.component = node.component := by
    intro node node_mem
    obtain ⟨origin, origin_mem, origin_eq⟩ := before.exists_left node_mem
    obtain ⟨twin, twin_mem, twin_eq⟩ := after.exists_right origin_mem
    exact ⟨twin, twin_mem, twin_eq.trans origin_eq.symm⟩
  obtain ⟨a, a_mem, b, b_mem, a_component, b_later⟩ := conflict
  obtain ⟨a_after, a_after_mem, a_eq⟩ := onward a a_mem
  obtain ⟨b_after, b_after_mem, b_eq⟩ := onward b b_mem
  exact ⟨⟨a_after, a_after_mem, decide_eq_true (a_eq.trans a_component).le⟩, b_after, b_after_mem,
    decide_eq_true (b_eq ▸ b_later)⟩

/-! ### Edges -/

/-- Only conditions have their distance forced to zero. -/
def OnlyConditionsLocal (graph : Graph) : Prop :=
  ∀ edge ∈ graph.edges, edge.isLocal = true → edge.has .condition = true

/-- All dependences suit the spaces of the statements they join. -/
def Suited (suits : Space → Space → Edge → Prop) (graph : Graph) : Prop :=
  ∀ edge ∈ graph.edges, ∀ a b, graph.nodes[edge.source]? = some a → graph.nodes[edge.target]? = some b →
    suits a.space b.space edge.unplaced

theorem Suited.of_prolongs {suits : Space → Space → Edge → Prop} (suited : graph.Suited suits)
    (nodes : Forall₂ (fun before after : Node => after.Prolongs before) graph.nodes next.nodes)
    (edges_eq : graph.SameEdges next) : next.Suited suits := by
  refine edges_eq.forall_ends nodes ?_ suited
  intro twin edge a_before a b_before b core_eq a_prolongs b_prolongs suits
  rw [a_prolongs.space, b_prolongs.space, unplaced, ← core_eq]
  exact suits

section

variable (locals : graph.OnlyConditionsLocal)
include locals

theorem onlyConditionsLocal_of_noted (noted : Forall₂ Noted graph.edges next.edges) : next.OnlyConditionsLocal := by
  refine noted.forall_mem (fun before after _ note kept is_local => ?_) locals
  have has_eq : after.has .condition = before.has .condition := congrArg (·.has .condition) note
  have local_eq : after.isLocal = before.isLocal := congrArg (·.isLocal) note
  exact has_eq.trans (kept (local_eq ▸ is_local))

theorem nothing_local_clearLocal :
    ∀ edge ∈ graph.clearLocal.edges, edge.isLocal = false := by
  intro edge edge_mem
  obtain ⟨before, before_mem, rfl⟩ := mem_map.mp edge_mem
  split
  case isTrue => rfl
  case isFalse no_condition =>
    cases is_local : before.isLocal with
    | false => rfl
    | true => exact absurd (locals before before_mem is_local) no_condition

theorem onlyConditionsLocal_of_checkConditional {checked : Graph} {violated : Bool} (done : graph.checkConditional = .ok (violated, checked)) :
    checked.OnlyConditionsLocal := by
  obtain ⟨_, _, _, _, localizes⟩ := localizes_of_checkConditional done
  refine localizes.forall_mem (fun before after _ localizes kept => ?_) locals
  cases localizes with
  | kept => exact kept
  | localized is_condition => exact fun _ => is_condition

end

end Graph

open AffineSchedule.Graph

section Runs

variable {options : Options} {start : Graph} {checks : Bool} (kept : Graph → Prop)
  (noting : ∀ {graph noted : Graph}, kept graph → Forall₂ Noted graph.edges noted.edges → kept noted)
  (checking : ∀ {graph checked : Graph} {violated : Bool}, kept graph → graph.checkConditional = .ok (violated, checked) →
    kept checked)
include noting checking

/-- What notes on the edges and the check of the conditions keep, a step keeps. -/
theorem BandStep.keeps (step : BandStep options start.hasCoincidence checks before after) (holds : kept before.2.graph) :
    kept after.2.graph := by
  have extending : ∀ {use : Bool} {search : RowSearch} {rows : List (List ℤ)} {appended : Graph},
      Extends options start.hasCoincidence use before.2 search rows appended → kept appended := by
    intro use search rows appended extends_band
    refine noting holds ?_
    rw [edges_of_appendRow extends_band.done]
    exact (redrawn_of_nextRow extends_band.searched.done).edges
  cases step with
  | relaxed searched => exact noting holds (redrawn_of_nextRow searched.done).edges
  | extended extends_band => exact extending extends_band
  | checked extends_band check_ok => exact checking (extending extends_band) check_ok
  | restarted extends_band check_ok reset_ok =>
    refine noting (checking (extending extends_band) check_ok) ?_
    rw [(resetBand_ok reset_ok).1]
    exact forall₂_same.mpr fun _ _ => rfl

theorem keeps_of_runs (runs : BandRuns options start.hasCoincidence checks before after) (holds : kept before.2.graph) :
    kept after.2.graph := by
  induction runs with
  | refl => exact holds
  | tail _ step ih => exact step.keeps kept noting checking ih

end Runs

/-! ### Regimes -/

/-- Which faults are tolerated, and which dependences a graph may have: those for which an unschedulable problem is
    tolerated, or does not come about. -/
structure Regime (options : Options) where
  allowed : Fault → Prop
  suits : Space → Space → Edge → Prop
  routine : ∀ fault, Fault.Routine fault → allowed fault
  unfinished : ∀ loop, allowed (.unfinished loop)
  narrows : ∀ {source target : Space} {graph : Graph} {edge narrowed : Edge},
    suits source target edge.unplaced → graph.narrowEdge edge = .ok narrowed → narrowed.relation.disjuncts ≠ [] →
    suits source target narrowed.unplaced
  carried : ∀ {source target : Space} {edge : Edge}, suits source target edge → edge.isAnyValidity = true →
    ∀ cause, allowed (.unschedulable cause)
  stuck : ∀ {start : Graph} {filled : Construction}, start.Suited suits → Fills options start .stuck filled →
    ∀ cause, allowed (.unschedulable cause)

/-- A graph whose rows can be constructed: its rows so far are paid for, with a row to spare for every node. -/
structure Ready {options : Options} (regime : Regime options) (size deepest : ℕ) (graph : Graph) : Prop where
  at_start : graph.AtBandStart
  nonempty : graph.nodes ≠ []
  tabled : graph.Tabled
  suited : graph.Suited regime.suits
  locals : graph.OnlyConditionsLocal
  budget : graph.Budget size deepest graph.nodes.length

theorem nodes_ne_nil {related : Node → Node → Prop} {others : List Node}
    (each : Forall₂ related nodes others) (nonempty : nodes ≠ []) : others ≠ [] := by
  rwa [← length_pos_iff, ← each.length_eq, length_pos_iff]

section Ready

variable {options : Options} {regime : Regime options} {size deepest : ℕ} {start : Graph}
  (ready : Ready regime size deepest start)
include ready

theorem Ready.of_sameRows (same : graph.SameRows start) (locals : graph.OnlyConditionsLocal) :
    Ready regime size deepest graph := by
  refine ⟨same.atBandStart ready.at_start, nodes_ne_nil same.nodes ready.nonempty, ready.tabled.of_sameEdges same.edges,
    ready.suited.of_prolongs (same.nodes.imp fun _ _ node_same => node_same.prolongs) same.edges, locals, ?_⟩
  rw [← same.nodes.length_eq]
  exact ready.budget.of_sameRows same

/-- Rows that are paid for lead to the start of the next band. -/
theorem Ready.stage (stage : Stage start.Links start graph) (locals : graph.OnlyConditionsLocal)
    (budget : graph.Budget size deepest start.nodes.length) : Ready regime size deepest graph.nextBand := by
  refine ⟨stage.atBandStart_nextBand, nodes_ne_nil stage.grows.nodes ready.nonempty, ready.tabled.of_sameEdges stage.edges,
    ready.suited.of_prolongs stage.grows.nodes stage.edges, locals, ?_⟩
  have length_eq : graph.nextBand.nodes.length = start.nodes.length := stage.grows.nodes.length_eq.symm
  rw [length_eq]
  exact ⟨budget.max_rows, budget.total, budget.rank⟩

/-- Narrower dependences leave a graph ready. -/
theorem Ready.narrow (done : start.narrowEdges = .ok graph) : Ready regime size deepest graph := by
  obtain ⟨at_start, _⟩ := ready.at_start.narrow done
  have tabled := tabled_of_narrowEdges done
  obtain ⟨graph_eq, origin, _⟩ := narrowEdges_ok done
  rw [graph_eq] at at_start tabled ⊢
  refine ⟨at_start, ready.nonempty, tabled, ?_, ?_, ready.budget.max_rows, ready.budget.total, ready.budget.rank⟩
  · intro edge edge_mem a b a_at b_at
    obtain ⟨nonempty, before, before_mem, step⟩ := origin edge edge_mem
    obtain ⟨_, _, _, _, edge_eq, _⟩ := narrowEdge_parts step
    refine regime.narrows (ready.suited before before_mem a b ?_ ?_) step nonempty
    · rwa [edge_eq] at a_at
    · rwa [edge_eq] at b_at
  · intro edge edge_mem
    obtain ⟨_, before, before_mem, step⟩ := origin edge edge_mem
    obtain ⟨_, _, _, _, edge_eq, _⟩ := narrowEdge_parts step
    rw [edge_eq]
    exact ready.locals before before_mem

end Ready

/-- A graph that is ready to be constructed part by part, with some rows to spare. -/
structure Divided {options : Options} (regime : Regime options) (size deepest : ℕ) (ordered : Graph)
    (count : ℕ) : Prop where
  at_start : ordered.AtBandStart
  tabled : ordered.Tabled
  suited : ordered.Suited regime.suits
  locals : ordered.OnlyConditionsLocal
  forward : ordered.Forward
  budget : ordered.Budget size deepest count

/-- An untouched part of a divided graph is ready. -/
theorem Divided.ready_of_extract {options : Options} {regime : Regime options} {size deepest count : ℕ}
    {ordered part : Graph} (divided : Divided regime size deepest ordered count)
    (inhabited : ∃ node ∈ ordered.nodes, filter.keepsNode node.component = true)
    (smaller : (ordered.nodes.filter fun node => filter.keepsNode node.component).length ≤ count)
    (assembles : Assembles ordered graph) (untouched : Untouched filter ordered graph)
    (counters_eq : graph.counters = ordered.counters) (extracted : graph.extract filter = .ok part) :
    Ready regime size deepest part := by
  obtain ⟨_, part_counters, nodes_eq, _⟩ := extract_ok extracted
  refine ⟨?_, ?_, tabled_of_extract extracted, ?_, ?_, ?_⟩
  · exact assembles.atBandStart_extract divided.at_start untouched
      ⟨congrArg (·.totalRows) counters_eq, congrArg (·.band) counters_eq, congrArg (·.bandStart) counters_eq⟩ extracted
  · obtain ⟨before, before_mem, keeps⟩ := inhabited
    obtain ⟨node, node_mem, _, component_eq⟩ := assembles.nodes.exists_right before_mem
    rw [nodes_eq]
    exact ne_nil_of_mem (mem_filter.mpr ⟨node_mem, component_eq.symm ▸ keeps⟩)
  · intro edge edge_mem a b a_at b_at
    obtain ⟨original, original_mem, ⟨p, p_at, p_keeps⟩, ⟨q, q_at, q_keeps⟩, rfl⟩ := exists_edge_of_extract extracted edge_mem
    rw [nodes_eq, getElem?_selectedBefore p_at p_keeps, Option.some.injEq] at a_at
    rw [nodes_eq, getElem?_selectedBefore q_at q_keeps, Option.some.injEq] at b_at
    subst a_at b_at
    obtain ⟨p_before, p_before_at, p_prolongs, _⟩ := assembles.nodes.getElem?_left p_at
    obtain ⟨q_before, q_before_at, q_prolongs, _⟩ := assembles.nodes.getElem?_left q_at
    rw [p_prolongs.space, q_prolongs.space]
    exact divided.suited original (assembles.edges ▸ original_mem) p_before q_before p_before_at q_before_at
  · intro edge edge_mem
    obtain ⟨original, original_mem, _, _, rfl⟩ := exists_edge_of_extract extracted edge_mem
    exact divided.locals original (assembles.edges ▸ original_mem)
  · have length_eq : part.nodes.length = (ordered.nodes.filter fun node => filter.keepsNode node.component).length := by
      have counted : selectedBefore filter graph.nodes graph.nodes.length = selectedBefore filter ordered.nodes graph.nodes.length :=
        selectedBefore_congr (assembles.nodes.imp fun _ _ related => related.2) _
      rw [selectedBefore, selectedBefore, take_length, ← assembles.nodes.length_eq, take_length] at counted
      rw [nodes_eq, counted]
    refine ⟨?_, ?_, fun node node_mem => ?_⟩
    · rw [part_counters, counters_eq]
      exact divided.budget.max_rows
    · rw [part_counters, counters_eq, length_eq]
      exact (Nat.add_le_add_left smaller _).trans divided.budget.total
    · obtain ⟨before, before_mem, same⟩ := assembles.exists_origin untouched extracted node_mem
      rw [part_counters, counters_eq, same.rowRank_eq, same.space]
      exact divided.budget.rank before before_mem

end AffineSchedule
