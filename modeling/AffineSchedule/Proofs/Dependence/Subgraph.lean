import AffineSchedule.Dependence.Subgraph
import AffineSchedule.Proofs.Dependence.Growth

namespace AffineSchedule

open Checked List

variable {filter : ComponentFilter} {graph : Graph} {node : Node} {i index : ℕ} {edge : Edge}
  {finished : Graph}

theorem ComponentFilter.keepsEdge_of_keepsNode {source target : ℕ} (keeps_source : filter.keepsNode source = true)
    (keeps_target : filter.keepsNode target = true) : filter.keepsEdge source target = true := by
  cases filter with
  | exactly limit => simpa [keepsEdge, keepsNode] using And.intro keeps_source keeps_target
  | atMost limit => exact keeps_target
  | atLeast limit => exact keeps_source

namespace Graph

/-- The number of selected nodes before a position. -/
def selectedBefore (filter : ComponentFilter) (nodes : List Node) (index : ℕ) : ℕ :=
  ((nodes.take index).filter fun node => filter.keepsNode node.component).length

/-- The node at a position is selected. -/
def InPart (graph : Graph) (filter : ComponentFilter) (index : ℕ) : Prop :=
  ∃ node, graph.nodes[index]? = some node ∧ filter.keepsNode node.component = true

theorem newPosition_of_inPart (in_part : graph.InPart filter index) :
    graph.newPosition filter index = some (selectedBefore filter graph.nodes index) := by
  obtain ⟨node, node_at, keeps⟩ := in_part
  simp [newPosition, node_at, keeps, selectedBefore]

theorem newPosition_eq_some {place : ℕ} (found : graph.newPosition filter index = some place) :
    graph.InPart filter index ∧ place = selectedBefore filter graph.nodes index := by
  have in_part : graph.InPart filter index := by
    unfold newPosition at found
    split at found
    · cases found
    next node node_at =>
      split_ifs at found with keeps
      exact ⟨node, node_at, keeps⟩
  rw [newPosition_of_inPart in_part] at found
  exact ⟨in_part, (Option.some.inj found).symm⟩

/-- A selected node stands behind the selected nodes before it. -/
theorem getElem?_selectedBefore {nodes : List Node} (node_at : nodes[index]? = some node)
    (keeps : filter.keepsNode node.component = true) :
    (nodes.filter fun node => filter.keepsNode node.component)[selectedBefore filter nodes index]? = some node := by
  obtain ⟨inside, node_eq⟩ := List.getElem?_eq_some_iff.mp node_at
  have split : nodes = nodes.take index ++ node :: nodes.drop (index + 1) := by
    rw [← node_eq, getElem_cons_drop, take_append_drop]
  have filtered := congrArg (List.filter fun node => filter.keepsNode node.component) split
  simp only [filter_append, filter_cons, keeps, if_true] at filtered
  rw [filtered, selectedBefore, getElem?_append_right le_rfl, Nat.sub_self]
  rfl

/-! ### Extraction -/

/-- An extracted edge is an edge between two selected nodes, at their new positions. -/
theorem extractEdge_eq_some {moved : Edge} (done : graph.extractEdge filter edge = .ok (some moved)) :
    graph.InPart filter edge.source ∧ graph.InPart filter edge.target ∧ moved = { edge with
          source := selectedBefore filter graph.nodes edge.source
          target := selectedBefore filter graph.nodes edge.target } := by
  simp only [extractEdge, bind_ok] at done
  obtain ⟨_, _, _, _, done⟩ := done
  split at done
  · cases pure_ok.mp done
  · split at done
    next newSource newTarget source_at target_at =>
      obtain ⟨source_in, rfl⟩ := newPosition_eq_some source_at
      obtain ⟨target_in, rfl⟩ := newPosition_eq_some target_at
      exact ⟨source_in, target_in, (Option.some.inj (pure_ok.mp done)).symm⟩
    next =>
      split at done
      · exact (throw_ok.mp done).elim
      · cases pure_ok.mp done

theorem extractEdge_of_inPart (source_in : graph.InPart filter edge.source)
    (target_in : graph.InPart filter edge.target) : graph.extractEdge filter edge = .ok (some { edge with
      source := selectedBefore filter graph.nodes edge.source
      target := selectedBefore filter graph.nodes edge.target }) := by
  have source_place := newPosition_of_inPart source_in
  have target_place := newPosition_of_inPart target_in
  obtain ⟨source, source_at, keeps_source⟩ := source_in
  obtain ⟨target, target_at, keeps_target⟩ := target_in
  have keeps_edge := ComponentFilter.keepsEdge_of_keepsNode keeps_source keeps_target
  simp [extractEdge, node, source_at, target_at, Checked.ofOption, keeps_edge, source_place, target_place,
    bind, Except.bind, pure, Except.pure]

/-- The nodes and edges of a part. -/
theorem extract_ok {part : Graph} (done : graph.extract filter = .ok part) :
    part.params = graph.params ∧ part.counters = graph.counters
      ∧ part.nodes = graph.nodes.filter (fun node => filter.keepsNode node.component)
      ∧ ∃ moved : List (Option Edge), part.edges = moved.filterMap id
          ∧ Forall₂ (fun edge result => graph.extractEdge filter edge = .ok result) graph.edges moved := by
  simp only [extract, bind_ok, mapM_ok] at done
  obtain ⟨moved, each, checked⟩ := done
  obtain ⟨⟨_, rfl⟩, _⟩ := withEdges_ok checked
  exact ⟨rfl, rfl, rfl, moved, rfl, each⟩

section Extract

variable {part : Graph} (extracted : graph.extract filter = .ok part)
include extracted

/-- The edges of a part are those between selected nodes, at their new positions. -/
theorem exists_edge_of_extract (edge_mem : edge ∈ part.edges) : ∃ original ∈ graph.edges,
      graph.InPart filter original.source ∧ graph.InPart filter original.target ∧ edge = { original with
            source := selectedBefore filter graph.nodes original.source
            target := selectedBefore filter graph.nodes original.target } := by
  obtain ⟨_, _, _, moved, edges_eq, each⟩ := extract_ok extracted
  rw [edges_eq, mem_filterMap] at edge_mem
  obtain ⟨result, result_mem, rfl⟩ := edge_mem
  obtain ⟨original, original_mem, done⟩ := each.exists_left result_mem
  exact ⟨original, original_mem, extractEdge_eq_some done⟩

theorem wellFormed_of_extract (well_formed : graph.WellFormed) : part.WellFormed := by
  obtain ⟨params_eq, _, nodes_eq, _⟩ := extract_ok extracted
  refine ⟨?_, ?_, ?_⟩
  · rw [nodes_eq]
    exact (length_filter_le _ _).trans_lt well_formed.size
  · rw [nodes_eq, params_eq]
    exact fun node node_mem => well_formed.nodes node (mem_of_mem_filter node_mem)
  · intro edge edge_mem
    obtain ⟨original, original_mem, ⟨source, source_at, keeps_source⟩, ⟨target, target_at, keeps_target⟩, rfl⟩ :=
      exists_edge_of_extract extracted edge_mem
    have laid_out := well_formed.edges original original_mem
    have source_dim := laid_out.source
    have target_dim := laid_out.target
    simp only [dims, getElem?_map, source_at, target_at] at source_dim target_dim
    refine ⟨laid_out.relation, params_eq ▸ laid_out.params, laid_out.source_tag, laid_out.target_tag, ?_, ?_⟩
    · rw [dims, nodes_eq, getElem?_map, getElem?_selectedBefore source_at keeps_source]
      exact source_dim
    · rw [dims, nodes_eq, getElem?_map, getElem?_selectedBefore target_at keeps_target]
      exact target_dim

end Extract

end Graph

/-! ### Restoring -/

/-- The node with the rows found for it in a part. -/
def Node.withRowsOf (node found : Node) : Node :=
  { node with
    schedule := found.schedule
    rank := found.rank
    basis := found.basis
    coordinates := found.coordinates
    bands := found.bands
    bandIds := found.bandIds
    coincident := found.coincident }

namespace Graph

section

variable (filter : ComponentFilter) (nodes found : List Node)

/-- A selected node gets the rows of the node at its new position, and the others are left alone. -/
theorem getElem?_restoreNodes (index : ℕ) :
    (restoreNodes filter nodes found)[index]? = nodes[index]?.map fun node =>
      if filter.keepsNode node.component then
        (found[selectedBefore filter nodes index]?).elim node node.withRowsOf
      else node := by
  induction nodes generalizing found index with
  | nil => simp [restoreNodes]
  | cons node later ih =>
    cases found with
    | nil =>
      cases index with
      | zero => simp [restoreNodes]
      | succ index => simpa [restoreNodes] using ih [] index
    | cons first rest =>
      by_cases keeps : filter.keepsNode node.component = true
      · cases index with
        | zero => simp [restoreNodes, keeps, selectedBefore, Node.withRowsOf]
        | succ index => simpa [restoreNodes, keeps, selectedBefore] using ih rest index
      · cases index with
        | zero => simp [restoreNodes, keeps]
        | succ index => simpa [restoreNodes, keeps, selectedBefore] using ih (first :: rest) index

theorem length_restoreNodes :
    (restoreNodes filter nodes found).length = nodes.length := by
  fun_induction restoreNodes filter nodes found with
  | case1 => rfl
  | case2 node later ih => rw [length_cons, length_cons, ih]
  | case3 node later first rest keeps ih => rw [length_cons, length_cons, ih]
  | case4 node later first rest keeps ih => rw [length_cons, length_cons, ih]

end

end Graph

theorem Node.Prolongs.sameRows_withRowsOf {found : Node} (prolonged : found.Prolongs node) :
    (node.withRowsOf found).SameRows found := ⟨prolonged.space.symm, rfl, rfl, rfl⟩

namespace Graph

/-- A selected node gets the rows that the part has grown for it. -/
theorem getElem?_restoreNodes_of_keeps {part : Graph} (extracted : graph.extract filter = .ok part)
    (grown : Forall₂ (fun before after : Node => after.Prolongs before) part.nodes finished.nodes)
    (node_at : graph.nodes[i]? = some node) (keeps : filter.keepsNode node.component = true) :
    ∃ found, finished.nodes[selectedBefore filter graph.nodes i]? = some found ∧ found.Prolongs node
      ∧ (restoreNodes filter graph.nodes finished.nodes)[i]? = some (node.withRowsOf found) := by
  obtain ⟨_, _, part_nodes, _⟩ := extract_ok extracted
  have part_at := getElem?_selectedBefore node_at keeps
  rw [← part_nodes] at part_at
  obtain ⟨found, found_at, prolonged⟩ := grown.getElem?_right part_at
  refine ⟨found, found_at, prolonged, ?_⟩
  rw [getElem?_restoreNodes, node_at]
  simp [keeps, found_at]

/-- The graph has the nodes and edges of the start, some of the nodes with further rows. -/
structure Assembles (start graph : Graph) : Prop where
  params : graph.params = start.params
  edges : graph.edges = start.edges
  table : graph.edgeTable = start.edgeTable
  nodes : Forall₂ (fun before node : Node => node.Prolongs before ∧ node.component = before.component)
    start.nodes graph.nodes

/-- The selected nodes have no rows but those of the start. -/
def Untouched (filter : ComponentFilter) (start graph : Graph) : Prop :=
  ∀ (i : ℕ) (before node : Node), start.nodes[i]? = some before → graph.nodes[i]? = some node →
    filter.keepsNode before.component = true → node.SameRows before

section Assemble

variable {start part : Graph}

section

variable (assembles : Assembles start graph)
include assembles

/-- A node of a graph under assembly is selected if it was selected at the start. -/
theorem Assembles.inPart_iff (index : ℕ) :
    graph.InPart filter index ↔ start.InPart filter index := by
  constructor
  · rintro ⟨node, node_at, keeps⟩
    obtain ⟨before, before_at, _, component_eq⟩ := assembles.nodes.getElem?_left node_at
    exact ⟨before, before_at, component_eq ▸ keeps⟩
  · rintro ⟨before, before_at, keeps⟩
    obtain ⟨node, node_at, _, component_eq⟩ := assembles.nodes.getElem?_right before_at
    exact ⟨node, node_at, component_eq.symm ▸ keeps⟩

/-- The nodes of an untouched part have the rows that they had at the start. -/
theorem Assembles.exists_origin (untouched : Untouched filter start graph)
    (extracted : graph.extract filter = .ok part) {node : Node} (node_mem : node ∈ part.nodes) :
    ∃ before ∈ start.nodes, node.SameRows before := by
  rw [(extract_ok extracted).2.2.1, mem_filter] at node_mem
  obtain ⟨index, node_at⟩ := getElem?_of_mem node_mem.1
  obtain ⟨before, before_at, _, component_eq⟩ := assembles.nodes.getElem?_left node_at
  have keeps : filter.keepsNode before.component = true := component_eq ▸ node_mem.2
  exact ⟨before, mem_of_getElem? before_at, untouched index before node before_at node_at keeps⟩

theorem Assembles.atBandStart_extract (at_start : start.AtBandStart)
    (untouched : Untouched filter start graph) (counters_eq : graph.counters.totalRows = start.counters.totalRows
      ∧ graph.counters.band = start.counters.band ∧ graph.counters.bandStart = start.counters.bandStart)
    (extracted : graph.extract filter = .ok part) : part.AtBandStart := by
  obtain ⟨_, part_counters, _⟩ := extract_ok extracted
  obtain ⟨rows_eq, band_eq, band_start_eq⟩ := counters_eq
  have graph_well_formed : graph.WellFormed := at_start.well_formed.of_prolongs assembles.params
    (assembles.nodes.imp fun _ _ related => related.1) (.of_eq assembles.edges assembles.table)
  refine ⟨wellFormed_of_extract extracted graph_well_formed, ?_, ?_, ?_⟩
  · intro node node_mem
    obtain ⟨before, before_mem, same⟩ := assembles.exists_origin untouched extracted node_mem
    rw [part_counters, rows_eq]
    exact same.hasRows (at_start.has_rows before before_mem)
  · rw [part_counters, rows_eq, band_start_eq]
    exact at_start.band_start
  · intro node node_mem
    obtain ⟨before, before_mem, same⟩ := assembles.exists_origin untouched extracted node_mem
    rw [part_counters, band_eq, same.bands]
    exact at_start.closed before before_mem

end

/-- Some nodes of a graph under assembly have got more rows, and the others are as they were. -/
structure Restores (filter : ComponentFilter) (start before after : Graph) : Prop where
  assembles : Assembles start after
  unchanged : ∀ (i : ℕ) (node : Node), before.nodes[i]? = some node →
    filter.keepsNode node.component = false → after.nodes[i]? = some node

/-- The rows that a part has grown go back to the whole. -/
theorem Assembles.restores {restored : Graph} (assembles : Assembles start graph)
    (extracted : graph.extract filter = .ok part)
    (grown : Forall₂ (fun before after : Node => after.Prolongs before) part.nodes finished.nodes)
    (params_eq : restored.params = graph.params) (edges_eq : restored.edges = graph.edges)
    (table_eq : restored.edgeTable = graph.edgeTable)
    (nodes_eq : restored.nodes = restoreNodes filter graph.nodes finished.nodes) : Restores filter start graph restored := by
  have other_at : ∀ (i : ℕ) (node : Node), graph.nodes[i]? = some node →
      filter.keepsNode node.component = false → restored.nodes[i]? = some node := by
    intro i node node_at drops
    rw [nodes_eq, getElem?_restoreNodes, node_at]
    simp [drops]
  refine ⟨⟨params_eq.trans assembles.params, edges_eq.trans assembles.edges,
    table_eq.trans assembles.table, ?_⟩, other_at⟩
  apply forall₂_of_getElem?
  · rw [nodes_eq, length_restoreNodes, assembles.nodes.length_eq]
  · intro i before node before_at node_at
    obtain ⟨middle, middle_at, prolonged, component_eq⟩ := assembles.nodes.getElem?_right before_at
    cases keeps : filter.keepsNode middle.component with
    | true =>
      obtain ⟨found, _, found_prolongs, restored_at⟩ := getElem?_restoreNodes_of_keeps extracted grown middle_at keeps
      rw [← nodes_eq] at restored_at
      obtain rfl := Option.mem_unique restored_at node_at
      exact ⟨found_prolongs.sameRows_withRowsOf.prolongs.trans (found_prolongs.trans prolonged), component_eq⟩
    | false =>
      obtain rfl := Option.some.inj ((other_at i middle middle_at keeps).symm.trans node_at)
      exact ⟨prolonged, component_eq⟩

section Restored

variable {other : ComponentFilter} {before after : Graph} (restores : Restores filter start before after)
  (assembles : Assembles start before)
  (apart : ∀ component, other.keepsNode component = true → filter.keepsNode component = false)
include restores assembles apart

/-- The nodes of another part are as they were. -/
theorem Restores.getElem?_eq (in_other : start.InPart other i) : after.nodes[i]? = before.nodes[i]? := by
  obtain ⟨node, node_at, keeps⟩ := (assembles.inPart_iff i).mpr in_other
  rw [node_at]
  exact restores.unchanged i node node_at (apart _ keeps)

/-- An untouched part next to the one that has got its rows is left untouched. -/
theorem Restores.untouched (untouched : Untouched other start before) : Untouched other start after := by
  intro i first node first_at node_at keeps
  rw [restores.getElem?_eq assembles apart ⟨first, first_at, keeps⟩] at node_at
  exact untouched i first node first_at node_at keeps

end Restored

end Assemble

end Graph

/-! ### Padding -/

theorem AffineForm.rowValue_zeros (cols paramCount : ℕ) (dims params : ℕ → ℤ) :
    rowValue (List.replicate cols 0) paramCount dims params = 0 := by
  cases cols with
  | zero => simp [rowValue]
  | succ cols => simp [rowValue, replicate_succ, Nat.add_comm 1]

namespace Node

/-- Padding adds rows without a band that give every point the time zero. -/
structure Pads (padded node : Node) (height missing : ℕ) : Prop where
  prolongs : padded.Prolongs node
  has_rows : padded.HasRows (height + missing)
  labels : ∀ row label, height ≤ row → padded.bands[row]? ≠ some (some label)
  zeros : ∀ row, height ≤ row → ∀ coefficient ∈ padded.schedule.rows.getD row [], coefficient = 0
  time : ∀ row params x, padded.timeAt row params x = node.timeAt row params x

/-- The statement with rows of zeros behind its own, outside any band. -/
def padded (node : Node) (missing : ℕ) : Node :=
  { node with
    schedule := { node.schedule with
      rows := node.schedule.rows ++ List.replicate missing (List.replicate node.schedule.cols 0)
      uniform := by
        simp only [mem_append, mem_replicate]
        rintro row (row_mem | ⟨_, rfl⟩)
        · exact node.schedule.uniform row row_mem
        · exact length_replicate }
    bands := node.bands ++ List.replicate missing none
    coincident := node.coincident ++ List.replicate missing false }

theorem eq_padded {result : Node} {missing : ℕ}
    (done : (List.replicate missing (List.replicate node.schedule.cols 0)).foldlM
      (fun (grown : Node) row => grown.pushRow row none false) node = .ok result) : result = node.padded missing := by
  induction missing generalizing node with
  | zero =>
    obtain rfl := pure_ok.mp done
    simp [padded]
  | succ missing ih =>
    rw [replicate_succ, foldlM_cons, bind_ok] at done
    obtain ⟨next, next_ok, done⟩ := done
    simp only [pushRow, bind_ok, pure_ok, RowMatrix.pushRow_ok_iff] at next_ok
    obtain ⟨⟨cols, rows, uniform⟩, ⟨_, rfl, rfl⟩, rfl⟩ := next_ok
    rw [ih done]
    simp [padded, replicate_succ]

theorem HasRows.padded {height : ℕ} (has_rows : node.HasRows height) (missing : ℕ) :
    (node.padded missing).HasRows (height + missing) := by
  obtain ⟨rfl, bands, coincident⟩ := has_rows
  constructor <;> simp [Node.padded, RowMatrix.height, bands, coincident]

theorem pads_padded {height : ℕ} (has_rows : node.HasRows height) (missing : ℕ) : (node.padded missing).Pads node height missing := by
  have prolongs : (node.padded missing).Prolongs node := ⟨rfl, rfl, prefix_append _ _, prefix_append _ _, prefix_append _ _⟩
  have zeros : ∀ row, height ≤ row → ∀ coefficient ∈ (node.padded missing).schedule.rows.getD row [], coefficient = 0 := by
    intro row beyond coefficient coefficient_mem
    rw [padded, getD_eq_getElem?_getD, getElem?_append_right (has_rows.height.trans_le beyond), getElem?_replicate] at coefficient_mem
    split at coefficient_mem
    · exact eq_of_mem_replicate coefficient_mem
    · cases coefficient_mem
  refine ⟨prolongs, has_rows.padded missing, fun row label beyond => ?_, zeros, fun row params x => ?_⟩
  · rw [padded, getElem?_append_right (has_rows.bands.trans_le beyond), getElem?_replicate]
    split <;> simp
  · rcases Nat.lt_or_ge row height with earlier | later
    · exact prolongs.timeAt_eq has_rows earlier params x
    · rw [has_rows.timeAt_eq_zero later, timeAt, eq_replicate_of_mem (zeros row later), AffineForm.rowValue_zeros]

end Node

theorem Graph.padRows_ok {result : Graph} (done : graph.padRows = .ok result) :
    result = { graph with nodes := graph.nodes.map fun node => node.padded (graph.counters.totalRows - node.schedule.height) } := by
  simp only [padRows, bind_ok, pure_ok, mapM_ok] at done
  obtain ⟨nodes, each, rfl⟩ := done
  rw [each.map_eq fun _ _ padded_ok => (Node.eq_padded padded_ok).symm, map_id']

end AffineSchedule
