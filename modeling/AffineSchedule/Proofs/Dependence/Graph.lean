import AffineSchedule.Dependence.Narrowing
import AffineSchedule.Proofs.Component
import AffineSchedule.Proofs.Dependence.EdgeTable
import AffineSchedule.Proofs.Dependence.Node
import AffineSchedule.Proofs.Relation

namespace AffineSchedule

open Checked List Node Components

variable {graph : Graph} {node : Node} {edge : Edge} {i j paramCount index : ℕ}
  {params x y : ℕ → ℤ} {a b : Node} {kind : Kind} {relation : Relation} {final start : Graph}

/-- The tagged relations that an edge keeps for a kind. -/
def Edge.taggedOf (edge : Edge) : Kind → List Relation
  | .condition => edge.taggedCondition
  | .conditionalValidity => edge.taggedValidity
  | _ => []

/-- The relation of an edge fits the dimensions of its ends, which are those of the nodes at two positions. -/
structure Edge.LaidOut (edge : Edge) (dims : List ℕ) (paramCount : ℕ) : Prop where
  relation : edge.relation.LaidOut
  params : edge.relation.params.length = paramCount
  source_tag : edge.relation.source.tag = none
  target_tag : edge.relation.target.tag = none
  source : dims[edge.source]? = some edge.relation.source.dim
  target : dims[edge.target]? = some edge.relation.target.dim

namespace Graph

/-- The dimensions of the nodes. -/
def dims (graph : Graph) : List ℕ := graph.nodes.map (·.space.dim)

theorem dim_eq_of_dims {dim : ℕ} (node_at : graph.nodes[index]? = some node) (dim_at : graph.dims[index]? = some dim) :
    node.space.dim = dim := by
  simpa [dims, node_at] using dim_at

theorem findNode?_eq_some {name : String} (found : graph.findNode? name = some index) :
    ∃ node, graph.nodes[index]? = some node ∧ node.name = name := by
  rw [findNode?, findRev?_eq_find?_reverse, Option.map_eq_some_iff] at found
  obtain ⟨⟨node, position⟩, found, rfl⟩ := found
  have entry_mem := mem_reverse.mp (mem_of_find?_eq_some found)
  have name_eq := find?_some found
  exact ⟨node, mk_mem_zipIdx_iff_getElem?.mp entry_mem, of_decide_eq_true name_eq⟩

theorem exists_findNode?_of_mem (node_mem : node ∈ graph.nodes) : ∃ index, graph.findNode? node.name = some index := by
  obtain ⟨index, node_at⟩ := getElem?_of_mem node_mem
  rw [← Option.isSome_iff_exists, findNode?, findRev?_eq_find?_reverse, Option.isSome_map, find?_isSome]
  exact ⟨(node, index), mem_reverse.mpr (mk_mem_zipIdx_iff_getElem?.mpr node_at), decide_eq_true rfl⟩

/-- A node that shares its name with no other is found under it. -/
theorem findNode?_of_nodup (nodup : (graph.nodes.map (·.name)).Nodup) (node_at : graph.nodes[index]? = some node) :
    graph.findNode? node.name = some index := by
  obtain ⟨other, found⟩ := exists_findNode?_of_mem (mem_of_getElem? node_at)
  obtain ⟨twin, twin_at, name_eq⟩ := findNode?_eq_some found
  have names_eq : (graph.nodes.map (·.name))[other]? = (graph.nodes.map (·.name))[index]? := by
    rw [getElem?_map, getElem?_map, twin_at, node_at, Option.map_some, name_eq, Option.map_some]
  have inside : other < (graph.nodes.map (·.name)).length := by
    simpa using (List.getElem?_eq_some_iff.mp twin_at).1
  rw [found, (getElem?_inj inside nodup).mp names_eq]

/-- Nodes and edges are laid out over the parameters of the graph. -/
structure WellFormed (graph : Graph) : Prop where
  size : graph.nodes.length < Size.unreachable
  nodes : ∀ node ∈ graph.nodes, node.LaidOut graph.params.length
  edges : ∀ edge ∈ graph.edges, edge.LaidOut graph.dims graph.params.length

theorem WellFormed.exists_ends (well_formed : graph.WellFormed) {edge : Edge} (edge_mem : edge ∈ graph.edges) :
    ∃ a b, graph.nodes[edge.source]? = some a ∧ graph.nodes[edge.target]? = some b := by
  have laid_out := well_formed.edges edge edge_mem
  have source_at := laid_out.source
  have target_at := laid_out.target
  rw [dims, getElem?_map, Option.map_eq_some_iff] at source_at target_at
  obtain ⟨a, a_at, _⟩ := source_at
  obtain ⟨b, b_at, _⟩ := target_at
  exact ⟨a, b, a_at, b_at⟩

/-- An edge of a kind between two positions relates a pair of instances. -/
def Links (graph : Graph) (kind : Kind) (i j : ℕ) (params x y : ℕ → ℤ) : Prop :=
  ∃ edge ∈ graph.edges, edge.source = i ∧ edge.target = j ∧ edge.has kind = true
    ∧ edge.relation.Relates params x y

end Graph

/-! ### Bookkeeping -/

/-- The node without its columns in the linear problem and its band identifiers. -/
def Node.core (node : Node) : Node := { node with firstColumn := 0, bandIds := [] }

/-- The basis does not depend on bookkeeping. -/
theorem Node.based_of_core_eq {twin : Node} (core_eq : node.core = twin.core) (based : node.Based) :
    twin.Based := by
  have twin_eq : twin = { node with firstColumn := twin.firstColumn, bandIds := twin.bandIds } := by
    cases node
    cases twin
    simp only [core, mk.injEq] at core_eq ⊢
    tauto
  simp only [Based, updateBasis, bind_ok, pure_ok] at based ⊢
  rw [twin_eq]
  obtain ⟨linear, linear_ok, hermite, hermite_ok, node_eq⟩ := based
  refine ⟨linear, linear_ok, hermite, hermite_ok, ?_⟩
  cases node
  simp only [mk.injEq] at node_eq ⊢
  tauto

namespace Node

variable {after before : Node}

/-- Two nodes have the same rows. -/
structure SameRows (after before : Node) : Prop where
  space : after.space = before.space
  schedule : after.schedule = before.schedule
  bands : after.bands = before.bands
  coincident : after.coincident = before.coincident

theorem SameRows.refl (node : Node) : node.SameRows node := ⟨rfl, rfl, rfl, rfl⟩

theorem SameRows.prolongs (same : after.SameRows before) : after.Prolongs before :=
  ⟨same.space, same.schedule ▸ rfl, same.schedule ▸ prefix_refl _, same.bands ▸ prefix_refl _, same.coincident ▸ prefix_refl _⟩

theorem SameRows.trans {last middle first : Node} (after : last.SameRows middle)
    (before : middle.SameRows first) : last.SameRows first :=
  ⟨after.space.trans before.space, after.schedule.trans before.schedule, after.bands.trans before.bands,
    after.coincident.trans before.coincident⟩

theorem sameRows_of_core_eq (core_eq : after.core = before.core) : after.SameRows before :=
  ⟨congrArg (·.space) core_eq, congrArg (·.schedule) core_eq, congrArg (·.bands) core_eq, congrArg (·.coincident) core_eq⟩

theorem sameRows_of_updateBasis (updated : before.updateBasis = .ok after) :
    after.SameRows before ∧ after.component = before.component ∧ after.Based := by
  obtain ⟨based, after_eq⟩ := updateBasis_ok updated
  refine ⟨?_, congrArg (·.component) after_eq, based⟩
  exact ⟨congrArg (·.space) after_eq, congrArg (·.schedule) after_eq, congrArg (·.bands) after_eq,
    congrArg (·.coincident) after_eq⟩

end Node

/-- Nodes that have kept their components. -/
abbrev SameComponents (nodes others : List Node) : Prop :=
  Forall₂ (fun before after : Node => after.component = before.component) nodes others

theorem SameComponents.trans {first middle last : List Node} (before : SameComponents first middle)
    (after : SameComponents middle last) : SameComponents first last :=
  forall₂_trans (fun _ _ _ earlier later => later.trans earlier) before after

/-- The edge without its rows in the linear problem and the mark of local conditions. -/
def Edge.core (edge : Edge) : Edge :=
  { edge with isLocal := false, firstRow := 0, endRow := 0 }

theorem Edge.LaidOut.of_eq {other : Edge} {dims : List ℕ} (laid_out : edge.LaidOut dims paramCount)
    (source_eq : other.source = edge.source) (target_eq : other.target = edge.target)
    (relation_eq : other.relation = edge.relation) : other.LaidOut dims paramCount := by
  refine ⟨relation_eq ▸ laid_out.relation, relation_eq ▸ laid_out.params, relation_eq ▸ laid_out.source_tag,
    relation_eq ▸ laid_out.target_tag, ?_, ?_⟩
  · rw [source_eq, relation_eq]
    exact laid_out.source
  · rw [target_eq, relation_eq]
    exact laid_out.target

theorem Edge.has_of_core_eq {twin : Edge} (core_eq : edge.core = twin.core) (kind : Kind) :
    edge.has kind = twin.has kind :=
  congrArg (·.has kind) core_eq

theorem Edge.Stands.of_core_eq {edges others : List Edge} {key : Kind × ℕ × ℕ} {position : ℕ}
    (cores_eq : edges.map core = others.map core) (stands : Stands edges key position) : Stands others key position := by
  obtain ⟨edge, edge_at, has_kind, ends_eq⟩ := stands
  obtain ⟨other, other_at, core_eq⟩ := (forall₂_of_map_eq cores_eq).getElem?_right edge_at
  refine ⟨other, other_at, ((has_of_core_eq core_eq _).symm.trans has_kind), ?_⟩
  exact (congrArg (fun core => (core.source, core.target)) core_eq.symm).trans ends_eq

namespace Graph

variable {next : Graph}

/-- The graph without the bookkeeping of the search for rows. -/
def core (graph : Graph) : Graph :=
  { graph with
    nodes := graph.nodes.map Node.core
    edges := graph.edges.map Edge.core
    conflict := none }

/-- The edges without bookkeeping, and their table. -/
def edgeCores (graph : Graph) : List Edge × EdgeTable :=
  (graph.edges.map Edge.core, graph.edgeTable)

/-- The edges have been kept up to bookkeeping, and the table with them. -/
abbrev SameEdges (graph next : Graph) : Prop := next.edgeCores = graph.edgeCores

theorem SameEdges.of_eq (edges_eq : next.edges = graph.edges) (table_eq : next.edgeTable = graph.edgeTable) :
    graph.SameEdges next := by
  rw [SameEdges, edgeCores, edges_eq, table_eq, edgeCores]

section SameEdges

variable (same : graph.SameEdges next)
include same

theorem SameEdges.cores : next.edges.map Edge.core = graph.edges.map Edge.core := congrArg Prod.fst same

theorem SameEdges.exists_twin (edge_mem : edge ∈ next.edges) : ∃ twin ∈ graph.edges, twin.core = edge.core :=
  mem_map.mp (same.cores ▸ mem_map_of_mem edge_mem)

theorem Tabled.of_sameEdges (tabled : graph.Tabled) : next.Tabled := by
  have table_eq : next.edgeTable = graph.edgeTable := congrArg Prod.snd same
  intro key position
  rw [table_eq, tabled]
  exact ⟨Edge.Stands.of_core_eq same.cores.symm, Edge.Stands.of_core_eq same.cores⟩

/-- What holds of the edges and their ends holds of the same edges and corresponding ends. -/
theorem SameEdges.forall_ends {related : Node → Node → Prop}
    {property : Edge → Node → Node → Prop} (nodes : Forall₂ related graph.nodes next.nodes)
    (carry : ∀ twin edge a_before a b_before b, twin.core = edge.core → related a_before a → related b_before b →
      property twin a_before b_before → property edge a b)
    (all : ∀ edge ∈ graph.edges, ∀ a b, graph.nodes[edge.source]? = some a → graph.nodes[edge.target]? = some b →
      property edge a b) :
    ∀ edge ∈ next.edges, ∀ a b, next.nodes[edge.source]? = some a → next.nodes[edge.target]? = some b →
      property edge a b := by
  intro edge edge_mem a b a_at b_at
  obtain ⟨twin, twin_mem, core_eq⟩ := same.exists_twin edge_mem
  have source_eq : twin.source = edge.source := congrArg (·.source) core_eq
  have target_eq : twin.target = edge.target := congrArg (·.target) core_eq
  obtain ⟨a_before, a_before_at, a_related⟩ := nodes.getElem?_left a_at
  obtain ⟨b_before, b_before_at, b_related⟩ := nodes.getElem?_left b_at
  exact carry twin edge a_before a b_before b core_eq a_related b_related
    (all twin twin_mem a_before b_before (source_eq ▸ a_before_at) (target_eq ▸ b_before_at))

end SameEdges

/-- Two graphs have the same rows, counters and dependences. -/
structure SameRows (after before : Graph) : Prop where
  params : after.params = before.params
  nodes : Forall₂ (fun old new : Node => new.SameRows old) before.nodes after.nodes
  edges : before.SameEdges after
  counters : after.counters = before.counters

theorem SameRows.refl (graph : Graph) : graph.SameRows graph :=
  ⟨rfl, forall₂_same.mpr fun node _ => Node.SameRows.refl node, rfl, rfl⟩

/-- Further rows and other bookkeeping leave a graph well-formed. -/
theorem WellFormed.of_prolongs (well_formed : start.WellFormed) (params_eq : final.params = start.params)
    (nodes : Forall₂ (fun before after : Node => after.Prolongs before) start.nodes final.nodes)
    (edges_eq : start.SameEdges final) : final.WellFormed := by
  have dims_eq : start.dims = final.dims := nodes.map_eq fun _ _ prolonged => congrArg (·.dim) prolonged.space.symm
  refine ⟨nodes.length_eq ▸ well_formed.size, ?_, ?_⟩
  · rw [params_eq]
    exact nodes.forall_mem (fun _ _ _ prolonged laid_out => prolonged.laidOut laid_out) well_formed.nodes
  · rw [params_eq, ← dims_eq]
    intro edge edge_mem
    obtain ⟨twin, twin_mem, core_eq⟩ := edges_eq.exists_twin edge_mem
    exact (well_formed.edges twin twin_mem).of_eq (congrArg (·.source) core_eq.symm) (congrArg (·.target) core_eq.symm)
      (congrArg (·.relation) core_eq.symm)

theorem SameRows.wellFormed (same : final.SameRows start) (well_formed : start.WellFormed) : final.WellFormed :=
  well_formed.of_prolongs same.params (same.nodes.imp fun _ _ node_same => node_same.prolongs) same.edges

section Core

variable {other : Graph} (same : graph.core = other.core)
include same

/-- Graphs that differ in bookkeeping only have corresponding nodes. -/
theorem nodes_of_core_eq : Forall₂ (fun node twin : Node => node.core = twin.core) graph.nodes other.nodes :=
  forall₂_of_map_eq (congrArg Graph.nodes same)

/-- A property of nodes that does not depend on bookkeeping holds for the nodes of both graphs. -/
theorem forall_node_of_core_eq {property : Node → Prop}
    (invariant : ∀ node twin : Node, node.core = twin.core → property node → property twin)
    (all : ∀ node ∈ graph.nodes, property node) : ∀ node ∈ other.nodes, property node :=
  (nodes_of_core_eq same).forall_mem (fun node twin _ => invariant node twin) all

theorem length_nodes_of_core_eq : graph.nodes.length = other.nodes.length := (nodes_of_core_eq same).length_eq

theorem components_of_core_eq : SameComponents other.nodes graph.nodes :=
  (nodes_of_core_eq same).flip.imp fun _ _ core_eq => congrArg (·.component) core_eq

theorem counters_of_core_eq : graph.counters = other.counters := congrArg (·.counters) same

theorem sameRows_of_core_eq : graph.SameRows other :=
  ⟨congrArg (·.params) same, (nodes_of_core_eq same).flip.imp fun _ _ => Node.sameRows_of_core_eq,
    congrArg (fun core => (core.edges, core.edgeTable)) same, counters_of_core_eq same⟩

theorem wellFormed_of_core_eq (well_formed : graph.WellFormed) : other.WellFormed :=
  (sameRows_of_core_eq same.symm).wellFormed well_formed

end Core

/-- Edges that agree up to bookkeeping link the same instances. -/
theorem links_of_edges_eq {other : Graph} (edges_eq : other.SameEdges graph) (linked : graph.Links kind i j params x y) :
    other.Links kind i j params x y := by
  obtain ⟨edge, edge_mem, source_eq, target_eq, has_kind, related⟩ := linked
  obtain ⟨twin, twin_mem, core_eq⟩ := edges_eq.exists_twin edge_mem
  have relation_eq : twin.relation = edge.relation := congrArg (·.relation) core_eq
  exact ⟨twin, twin_mem, (congrArg (·.source) core_eq).trans source_eq, (congrArg (·.target) core_eq).trans target_eq,
    (Edge.has_of_core_eq core_eq kind).trans has_kind, relation_eq ▸ related⟩

/-! ### Components -/

/-- The components of the nodes are numbered so that no validity edge leads to an earlier one, and the nodes
    are listed by component. -/
structure Partitioned (graph : Graph) : Prop where
  component_lt : ∀ node ∈ graph.nodes, node.component < graph.componentCount
  count_le : graph.componentCount ≤ graph.nodes.length
  sorted : ∀ index < graph.nodes.length, index ∈ graph.sorted
  ordered : ∀ edge ∈ graph.edges, edge.has .validity = true → ∀ a b, graph.nodes[edge.source]? = some a →
    graph.nodes[edge.target]? = some b → a.component ≤ b.component

/-- No edge joins two components. -/
def Separated (graph : Graph) : Prop :=
  ∀ edge ∈ graph.edges, ∀ kind, edge.has kind = true → ∀ a b, graph.nodes[edge.source]? = some a →
    graph.nodes[edge.target]? = some b → a.component = b.component

/-- The components and the edges between them have been kept. -/
structure SameParts (graph next : Graph) : Prop where
  components : SameComponents graph.nodes next.nodes
  edges : graph.SameEdges next
  sorted : next.sorted = graph.sorted
  count : next.componentCount = graph.componentCount

theorem SameParts.refl (graph : Graph) : graph.SameParts graph :=
  ⟨forall₂_same.mpr fun _ _ => rfl, rfl, rfl, rfl⟩

theorem SameParts.trans {first middle last : Graph} (before : first.SameParts middle)
    (after : middle.SameParts last) : first.SameParts last :=
  ⟨before.components.trans after.components, after.edges.trans before.edges, after.sorted.trans before.sorted,
    after.count.trans before.count⟩

theorem sameParts_of_core_eq (same : next.core = graph.core) : graph.SameParts next :=
  ⟨components_of_core_eq same, congrArg (fun core => (core.edges, core.edgeTable)) same, congrArg (·.sorted) same, congrArg (·.componentCount) same⟩

theorem Partitioned.of_parts (partitioned : graph.Partitioned) (same : graph.SameParts next) :
    next.Partitioned := by
  refine ⟨?_, ?_, ?_, fun edge edge_mem has_validity a b a_at b_at => ?_⟩
  · rw [same.count]
    exact same.components.forall_mem (fun _ _ _ component_eq below => component_eq ▸ below) partitioned.component_lt
  · rw [same.count, ← same.components.length_eq]
    exact partitioned.count_le
  · rw [same.sorted, ← same.components.length_eq]
    exact partitioned.sorted
  · refine same.edges.forall_ends same.components ?_
      (fun edge edge_mem a b a_at b_at has_validity => partitioned.ordered edge edge_mem has_validity a b a_at b_at)
      edge edge_mem a b a_at b_at has_validity
    intro twin edge a_before a b_before b core_eq a_component b_component in_order has_validity
    rw [a_component, b_component]
    exact in_order ((Edge.has_of_core_eq core_eq _).trans has_validity)

theorem partitioned_of_core_eq {other : Graph} (same : graph.core = other.core)
    (partitioned : graph.Partitioned) : other.Partitioned :=
  partitioned.of_parts (sameParts_of_core_eq same.symm)

/-- A node of a graph with components assigned is a node of the graph with its label. -/
theorem getElem?_assign {components : Components} (length_eq : components.labels.length = graph.nodes.length)
    (index : ℕ) : (graph.assign components).nodes[index]?
      = graph.nodes[index]?.map fun node => { node with component := components.label index } := by
  by_cases inside : index < graph.nodes.length
  · have labelled : index < components.labels.length := length_eq ▸ inside
    simp [assign, inside, labelled, Components.label, getD_eq_getElem?_getD]
  · have unlabelled : components.labels[index]? = none := by
      rw [getElem?_eq_none_iff, length_eq]
      exact Nat.le_of_not_lt inside
    have absent : graph.nodes[index]? = none := getElem?_eq_none_iff.mpr (Nat.le_of_not_lt inside)
    simp [assign, getElem?_zipWith, unlabelled, absent]

section Detect

variable {follows : ℕ → ℕ → Bool}

theorem length_labels_compute (size : ℕ) : (Components.compute size follows).labels.length = size := by
  rw [labels_compute, length_map, length_range]

theorem length_nodes_assign : (graph.assign (Components.compute graph.nodes.length follows)).nodes.length
    = graph.nodes.length := by
  simp [assign, length_labels_compute]

/-- A node with a computed component. -/
theorem component_of_assign (node_at : (graph.assign (Components.compute graph.nodes.length follows)).nodes[index]? = some node) :
    index < graph.nodes.length ∧ node.component = (Components.compute graph.nodes.length follows).label index := by
  have inside := (List.getElem?_eq_some_iff.mp node_at).1
  rw [length_nodes_assign] at inside
  rw [getElem?_assign (length_labels_compute _), Option.map_eq_some_iff] at node_at
  obtain ⟨_, _, rfl⟩ := node_at
  exact ⟨inside, rfl⟩

/-- The node that follows has no earlier component. -/
theorem component_le_of_assign (follows_eq : follows j i = true)
    (a_at : (graph.assign (Components.compute graph.nodes.length follows)).nodes[i]? = some a)
    (b_at : (graph.assign (Components.compute graph.nodes.length follows)).nodes[j]? = some b) : a.component ≤ b.component := by
  obtain ⟨i_lt, a_eq⟩ := component_of_assign a_at
  obtain ⟨j_lt, b_eq⟩ := component_of_assign b_at
  rw [a_eq, b_eq]
  exact label_le_of_follows j_lt i_lt follows_eq

/-- Components that are computed along the validity edges, at least, partition the graph. -/
theorem partitioned_assign
    (along : ∀ edge ∈ graph.edges, edge.has .validity = true → follows edge.target edge.source = true) :
    (graph.assign (Components.compute graph.nodes.length follows)).Partitioned := by
  refine ⟨?_, ?_, ?_, fun edge edge_mem has_validity _ _ => component_le_of_assign (along edge edge_mem has_validity)⟩
  · intro node node_mem
    obtain ⟨index, node_at⟩ := getElem?_of_mem node_mem
    obtain ⟨inside, component_eq⟩ := component_of_assign node_at
    rw [component_eq]
    exact label_lt_count inside
  · rw [length_nodes_assign]
    exact count_le_size
  · intro index inside
    rw [length_nodes_assign] at inside
    simp only [assign, mem_flatMap, mem_filter, mem_range, decide_eq_true_eq]
    exact ⟨_, label_lt_count inside, inside, rfl⟩

end Detect

section Tabled

variable (tabled : graph.Tabled)
include tabled

/-- Strongly connected components are numbered along the validity edges. -/
theorem partitioned_detectStrong : graph.detectStrong.Partitioned := by
  apply partitioned_assign
  intro edge edge_mem has_validity
  rw [hasValidityEdge, tabled.hasEdge_of_mem edge_mem has_validity, Bool.true_or]

/-- Weakly connected components are numbered along the validity edges. -/
theorem partitioned_detectWeak : graph.detectWeak.Partitioned := by
  apply partitioned_assign
  intro edge edge_mem has_validity
  rw [tabled.hasAnyEdge_of_mem edge_mem has_validity, Bool.or_true]

/-- Weakly connected components are not joined by any edge. -/
theorem separated_detectWeak : graph.detectWeak.Separated := by
  intro edge edge_mem kind has_kind a b source_at target_at
  have found : graph.hasAnyEdge edge.source edge.target = true := tabled.hasAnyEdge_of_mem edge_mem has_kind
  apply le_antisymm
  · exact component_le_of_assign (by rw [found, Bool.or_true]) source_at target_at
  · exact component_le_of_assign (by rw [found, Bool.true_or]) target_at source_at

end Tabled

/-- The ordinal of a node of a partitioned graph is its component. -/
theorem Partitioned.ordinal_eq (partitioned : graph.Partitioned) (well_formed : graph.WellFormed)
    (node_mem : node ∈ graph.nodes) : node.ordinal = node.component := by
  have below := partitioned.component_lt node node_mem
  have count_le := partitioned.count_le
  have size := well_formed.size
  unfold Size.unreachable at size
  apply Word.wrap_of_fits
  constructor
  · unfold Word.least
    omega
  · unfold Word.greatest
    omega

/-! ### Narrowing -/

/-- Narrowing touches the edges and their table only, and keeps those that are narrowed to something. -/
theorem narrowEdges_ok (done : graph.narrowEdges = .ok next) :
    next = { graph with edges := next.edges, edgeTable := next.edgeTable }
      ∧ (∀ edge ∈ next.edges, edge.relation.disjuncts ≠ [] ∧ ∃ before ∈ graph.edges, graph.narrowEdge before = .ok edge)
      ∧ ∀ edge ∈ graph.edges, ∃ after, graph.narrowEdge edge = .ok after ∧ (after.relation.disjuncts ≠ [] → after ∈ next.edges) := by
  simp only [narrowEdges, bind_ok, mapM_ok] at done
  obtain ⟨narrowed, each, checked⟩ := done
  obtain ⟨⟨_, rfl⟩, _⟩ := withEdges_ok checked
  refine ⟨rfl, fun edge edge_mem => ?_, fun edge edge_mem => ?_⟩
  · obtain ⟨edge_mem, nonempty⟩ := mem_filter.mp edge_mem
    exact ⟨by simpa using nonempty, each.exists_left edge_mem⟩
  · obtain ⟨after, after_mem, narrow⟩ := each.exists_right edge_mem
    exact ⟨after, narrow, fun nonempty => mem_filter.mpr ⟨after_mem, by simpa using nonempty⟩⟩

theorem exists_edges_of_narrowEdges (done : graph.narrowEdges = .ok next) :
    ∃ edges table, next = { graph with edges := edges, edgeTable := table } := ⟨_, _, (narrowEdges_ok done).1⟩

theorem tabled_of_narrowEdges (done : graph.narrowEdges = .ok next) : next.Tabled := by
  obtain ⟨narrowed, _, checked⟩ := bind_ok.mp done
  exact (withEdges_ok checked).2

/-- The rows of two schedules agree on a pair of points. -/
def RowsAgree (sourceRows targetRows : RowMatrix) (paramCount : ℕ) (params x y : ℕ → ℤ) : Prop :=
  ∀ pair ∈ sourceRows.rows.zip targetRows.rows, Relation.Agree paramCount params x y pair

section

variable (a_params : a.space.params = paramCount) (b_params : b.space.params = paramCount)
include a_params b_params

/-- Times that agree on every row agree on the pairs of rows of two schedules. -/
theorem rowsAgree_of_timeAt_eq
    (agree : ∀ row, a.timeAt row params x = b.timeAt row params y) : RowsAgree a.schedule b.schedule paramCount params x y := by
  intro pair pair_mem
  obtain ⟨row, pair_at⟩ := getElem?_of_mem pair_mem
  obtain ⟨first_at, second_at⟩ := getElem?_zip_eq_some.mp pair_at
  have row_agrees := agree row
  rwa [timeAt, timeAt, getD_eq_getElem?_getD, getD_eq_getElem?_getD, first_at,
    second_at, a_params, b_params] at row_agrees

/-- Nodes with as many rows agree on a pair if all their rows do. -/
theorem timeAt_eq_of_rowsAgree {count : ℕ}
    (a_rows : a.HasRows count) (b_rows : b.HasRows count) (agree : RowsAgree a.schedule b.schedule paramCount params x y) (row : ℕ) :
    a.timeAt row params x = b.timeAt row params y := by
  rcases Nat.lt_or_ge row count with inside | beyond
  · have a_at := getElem?_eq_getElem (inside.trans_eq a_rows.height.symm : row < a.schedule.rows.length)
    have b_at := getElem?_eq_getElem (inside.trans_eq b_rows.height.symm : row < b.schedule.rows.length)
    have pair_at : (a.schedule.rows.zip b.schedule.rows)[row]? = some (_, _) := getElem?_zip_eq_some.mpr ⟨a_at, b_at⟩
    have equal := agree _ (mem_of_getElem? pair_at)
    rwa [timeAt, timeAt, getD_eq_getElem?_getD, getD_eq_getElem?_getD, a_at, b_at, a_params, b_params]
  · rw [a_rows.timeAt_eq_zero beyond, b_rows.timeAt_eq_zero beyond]

end

/-- A narrowed relation keeps the pairs on which the rows agree. -/
theorem narrowRelation_ok {result : Relation} {sourceRows targetRows : RowMatrix}
    (done : narrowRelation sourceRows targetRows relation = .ok result) :
    result = { relation with disjuncts := result.disjuncts } ∧ (relation.LaidOut → result.LaidOut
      ∧ (sourceRows.cols = 1 + relation.params.length + relation.source.dim →
        targetRows.cols = 1 + relation.params.length + relation.target.dim →
        relation.Narrowed result (RowsAgree sourceRows targetRows relation.params.length))) := by
  simp only [narrowRelation, bind_ok] at done
  obtain ⟨equal, equal_ok, dropped⟩ := done
  obtain ⟨equal_eq, restricts⟩ := Relation.onEqualRows_ok equal_ok
  obtain ⟨result_eq, subset, survives⟩ := Relation.dropEmpty_ok dropped
  rw [equal_eq] at result_eq
  refine ⟨result_eq, fun laid_out => ?_⟩
  obtain ⟨equal_laid_out, each⟩ := restricts laid_out
  refine ⟨(Relation.images_of_dropEmpty equal_laid_out dropped).1, fun source_cols target_cols => ?_⟩
  have images := each source_cols target_cols
  have source_eq : result.source = relation.source := congrArg (·.source) result_eq
  have target_eq : result.target = relation.target := congrArg (·.target) result_eq
  have origin : ∀ image ∈ result.disjuncts, ∃ conjunct ∈ relation.disjuncts, conjunct.inputs = image.inputs
      ∧ ∀ columns params x y, image.Joins result.source result.target columns x y → image.system.Holds columns params →
        conjunct.system.Holds columns params ∧ RowsAgree sourceRows targetRows relation.params.length params x y := by
    intro image image_mem
    obtain ⟨conjunct, conjunct_mem, inputs_eq, holds_iff⟩ := images.exists_left (subset image image_mem)
    refine ⟨conjunct, conjunct_mem, inputs_eq.symm, fun columns params x y joins => (holds_iff columns params x y ⟨?_, ?_⟩).mp⟩
    · exact source_eq ▸ joins.source
    · exact target_eq ▸ inputs_eq ▸ joins.target
  refine ⟨fun params x y => ⟨source_eq.symm, target_eq.symm, ?_⟩, ?_, fun params x y agree => ⟨source_eq, target_eq, ?_⟩⟩
  · intro image image_mem columns joins holds
    obtain ⟨conjunct, conjunct_mem, inputs_eq, back⟩ := origin image image_mem
    exact ⟨conjunct, conjunct_mem, inputs_eq, (back columns params x y joins holds).1⟩
  · rintro params x y ⟨image, image_mem, columns, joins, holds⟩
    obtain ⟨_, _, _, back⟩ := origin image image_mem
    exact (back columns params x y joins holds).2
  · intro conjunct conjunct_mem columns joins holds
    obtain ⟨image, image_mem, inputs_eq, holds_iff⟩ := images.exists_right conjunct_mem
    have image_holds := (holds_iff columns params x y joins).mpr ⟨holds, agree⟩
    exact ⟨image, survives image image_mem (equal_laid_out image image_mem).system columns params image_holds, inputs_eq, image_holds⟩

/-- What an edge is narrowed to: its ends, kinds and marks stay, and of the tagged relations those are kept that are
    left something. -/
theorem narrowEdge_parts {next : Edge} (done : graph.narrowEdge edge = .ok next) :
    ∃ a b, graph.nodes[edge.source]? = some a ∧ graph.nodes[edge.target]? = some b
      ∧ next = { edge with
          relation := { edge.relation with disjuncts := next.relation.disjuncts }
          taggedCondition := next.taggedCondition, taggedValidity := next.taggedValidity }
      ∧ narrowRelation a.schedule b.schedule edge.relation = .ok next.relation
      ∧ ∀ kind, ∃ images, Forall₂ (fun tagged image => narrowRelation a.schedule b.schedule tagged = .ok image)
          (edge.taggedOf kind) images ∧ next.taggedOf kind = images.filter fun image => !image.disjuncts.isEmpty := by
  simp only [narrowEdge, narrowAll, bind_ok, pure_ok, node, ofOption_ok, mapM_ok] at done
  obtain ⟨a, a_at, b, b_at, relation, relation_ok, _, ⟨_, conditions, rfl⟩, _, ⟨_, validities, rfl⟩, rfl⟩ := done
  refine ⟨a, b, a_at, b_at, by rw [← (narrowRelation_ok relation_ok).1], relation_ok, fun kind => ?_⟩
  cases kind with
  | condition => exact ⟨_, conditions, rfl⟩
  | conditionalValidity => exact ⟨_, validities, rfl⟩
  | validity | coincidence | proximity => exact ⟨[], .nil, rfl⟩

/-- A narrowed edge has the layout of the edge, and the pairs on which the rows of its ends agree. -/
theorem narrowEdge_ok {next : Edge} (well_formed : graph.WellFormed)
    (laid_out : edge.LaidOut graph.dims graph.params.length) (done : graph.narrowEdge edge = .ok next) :
    next.LaidOut graph.dims graph.params.length
      ∧ ∀ a b, graph.nodes[edge.source]? = some a → graph.nodes[edge.target]? = some b →
          edge.relation.Narrowed next.relation (RowsAgree a.schedule b.schedule graph.params.length) := by
  obtain ⟨source, target, source_at, target_at, next_eq, relation_ok, _⟩ := narrowEdge_parts done
  obtain ⟨relation_laid_out, narrows⟩ := (narrowRelation_ok relation_ok).2 laid_out.relation
  rw [laid_out.params] at narrows
  refine ⟨⟨relation_laid_out, ?_, ?_, ?_, ?_, ?_⟩, fun a b a_at b_at => ?_⟩
  · rw [next_eq, laid_out.params]
  · rw [next_eq, laid_out.source_tag]
  · rw [next_eq, laid_out.target_tag]
  · rw [next_eq, laid_out.source]
  · rw [next_eq, laid_out.target]
  · obtain rfl : source = a := Option.mem_unique source_at a_at
    obtain rfl : target = b := Option.mem_unique target_at b_at
    refine narrows ?_ ?_
    · rw [(well_formed.nodes source (mem_of_getElem? source_at)).cols, dim_eq_of_dims source_at laid_out.source]
    · rw [(well_formed.nodes target (mem_of_getElem? target_at)).cols, dim_eq_of_dims target_at laid_out.target]

/-- A relation with a pair has disjuncts. -/
theorem disjuncts_ne_nil (related : relation.Relates params x y) : relation.disjuncts ≠ [] := by
  obtain ⟨conjunct, conjunct_mem, _⟩ := related
  exact ne_nil_of_mem conjunct_mem

/-- Narrowing touches the edges only, and keeps the links between instances with the same times. -/
theorem links_of_narrowEdges (well_formed : graph.WellFormed)
    (done : graph.narrowEdges = .ok next) : next = { graph with edges := next.edges, edgeTable := next.edgeTable } ∧ next.WellFormed
      ∧ ∀ kind i j a b, graph.nodes[i]? = some a → graph.nodes[j]? = some b → ∀ params x y : ℕ → ℤ,
          graph.Links kind i j params x y → (∀ row, a.timeAt row params x = b.timeAt row params y) →
          next.Links kind i j params x y := by
  obtain ⟨next_eq, origin, survives⟩ := narrowEdges_ok done
  rw [next_eq]
  refine ⟨rfl, ⟨well_formed.size, well_formed.nodes, fun edge edge_mem => ?_⟩, ?_⟩
  · obtain ⟨_, before, before_mem, narrow⟩ := origin edge edge_mem
    exact (narrowEdge_ok well_formed (well_formed.edges before before_mem) narrow).1
  · rintro kind i j a b a_at b_at params x y ⟨edge, edge_mem, rfl, rfl, has_kind, related⟩ agree
    obtain ⟨after, narrow, kept⟩ := survives edge edge_mem
    obtain ⟨_, _, _, _, after_eq, _⟩ := narrowEdge_parts narrow
    obtain ⟨_, narrowed⟩ := narrowEdge_ok well_formed (well_formed.edges edge edge_mem) narrow
    have rows_agree := rowsAgree_of_timeAt_eq (well_formed.nodes a (mem_of_getElem? a_at)).params
      (well_formed.nodes b (mem_of_getElem? b_at)).params agree
    have related_after := (narrowed a b a_at b_at).relates_iff.mpr ⟨related, rows_agree⟩
    refine ⟨after, kept (disjuncts_ne_nil related_after), ?_, ?_, ?_, related_after⟩
    · rw [after_eq]
    · rw [after_eq]
    · rw [after_eq]
      exact has_kind

end Graph

end AffineSchedule
