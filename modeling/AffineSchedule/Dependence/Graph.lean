import AffineSchedule.Component
import AffineSchedule.Dependence.Node
import AffineSchedule.Relation

namespace AffineSchedule

/-- A dependence between the nodes at two positions of a graph. -/
structure Edge where
  source : Nat
  target : Nat
  relation : Relation
  kinds : List Kind
  taggedCondition : List Relation
  taggedValidity : List Relation
  /-- The distance is forced to zero. -/
  isLocal : Bool
  /-- The first row of the edge's validity constraints in the current linear problem. -/
  firstRow : Nat
  endRow : Nat
deriving DecidableEq, Repr

namespace Edge

/-- An edge without any kind. -/
def ofRelation (source target : Nat) (relation : Relation) : Edge :=
  { source := source, target := target, relation := relation, kinds := []
    taggedCondition := [], taggedValidity := [], isLocal := false, firstRow := 0, endRow := 0 }

def has (edge : Edge) (kind : Kind) : Bool := edge.kinds.contains kind

def withKind (edge : Edge) (kind : Kind) : Edge :=
  if edge.has kind then edge else { edge with kinds := edge.kinds ++ [kind] }

/-- The edge with tagged relations added to those of its kind; other kinds keep none. -/
def withTagged (edge : Edge) (kind : Kind) (tagged : List Relation) :
    Edge :=
  match kind with
  | .condition => { edge with taggedCondition := edge.taggedCondition ++ tagged }
  | .conditionalValidity => { edge with taggedValidity := edge.taggedValidity ++ tagged }
  | _ => edge

def isAnyValidity (edge : Edge) : Bool :=
  edge.has .validity || edge.has .conditionalValidity

def isIntra (edge : Edge) : Bool := edge.source = edge.target

/-- The next row has to keep the distance of the edge at zero. -/
def forcesZero (edge : Edge) (useCoincidence : Bool) : Bool :=
  edge.isLocal || (useCoincidence && edge.has .coincidence)

/-- The edge runs from one node to another. -/
def joins (edge : Edge) (source target : Nat) : Bool :=
  edge.source = source && edge.target = target

end Edge

/-- Row and band counters shared between a graph and the graphs split off from it. -/
structure BandCounters where
  /-- Rows that count towards the number of rows needed. -/
  rows : Nat
  /-- All rows, ordering rows included. -/
  totalRows : Nat
  band : Nat
  bandStart : Nat
  /-- An upper bound on the number of all rows. -/
  maxRows : Nat
deriving DecidableEq, Repr, Inhabited

/-- Positions of edges by kind, source and target. The first entry under a key is the valid one. -/
abbrev EdgeTable : Type := List ((Kind × Nat × Nat) × Nat)

/-- The dependence graph of a problem or of a part of it. -/
structure Graph where
  params : List String
  nodes : List Node
  edges : List Edge
  edgeTable : EdgeTable
  sorted : List Nat
  /-- The number of rows that the most demanding node needs. -/
  rowsNeeded : Nat
  /-- The number of components from the last detection. -/
  componentCount : Nat
  /-- Two components that no common row can order, source first. -/
  conflict : Option (Nat × Nat)
  counters : BandCounters
deriving DecidableEq, Repr, Inhabited

namespace Graph

def node (graph : Graph) (position : Nat) : Checked Node :=
  Checked.ofOption graph.nodes[position]?

/-- The position of a statement, the last one if several nodes have its name. -/
def findNode? (graph : Graph) (name : String) : Option Nat :=
  (graph.nodes.zipIdx.findRev? (·.1.name = name)).map Prod.snd

/-! ### Edges -/

def hasEdge (graph : Graph) (kind : Kind) (source target : Nat) : Bool :=
  (graph.edgeTable.lookup (kind, source, target)).isSome

def hasValidityEdge (graph : Graph) (source target : Nat) : Bool :=
  graph.hasEdge .validity source target || graph.hasEdge .conditionalValidity source target

/-- There is an edge of any kind from one node to another. -/
def hasAnyEdge (graph : Graph) (source target : Nat) : Bool :=
  Kind.all.any fun kind => graph.hasEdge kind source target

def hasCoincidence (graph : Graph) : Bool := graph.edges.any (·.has .coincidence)

/-- Both halves of a conditional validity pair are present. -/
def hasConditionalPairs (graph : Graph) : Bool :=
  graph.edges.any (·.has .condition) && graph.edges.any (·.has .conditionalValidity)

/-- No condition is forced to zero distance any more. -/
def clearLocal (graph : Graph) : Graph :=
  { graph with edges := graph.edges.map fun edge =>
      if edge.has .condition then { edge with isLocal := false } else edge }

/-- Enters the edge at a position into the table under a kind, and refuses a second edge of that kind
    between the same nodes. -/
def enterEdge (graph : Graph) (entry : Kind × Nat) : Checked Graph := do
  let (kind, position) := entry
  let edge ← Checked.ofOption graph.edges[position]?
  let key := (kind, edge.source, edge.target)
  if (graph.edgeTable.lookup key).any (· ≠ position) then
    let source ← graph.node edge.source
    let target ← graph.node edge.target
    throw (.internal (.duplicateEdge kind source.name target.name))
  return { graph with edgeTable := (key, position) :: graph.edgeTable }

/-- The kinds of edges with the positions of the edges, in the order in which a table is filled. -/
def tableEntries (edges : List Edge) : List (Kind × Nat) :=
  edges.zipIdx.flatMap fun (edge, position) => (Kind.all.filter edge.has).map (·, position)

/-- The graph with other edges and the table of these. -/
def withEdges (graph : Graph) (edges : List Edge) : Checked Graph :=
  (tableEntries edges).foldlM enterEdge { graph with edges := edges, edgeTable := [] }

/-! ### Components -/

/-- Records a partition of the nodes into components. -/
def assign (graph : Graph) (components : Components) : Graph :=
  let labels := components.labels
  { graph with
    nodes := graph.nodes.zipWith (fun node label => { node with component := label }) labels
    componentCount := components.count
    sorted := (List.range components.count).flatMap fun component =>
      (List.range graph.nodes.length).filter fun position => labels.getD position 0 = component }

/-- Finds the strongly connected components over validity and conditional validity. -/
def detectStrong (graph : Graph) : Graph :=
  graph.assign (Components.compute graph.nodes.length fun i j => graph.hasValidityEdge j i)

/-- Finds the weakly connected components over edges of any kind. -/
def detectWeak (graph : Graph) : Graph :=
  graph.assign (Components.compute graph.nodes.length fun i j =>
    graph.hasAnyEdge i j || graph.hasAnyEdge j i)

/-! ### Rows needed -/

/-- Recomputes the basis of every node and the number of rows needed. -/
def updateRowsNeeded (graph : Graph) : Checked Graph := do
  let nodes ← graph.nodes.mapM (·.updateBasis)
  let needed (node : Node) : Nat := node.space.dim + graph.counters.rows - node.rank
  return { graph with
    nodes := nodes
    rowsNeeded := nodes.foldl (fun most node => max most (needed node)) 0 }

/-- The node still needs independent rows for the number of rows needed to be reached. -/
def needsRow (graph : Graph) (node : Node) : Bool :=
  graph.rowsNeeded + node.rank ≤ node.space.dim + graph.counters.rows

/-! ### Text -/

def renderNode (node : Node) : Checked String := do
  return "  " ++ (← node.space.render) ++ " (scc " ++ toString node.component ++ ", rank " ++ toString node.rank
    ++ ", " ++ toString node.schedule.height ++ " rows)\n"

def renderEdge (graph : Graph) (edge : Edge) : Checked String := do
  let source ← graph.node edge.source
  let target ← graph.node edge.target
  let kinds := (Kind.all.filter edge.has).map (·.label)
  return "  " ++ source.name ++ " -> " ++ target.name ++ " [" ++ ", ".intercalate kinds ++ "]"
    ++ (if edge.isLocal then " local" else "") ++ "\n"

/-- The text of a graph: its size, its nodes and its edges. -/
def render (graph : Graph) : Checked String := do
  let nodes ← graph.nodes.mapM renderNode
  let edges ← graph.edges.mapM graph.renderEdge
  return "graph: " ++ toString graph.nodes.length ++ " nodes, " ++ toString graph.edges.length
    ++ " edges\n" ++ String.join nodes ++ String.join edges


def checkCapacity (graph : Graph) : Checked Unit :=
  if graph.counters.totalRows < graph.counters.maxRows then .ok ()
  else .error (.internal .tooManyRows)

/-- Appends one linear row per node to the current band. -/
def appendRow (graph : Graph) (rows : List (List Int)) (coincident : Bool) :
    Checked Graph := do
  graph.checkCapacity
  if rows.length ≠ graph.nodes.length then throw (.internal .rowCountMismatch)
  let append (entry : Node × List Int) : Checked Node := do
    (← entry.1.pushRow entry.2 (some graph.counters.band) coincident).updateBasis
  let nodes ← (graph.nodes.zip rows).mapM append
  return { graph with
    nodes := nodes
    counters := { graph.counters with
      rows := graph.counters.rows + 1
      totalRows := graph.counters.totalRows + 1 } }

/-- Appends a row without a linear part to the current band. -/
def appendConstantRow (graph : Graph) (value : Node → Int) :
    Checked Graph := do
  graph.checkCapacity
  let append (node : Node) : Checked Node :=
    node.pushRow (node.constantRow (value node)) (some graph.counters.band) false
  return { graph with
    nodes := ← graph.nodes.mapM append
    counters := { graph.counters with totalRows := graph.counters.totalRows + 1 } }

def nextBand (graph : Graph) : Graph :=
  { graph with counters := { graph.counters with
      bandStart := graph.counters.totalRows
      band := graph.counters.band + 1 } }

def resetBand (graph : Graph) : Checked Graph := do
  let counters := graph.counters
  if counters.totalRows < counters.bandStart then throw .overflow
  let dropped := counters.totalRows - counters.bandStart
  let nodes ← graph.nodes.mapM fun node => (node.takeRows counters.bandStart).updateBasis
  return { graph with
    nodes := nodes
    counters := { counters with
      totalRows := counters.bandStart
      rows := counters.rows - dropped } }

/-- Orders the components by a constant row and starts a new band. -/
def splitOnComponents (graph : Graph) : Checked Graph := do
  return (← graph.appendConstantRow (·.ordinal)).nextBand

/-- Adds zero rows outside any band until every node has all rows. -/
def padRows (graph : Graph) : Checked Graph := do
  let pad (node : Node) : Checked Node :=
    let missing := graph.counters.totalRows - node.schedule.height
    (List.replicate missing (List.replicate node.schedule.cols 0)).foldlM
      (fun padded row => padded.pushRow row none false) node
  return { graph with nodes := ← graph.nodes.mapM pad }

end Graph

end AffineSchedule
