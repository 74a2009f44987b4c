import AffineSchedule.Dependence.Graph

namespace AffineSchedule

/-- Selects the nodes and edges of a part by component. -/
inductive ComponentFilter where
  /-- Nodes of one component, and the edges inside it. -/
  | exactly (component : Nat)
  /-- Nodes of components up to one, and the edges that end there. -/
  | atMost (component : Nat)
  /-- Nodes of components from one on, and the edges that start there. -/
  | atLeast (component : Nat)
deriving DecidableEq, Repr

namespace ComponentFilter

def keepsNode (filter : ComponentFilter) (component : Nat) : Bool :=
  match filter with
  | exactly limit => component = limit
  | atMost limit => component ≤ limit
  | atLeast limit => limit ≤ component

def keepsEdge (filter : ComponentFilter) (source target : Nat) : Bool :=
  match filter with
  | exactly limit => source = limit && target = limit
  | atMost limit => target ≤ limit
  | atLeast limit => limit ≤ source

end ComponentFilter

namespace Graph

/-- The new position of a node among the selected ones, if it is one of them. -/
def newPosition (graph : Graph) (filter : ComponentFilter) (position : Nat) : Option Nat :=
  let selected := (graph.nodes.take position).filter fun node => filter.keepsNode node.component
  match graph.nodes[position]? with
  | none => none
  | some node => if filter.keepsNode node.component then some selected.length else none

/-- The edge between the new positions of its ends, or nothing if it is not selected. A selected edge
    that leaves the part is dropped, unless it is a validity edge, which would point backwards. -/
def extractEdge (graph : Graph) (filter : ComponentFilter) (edge : Edge) :
    Checked (Option Edge) := do
  let source ← graph.node edge.source
  let target ← graph.node edge.target
  if !filter.keepsEdge source.component target.component then return none
  match graph.newPosition filter edge.source, graph.newPosition filter edge.target with
  | some newSource, some newTarget =>
      return some { edge with source := newSource, target := newTarget }
  | _, _ => if edge.isAnyValidity then throw (.internal .backwardValidityEdge) else return none

/-- The selected part of a graph, with the counters of the whole. -/
def extract (graph : Graph) (filter : ComponentFilter) : Checked Graph := do
  let nodes := graph.nodes.filter fun node => filter.keepsNode node.component
  let edges ← graph.edges.mapM (graph.extractEdge filter)
  let part : Graph := { graph with
    nodes := nodes
    edges := []
    sorted := List.range nodes.length
    componentCount := 0
    conflict := none }
  part.withEdges (edges.filterMap id)

/-- Replaces the rows of the selected nodes, in order, by those of the nodes of a part. -/
def restoreNodes (filter : ComponentFilter) : List Node → List Node → List Node
  | [], _ => []
  | node :: later, [] => node :: restoreNodes filter later []
  | node :: later, found :: rest =>
      if filter.keepsNode node.component then
        { node with
          schedule := found.schedule
          rank := found.rank
          basis := found.basis
          coordinates := found.coordinates
          bands := found.bands
          bandIds := found.bandIds
          coincident := found.coincident } :: restoreNodes filter later rest
      else node :: restoreNodes filter later (found :: rest)

/-- Brings the rows of a part back into the graph it was selected from. -/
def restore (graph part : Graph) (filter : ComponentFilter) : Graph :=
  { graph with nodes := restoreNodes filter graph.nodes part.nodes }

end Graph

end AffineSchedule
