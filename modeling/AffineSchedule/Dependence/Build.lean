import AffineSchedule.Dependence.Graph
import AffineSchedule.Relation.Query

namespace AffineSchedule

/-- The relations of one kind between two nodes. -/
structure RelationGroup where
  source : Nat
  target : Nat
  /-- The union of the relations without their tags. -/
  relation : Relation
  /-- The relations with tags, for the kinds that keep them. -/
  tagged : List Relation
deriving DecidableEq, Repr

namespace RelationGroup

/-- Adds a group to a list with at most one group per pair of nodes. -/
def insert (group : RelationGroup) : List RelationGroup → List RelationGroup
  | [] => [group]
  | first :: later =>
      if first.source = group.source ∧ first.target = group.target then
        { first with
          relation := { first.relation with
            disjuncts := first.relation.disjuncts ++ group.relation.disjuncts }
          tagged := first.tagged ++ group.tagged } :: later
      else first :: insert group later

end RelationGroup

namespace Graph

/-- A graph with one node per domain and no edges. -/
def ofDomains (params : List String) (domains : List Domain) : Checked Graph := do
  Size.reserve domains.length
  let nodes ← domains.mapM fun domain => Node.ofSpace domain.space
  let rowsNeeded := nodes.foldl (fun most node => max most node.space.dim) 0
  return {
    params := params
    nodes := nodes
    edges := []
    edgeTable := []
    sorted := List.range nodes.length
    rowsNeeded := rowsNeeded
    componentCount := 0
    conflict := none
    counters := {
      rows := 0, totalRows := 0, band := 0, bandStart := 0
      maxRows := nodes.length + 2 * rowsNeeded } }

def keepsTags (kind : Kind) : Bool :=
  kind = .condition || kind = .conditionalValidity

/-- The group of a single relation, or nothing if a statement of it is outside the domain. -/
def groupOf (graph : Graph) (kind : Kind) (relation : Relation) :
    Checked (Option RelationGroup) := do
  relation.validate
  match graph.findNode? relation.source.name, graph.findNode? relation.target.name with
  | some source, some target =>
      let sourceNode ← graph.node source
      let targetNode ← graph.node target
      if relation.source.dim ≠ sourceNode.space.dim ∨ relation.target.dim ≠ targetNode.space.dim then
        throw (.input (.domainMismatch kind relation.source relation.target))
      let untagged ← relation.untag
      let tagged :=
        if !keepsTags kind then []
        else if relation.isFullyTagged then [relation]
        else [untagged.withDummyTags]
      return some { source := source, target := target, relation := untagged, tagged := tagged }
  | _, _ => return none

/-- The groups of the relations of one kind, in order of first appearance. -/
def groupRelations (graph : Graph) (kind : Kind)
    (relations : List Relation) : Checked (List RelationGroup) := do
  let groups ← relations.mapM (graph.groupOf kind)
  return (groups.filterMap id).foldl (fun collected group => group.insert collected) []

/-- Adds a kind to the first edge with the same ends and the same relation, or a new edge. -/
def addKind (kind : Kind) (group : RelationGroup) :
    List Edge → List Edge
  | [] =>
      let fresh := Edge.ofRelation group.source group.target group.relation
      [(fresh.withKind kind).withTagged kind group.tagged]
  | edge :: later =>
      if edge.joins group.source group.target && edge.relation = group.relation then
        (edge.withKind kind).withTagged kind group.tagged :: later
      else edge :: addKind kind group later

/-- The position of the edge that takes the kind of a group. -/
def positionOf (group : RelationGroup) (edges : List Edge) : Nat :=
  edges.findIdx fun edge => edge.joins group.source group.target && edge.relation = group.relation

/-- Adds the edge of a group, without the empty disjuncts of its relation, and enters it into the table. -/
def addGroup (kind : Kind) (graph : Graph) (group : RelationGroup) :
    Checked Graph := do
  let relation ← group.relation.dropEmpty
  if relation.disjuncts.isEmpty then return graph
  let group := { group with relation := relation }
  { graph with edges := addKind kind group graph.edges }.enterEdge (kind, positionOf group graph.edges)

def addRelations (graph : Graph) (entry : Kind × List Relation) :
    Checked Graph := do
  (← graph.groupRelations entry.1 entry.2).foldlM (addGroup entry.1) graph

/-- The graph of domains and relations over a common parameter list, the relations given kind by kind. -/
def build (params : List String) (domains : List Domain)
    (relations : List (Kind × List Relation)) : Checked Graph := do
  relations.foldlM addRelations (← ofDomains params domains)

end Graph

end AffineSchedule
