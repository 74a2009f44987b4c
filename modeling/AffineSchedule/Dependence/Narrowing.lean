import AffineSchedule.Dependence.Graph
import AffineSchedule.Relation.Query

namespace AffineSchedule

namespace Graph

/-- The pairs of a relation that two schedules map to the same point, without empty disjuncts. -/
def narrowRelation (sourceRows targetRows : RowMatrix) (relation : Relation) :
    Checked Relation := do
  (← relation.onEqualRows sourceRows targetRows).dropEmpty

/-- Narrows several relations and drops those that become empty. -/
def narrowAll (sourceRows targetRows : RowMatrix) (relations : List Relation) :
    Checked (List Relation) := do
  let narrowed ← relations.mapM (narrowRelation sourceRows targetRows)
  return narrowed.filter fun relation => !relation.disjuncts.isEmpty

/-- Narrows an edge, its tagged relations included. -/
def narrowEdge (graph : Graph) (edge : Edge) : Checked Edge := do
  let source := (← graph.node edge.source).schedule
  let target := (← graph.node edge.target).schedule
  return { edge with
    relation := ← narrowRelation source target edge.relation
    taggedCondition := ← narrowAll source target edge.taggedCondition
    taggedValidity := ← narrowAll source target edge.taggedValidity }

def narrowEdges (graph : Graph) : Checked Graph := do
  let narrowed ← graph.edges.mapM graph.narrowEdge
  graph.withEdges (narrowed.filter fun edge => !edge.relation.disjuncts.isEmpty)

end Graph

end AffineSchedule
