import AffineSchedule.Dependence.Graph
import AffineSchedule.Relation.Query

namespace AffineSchedule

namespace Graph

/-- The last row orders some pair of the edge backwards. -/
def isViolated (graph : Graph) (edge : Edge) : Checked Bool := do
  let source := (← graph.node edge.source).schedule
  let target := (← graph.node edge.target).schedule
  if source.height = 0 then return false
  let last := source.height - 1
  edge.relation.ordersBackwards (← source.row last) (← target.row last)

def violatedRelations (graph : Graph) : List Edge → Checked (List Relation)
  | [] => .ok []
  | edge :: later => do
      if edge.has .conditionalValidity then
        if ← graph.isViolated edge then
          return edge.taggedValidity ++ (← graph.violatedRelations later)
      graph.violatedRelations later

end Graph

/-- A condition shares an instance with a dependence: it starts where the dependence ends, or ends where
    it starts. -/
def Relation.isAdjacent (condition dependence : Relation) : Checked Bool := do
  if ← condition.domainMeetsRange dependence then return true
  condition.rangeMeetsDomain dependence

namespace Edge

def isAdjacentTo (edge : Edge) (dependences : List Relation) : Checked Bool :=
  edge.taggedCondition.anyM fun condition => dependences.anyM fun dependence =>
    condition.isAdjacent dependence

end Edge

namespace Graph

/-- The rows map the ends of every condition of the edge to equal times. -/
def satisfiesCondition (graph : Graph) (edge : Edge) : Checked Bool := do
  let source := (← graph.node edge.source).schedule
  let target := (← graph.node edge.target).schedule
  edge.taggedCondition.allM fun condition => condition.isAlwaysEqual source target

/-- Makes the conditions adjacent to violated dependences local, and tells whether one of them is not
    satisfied by the rows. -/
def localizeAdjacent (graph : Graph) (violated : List Relation) :
    List Edge → Checked (Bool × List Edge)
  | [] => .ok (false, [])
  | edge :: later => do
      if edge.has .condition && !edge.isLocal then
        if ← edge.isAdjacentTo violated then
          let satisfied ← graph.satisfiesCondition edge
          let (unsatisfied, rest) ← graph.localizeAdjacent violated later
          return (!satisfied || unsatisfied, { edge with isLocal := true } :: rest)
      let (unsatisfied, rest) ← graph.localizeAdjacent violated later
      return (unsatisfied, edge :: rest)

/-- Checks the conditional validity edges against the last row. Tells whether the band has to be redone,
    and makes the conditions adjacent to violated edges local. -/
def checkConditional (graph : Graph) : Checked (Bool × Graph) := do
  let violated ← graph.violatedRelations graph.edges
  if violated.isEmpty then return (false, graph)
  let (unsatisfied, edges) ← graph.localizeAdjacent violated graph.edges
  return (unsatisfied, { graph with edges := edges })

end Graph

end AffineSchedule
