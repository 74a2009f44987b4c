import AffineSchedule.Construction.Bands
import AffineSchedule.Dependence.Build
import AffineSchedule.Schedule

namespace AffineSchedule

/-- Statement domains and the dependences between their instances. -/
structure SchedulingProblem where
  /-- Parameter names in the order of the result; further ones are appended. -/
  params : List String := []
  domain : List Domain
  validity : List Relation := []
  coincidence : List Relation := []
  proximity : List Relation := []
  condition : List Relation := []
  conditionalValidity : List Relation := []
deriving DecidableEq, Repr

namespace SchedulingProblem

def ofKind (problem : SchedulingProblem) : Kind → List Relation
  | .validity => problem.validity
  | .coincidence => problem.coincidence
  | .condition => problem.condition
  | .conditionalValidity => problem.conditionalValidity
  | .proximity => problem.proximity

def relations (problem : SchedulingProblem) : List (Kind × List Relation) :=
  Kind.all.map fun kind => (kind, problem.ofKind kind)

def addNames (names added : List String) : List String :=
  added.foldl (fun known name => if known.contains name then known else known ++ [name]) names

/-- Every parameter name in use, the explicit ones first. -/
def allParams (problem : SchedulingProblem) : Checked (List String) := do
  let ofDomain ← problem.domain.mapM (·.space.listParams)
  let ofRelations := problem.relations.flatMap fun entry => entry.2.flatMap (·.params)
  return addNames problem.params (ofDomain.flatten ++ ofRelations)

/-- The same problem with everything over one parameter list, and one domain per statement. -/
def align (problem : SchedulingProblem) : Checked SchedulingProblem := do
  let params ← problem.allParams
  let alignAll (relations : List Relation) : Checked (List Relation) :=
    relations.mapM (·.alignParams params)
  return {
    params := params
    domain := Domain.collect (← problem.domain.mapM (·.alignParams params))
    validity := ← alignAll problem.validity
    coincidence := ← alignAll problem.coincidence
    proximity := ← alignAll problem.proximity
    condition := ← alignAll problem.condition
    conditionalValidity := ← alignAll problem.conditionalValidity }

def graph (problem : SchedulingProblem) : Checked Graph :=
  Graph.build problem.params problem.domain problem.relations

def schedule (problem : SchedulingProblem) (options : Options) : Checked Schedule := do
  let aligned ← problem.align
  if aligned.domain.isEmpty then return Schedule.empty aligned.params
  let finished ← (← aligned.graph).schedule options
  Schedule.ofGraph finished.graph

end SchedulingProblem

end AffineSchedule
