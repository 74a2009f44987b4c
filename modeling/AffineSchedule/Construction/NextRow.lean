import AffineSchedule.Construction.Coefficients
import AffineSchedule.Linear.Region

namespace AffineSchedule

/-- The rows found, one per node, with the graph and the cones after the search. -/
structure RowSearch where
  rows : Option (List (List Int))
  graph : Graph
  cache : ConeCache
deriving DecidableEq, Repr

/-- A common bound on distances, as forms for its constant and its parameter coefficients. -/
structure DistanceBound where
  constant : Linear.Form
  params : List Linear.Form
deriving DecidableEq, Repr

namespace DistanceBound

def zero (paramCount : Nat) : DistanceBound :=
  { constant := Linear.Form.zero, params := List.replicate paramCount Linear.Form.zero }

/-- The bound whose constant is column 1 and whose parameter coefficients start at column 4. -/
def inColumns (paramCount : Nat) : DistanceBound :=
  { constant := Linear.Form.column 1
    params := (List.range paramCount).map fun position =>
      RowForms.ofPair (4 + 2 * position, 5 + 2 * position) }

end DistanceBound

/-! ### Dependences that must not run backwards -/

/-- The next row has to keep the distance of the edge non-negative. -/
def Edge.mustRunForward (edge : Edge) (useCoincidence : Bool) : Bool :=
  edge.has .validity || edge.forcesZero useCoincidence

def ConeProblem.addForward (forms : List RowForms) (paramCount : Nat) (state : ConeProblem)
    (edge : Edge) : Checked ConeProblem := do
  let zeros := List.replicate paramCount Linear.Form.zero
  state.addEdge edge (← distanceMapping forms edge Linear.Form.zero zeros 1)

/-- Requires a non-negative distance for every edge between two statements that must run forward, and
    notes which rows belong to which edge. -/
def addForwardInter (forms : List RowForms) (useCoincidence : Bool) :
    List Edge → ConeProblem → Checked (List Edge × ConeProblem)
  | [], state => .ok ([], state)
  | edge :: later, state => do
      if edge.isIntra || !edge.mustRunForward useCoincidence then
        let (rest, final) ← addForwardInter forms useCoincidence later state
        return (edge :: rest, final)
      let source ← Checked.ofOption forms[edge.source]?
      let grown ← state.addForward forms source.params.length edge
      let noted := { edge with
        firstRow := state.problem.rows.length
        endRow := grown.problem.rows.length }
      let (rest, final) ← addForwardInter forms useCoincidence later grown
      return (noted :: rest, final)

/-- Adds the rows of all edges that must run forward, those inside a statement first. -/
def Graph.addForward (graph : Graph) (useCoincidence : Bool) (state : ConeProblem) :
    Checked (Graph × ConeProblem) := do
  let forms ← graph.coefficientForms true
  let intra := graph.edges.filter fun edge => edge.isIntra && edge.mustRunForward useCoincidence
  let inside ← intra.foldlM (ConeProblem.addForward forms graph.params.length) state
  let (edges, final) ← addForwardInter forms useCoincidence graph.edges inside
  return ({ graph with edges := edges }, final)

/-! ### Dependences with a bounded distance -/

/-- Bounds the distance of an edge from above, and from below unless the edge runs forward anyway. A
    distance forced to zero has the bound zero; if only coincidence forces it, it is not bounded from
    below here. -/
def ConeProblem.addBounded (forms : List RowForms) (paramCount : Nat) (useCoincidence : Bool)
    (state : ConeProblem) (edge : Edge) : Checked ConeProblem := do
  let forced := edge.forcesZero useCoincidence
  if !edge.has .proximity && !forced then return state
  let bound := if forced then DistanceBound.zero paramCount else DistanceBound.inColumns paramCount
  let fromBelow := !edge.has .validity && (!forced || edge.isLocal)
  let scales : List Int := if fromBelow then [-1, 1] else [-1]
  let add (grown : ConeProblem) (scale : Int) : Checked ConeProblem := do
    grown.addEdge edge (← distanceMapping forms edge bound.constant bound.params scale)
  scales.foldlM add state

def Graph.addBounded (graph : Graph) (useCoincidence : Bool) (state : ConeProblem) :
    Checked ConeProblem := do
  let forms ← graph.coefficientForms true
  graph.edges.foldlM (ConeProblem.addBounded forms graph.params.length useCoincidence) state

/-! ### The search -/

namespace Graph

/-- The regions in which a row is independent of the earlier ones, for the nodes that need rows. -/
def independenceRegions (graph : Graph) : List Linear.Region :=
  let region (node : Node) : Linear.Region :=
    { pairs := (node.dimPairs.drop node.rank).reverse }
  ((graph.sorted.filterMap (graph.nodes[·]?)).filter graph.needsRow).map region

/-- The components joined by the validity edge between statements that owns a row, source first. -/
def conflictAt (graph : Graph) (row : Nat) : Option (Nat × Nat) :=
  let owns (edge : Edge) : Bool :=
    edge.has .validity && !edge.isIntra && edge.firstRow ≤ row && row < edge.endRow
  let components (edge : Edge) : Option (Nat × Nat) := do
    let source ← graph.nodes[edge.source]?
    let target ← graph.nodes[edge.target]?
    if source.component = target.component then none
    else some (source.component, target.component)
  (graph.edges.filter owns).findSome? components

/-- The linear problem of the next row, and the number of its integer columns. -/
def rowProblem (graph : Graph) (cache : ConeCache) (options : Options)
    (useCoincidence : Bool) : Checked (Graph × ConeProblem × Nat) := do
  let paramCount := graph.params.length
  let (placed, columns) := graph.placeColumns (4 + 2 * paramCount)
  let boundColumns := (List.range (2 * paramCount)).map (4 + ·)
  let sums := [← sumRow 0 boundColumns, ← sumRow 2 placed.paramColumns, ← sumRow 3 placed.dimColumns]
  let summed ← (← Linear.Problem.ofColumns columns true).addRows sums
  let bounded ← summed.addBounds placed options true
  let (noted, forward) ← placed.addForward useCoincidence { problem := bounded, cache := cache }
  let complete ← noted.addBounded useCoincidence forward
  return (noted, complete, columns)

/-- Searches for the next row of the current band. -/
def nextRow (graph : Graph) (cache : ConeCache) (options : Options)
    (useCoincidence : Bool) : Checked RowSearch := do
  let (noted, complete, columns) ← graph.rowProblem cache options useCoincidence
  let objectives := (List.range columns).map fun column => [(column, 1)]
  let outcome ← complete.problem.nonTrivialLexmin objectives noted.independenceRegions options.branchNodeLimit
  match outcome.solution with
  | some point =>
      return { rows := some (← noted.readRows point true), graph := noted, cache := complete.cache }
  | none =>
      let conflict := outcome.conflictRow.bind noted.conflictAt
      return { rows := none, graph := { noted with conflict := conflict }, cache := complete.cache }

end Graph

end AffineSchedule
