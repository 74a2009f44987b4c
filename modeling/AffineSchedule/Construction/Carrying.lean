import AffineSchedule.Construction.Coefficients

namespace AffineSchedule

/-- A carrying row for every node, with the graph and the cones after the search. -/
structure CarryingRow where
  rows : List (List Int)
  /-- The row is dependent on the earlier ones for some node that still needs rows. -/
  isTrivial : Bool
  graph : Graph
  cache : ConeCache
deriving DecidableEq, Repr

def commonDenominator (values : List Rat) : Nat := values.foldl (fun common value => common.lcm value.den) 1

def scaleToIntegers (values : List Rat) : List Rat :=
  let factor : Rat := commonDenominator values
  values.map (· * factor)

/-- Requires the distance of a disjunct to be at least the column of its number. -/
def ConeProblem.addCarried (forms : List RowForms) (paramCount : Nat) (state : ConeProblem)
    (entry : (Edge × Conjunct) × Nat) : Checked ConeProblem := do
  let ((edge, disjunct), number) := entry
  let zeros := List.replicate paramCount Linear.Form.zero
  let missing ← (Linear.Form.column (3 + number)).scaled (-1)
  let (cone, cache) ← state.cache.get (ConeProblem.coneKind edge) disjunct
  let mapping ← distanceMapping forms edge missing zeros 1
  return { problem := ← cone.plugInto state.problem mapping, cache := cache }

namespace Graph

/-- The disjuncts of all validity and conditional validity edges, in order. -/
def validityDisjuncts (graph : Graph) : List (Edge × Conjunct) :=
  (graph.edges.filter (·.isAnyValidity)).flatMap fun edge =>
    edge.relation.disjuncts.map fun disjunct => (edge, disjunct)

/-- The linear problem of a carrying row, and the number of its columns before the multipliers. -/
def carryingProblem (graph : Graph) (cache : ConeCache) (options : Options) :
    Checked (Graph × ConeProblem × Nat) := do
  let disjuncts := graph.validityDisjuncts
  let count := disjuncts.length
  let (placed, columns) := graph.placeColumns (3 + count)
  let disjunctColumns := (List.range count).map (3 + ·)
  let carried ← Linear.Row.make .zero
    { terms := (0, 1) :: disjunctColumns.map (·, 1), constant := -(count : Int) }
  let sums := [carried, ← sumRow 1 placed.paramColumns, ← sumRow 2 placed.dimColumns]
  let caps ← disjunctColumns.mapM (Linear.Row.atMost · 1)
  let capped ← (← Linear.Problem.ofColumns columns false).addRows (sums ++ caps)
  let bounded ← capped.addBounds placed options false
  let forms ← placed.coefficientForms false
  let complete ← disjuncts.zipIdx.foldlM (ConeProblem.addCarried forms placed.params.length)
    { problem := bounded, cache := cache }
  return (placed, complete, columns)

def dependsOnRows (node : Node) (row : List Int) : Checked Bool := do
  let coordinates ← node.coordinates.mulVec (row.drop (1 + node.space.params))
  return (coordinates.drop node.rank).all (· = 0)

/-- The rows add nothing to the earlier ones for some node that still needs rows, tried in node order. -/
def anyTrivial (graph : Graph) : List (Node × List Int) → Checked Bool
  | [] => .ok false
  | (node, row) :: later => do
      if graph.needsRow node then
        if ← dependsOnRows node row then return true
      graph.anyTrivial later

/-- A row that carries as many dependences as possible. There is none if nothing can be carried. -/
def carryingRow (graph : Graph) (cache : ConeCache) (options : Options) :
    Checked CarryingRow := do
  let (placed, complete, columns) ← graph.carryingProblem cache options
  let objectives := (List.range columns).map fun column => [(column, 1)]
  match ← complete.problem.rationalLexmin [] objectives with
  | none => throw (.internal .carryInfeasible)
  | some point =>
      let missing ← Checked.ofOption point[0]?
      if (graph.validityDisjuncts.length : Rat) ≤ missing then throw (.unschedulable .cannotCarry)
      let rows ← placed.readRows (scaleToIntegers point) false
      let isTrivial ← placed.anyTrivial (placed.nodes.zip rows)
      return { rows := rows, isTrivial := isTrivial, graph := placed, cache := complete.cache }

end Graph

namespace Node

/-- The greatest common divisor of the non-constant coefficients of a row. -/
def rowFactor (node : Node) (position : Nat) : Checked Int := do
  Word.gcdAll ((← node.schedule.row position).drop 1)

/-- Divides a row by a factor of its non-constant coefficients, with the constant rounded down. -/
def divideRow (node : Node) (position : Nat) (factor : Int) : Checked Node := do
  let divided := match ← node.schedule.row position with
    | [] => []
    | constant :: linear => constant.fdiv factor :: linear.map (·.tdiv factor)
  updateBasis { node with schedule := ← node.schedule.replaceRow position divided }

end Node

namespace Graph

/-- Splits the common factor of the last row off its constants, if there is one. -/
def splitFactor (graph : Graph) : Checked Graph := do
  if graph.nodes.length ≤ 1 ∨ graph.counters.totalRows = 0 then return graph
  let position := graph.counters.totalRows - 1
  let join (factor : Int) (node : Node) : Checked Int := do
    Word.gcd factor (← node.rowFactor position)
  let factor ← graph.nodes.foldlM join 0
  if factor ≤ 1 then return graph
  let remainder (node : Node) : Int :=
    (((node.schedule.rows.getD position []).headD 0)).fmod factor
  let extended ← graph.nextBand.appendConstantRow remainder
  return { extended with nodes := ← extended.nodes.mapM (·.divideRow position factor) }

end Graph

end AffineSchedule
