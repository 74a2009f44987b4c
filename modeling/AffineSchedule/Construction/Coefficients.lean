import AffineSchedule.Dependence.Graph
import AffineSchedule.Farkas
import AffineSchedule.Options

namespace AffineSchedule

structure RowForms where
  constant : Linear.Form
  params : List Linear.Form
  dims : List Linear.Form
deriving DecidableEq, Repr

namespace RowForms

def ofPair (pair : Nat × Nat) : Linear.Form := Linear.Form.difference pair.2 pair.1

/-- The coefficients of a node. Through the basis, the columns hold coordinates of the dimension
    coefficients instead of the coefficients themselves. -/
def ofNode (node : Node) (useBasis : Bool) : Checked RowForms := do
  let coordinates := node.dimPairs.map ofPair
  let throughBasis (row : List Int) : Checked Linear.Form := do
    (← Linear.Form.combination (coordinates.zip row)).compact
  return {
    constant := Linear.Form.column node.firstColumn
    params := node.paramPairs.map ofPair
    dims := ← if useBasis then node.basis.rows.mapM throughBasis else pure coordinates }

end RowForms

namespace Graph

def coefficientForms (graph : Graph) (useBasis : Bool) : Checked (List RowForms) :=
  graph.nodes.mapM (RowForms.ofNode · useBasis)

/-- Gives the nodes at the listed positions their columns from `first` on, and tells the first column
    after them. -/
def placeNodes (first : Nat) (nodes : List Node) : List Nat → List Node × Nat
  | [] => (nodes, first)
  | position :: later =>
      match nodes[position]? with
      | none => placeNodes first nodes later
      | some node =>
          placeNodes (first + node.columnCount) (nodes.set position { node with firstColumn := first }) later

/-- Gives every node its columns from `first` on, in component order, and tells the first column after
    them. -/
def placeColumns (graph : Graph) (first : Nat) : Graph × Nat :=
  let (nodes, after) := placeNodes first graph.nodes graph.sorted
  ({ graph with nodes := nodes }, after)

def paramColumns (graph : Graph) : List Nat :=
  graph.nodes.flatMap fun node => node.paramPairs.flatMap fun pair => [pair.1, pair.2]

def dimColumns (graph : Graph) : List Nat :=
  graph.nodes.flatMap fun node => node.dimPairs.flatMap fun pair => [pair.1, pair.2]

end Graph

def sumRow (sum : Nat) (columns : List Nat) : Checked Linear.Row :=
  Linear.Row.make .zero { terms := (sum, 1) :: columns.map (·, -1), constant := 0 }

/-! ### Distances

The distance of a pair of instances is the row value of the target minus that of the source. -/

/-- The coefficients of `constant + params + scale * distance` inside one statement, where constants and
    parameters cancel. -/
def intraMapping (forms : RowForms) (constant : Linear.Form) (params : List Linear.Form)
    (scale : Int) : Checked (List Linear.Form) := do
  return constant :: params ++ (← forms.dims.mapM (·.scaled scale))

/-- The coefficients of `constant + params + scale * distance` between two statements. -/
def interMapping (source target : RowForms) (constant : Linear.Form)
    (params : List Linear.Form) (scale : Int) : Checked (List Linear.Form) := do
  let first ← (← constant.addScaled target.constant scale).addScaled source.constant (-scale)
  let paramForm (entry : Linear.Form × Nat) : Checked Linear.Form := do
    let targetPart ← Checked.ofOption target.params[entry.2]?
    let reached ← entry.1.addScaled targetPart scale
    let sourcePart ← Checked.ofOption source.params[entry.2]?
    reached.addScaled sourcePart (-scale)
  let middle ← params.zipIdx.mapM paramForm
  let sourceDims ← source.dims.mapM (·.scaled (-scale))
  let targetDims ← target.dims.mapM (·.scaled scale)
  return first :: middle ++ sourceDims ++ targetDims

/-- The coefficients of `constant + params + scale * distance` of an edge. -/
def distanceMapping (forms : List RowForms) (edge : Edge) (constant : Linear.Form)
    (params : List Linear.Form) (scale : Int) : Checked (List Linear.Form) := do
  let source ← Checked.ofOption forms[edge.source]?
  if edge.isIntra then intraMapping source constant params scale
  else
    let target ← Checked.ofOption forms[edge.target]?
    interMapping source target constant params scale

/-! ### Problems over coefficient cones -/

/-- A linear problem under construction, with the cones computed so far. -/
structure ConeProblem where
  problem : Linear.Problem
  cache : ConeCache
deriving DecidableEq, Repr

namespace ConeProblem

def coneKind (edge : Edge) : ConeKind := if edge.isIntra then .distance else .paired

def addDisjunct (state : ConeProblem) (edge : Edge) (mapping : List Linear.Form)
    (disjunct : Conjunct) : Checked ConeProblem := do
  let (cone, cache) ← state.cache.get (coneKind edge) disjunct
  return { problem := ← cone.plugInto state.problem mapping, cache := cache }

/-- Requires the mapped form to be non-negative on every pair of an edge. -/
def addEdge (state : ConeProblem) (edge : Edge) (mapping : List Linear.Form) :
    Checked ConeProblem :=
  edge.relation.disjuncts.foldlM (fun grown disjunct => grown.addDisjunct edge mapping disjunct) state

end ConeProblem

def boundRows (node : Node) (options : Options) (useBasis : Bool) :
    Checked (List Linear.Row) := do
  let constantRows ← match options.maxConstantTerm with
    | none => pure []
    | some bound => do pure [← Linear.Row.atMost node.firstColumn bound]
  let coefficientRows ← match options.maxCoefficient with
    | none => pure []
    | some bound => do
        let pairRows (pair : Nat × Nat) : Checked (List Linear.Row) := do
          return [← Linear.Row.atMost pair.1 bound, ← Linear.Row.atMost pair.2 bound]
        let formRows (form : Linear.Form) : Checked (List Linear.Row) := do
          let negated ← form.scaled (-1)
          let upper ← Linear.Row.make .nonnegative
            { negated with constant := ← Word.add negated.constant bound }
          let lower ← Linear.Row.make .nonnegative { form with constant := ← Word.add form.constant bound }
          return [upper, lower]
        let paramRows ← node.paramPairs.mapM pairRows
        let dimRows ← (← RowForms.ofNode node useBasis).dims.mapM formRows
        pure (paramRows.flatten ++ dimRows.flatten)
  return constantRows ++ coefficientRows

def Linear.Problem.addBounds (problem : Linear.Problem) (graph : Graph)
    (options : Options) (useBasis : Bool) : Checked Linear.Problem :=
  graph.nodes.foldlM
    (fun bounded node => do bounded.addRows (← boundRows node options useBasis)) problem

/-! ### Reading a solution -/

def integralWord (value : Rat) : Checked Int :=
  if value.den ≠ 1 then .error (.internal (.fractionalCoefficient value))
  else if Word.Fits value.num then .ok value.num
  else .error (.solver .coefficientOverflow)

def pairValue (point : Linear.Point) (pair : Nat × Nat) : Checked Int := do
  let positive ← Checked.ofOption point[pair.2]?
  let negative ← Checked.ofOption point[pair.1]?
  integralWord (positive - negative)

def Node.readRow (node : Node) (point : Linear.Point) (useBasis : Bool) :
    Checked (List Int) := do
  let constant ← integralWord (← Checked.ofOption point[node.firstColumn]?)
  let params ← node.paramPairs.mapM (pairValue point)
  let coordinates ← node.dimPairs.mapM (pairValue point)
  let dims ← if useBasis then node.basis.mulVec coordinates else pure coordinates
  return constant :: params ++ dims

/-- The rows of all nodes at a solution, in node order. -/
def Graph.readRows (graph : Graph) (point : Linear.Point) (useBasis : Bool) :
    Checked (List (List Int)) :=
  graph.nodes.mapM (·.readRow point useBasis)

end AffineSchedule
