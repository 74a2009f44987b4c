import AffineSchedule.RowMatrix.Hermite
import AffineSchedule.Space

namespace AffineSchedule

/-- A statement with its schedule rows. -/
structure Node where
  space : Space
  schedule : RowMatrix
  rank : Nat
  /-- A row with coordinates `t` has the coefficients `basis * t`. -/
  basis : RowMatrix
  coordinates : RowMatrix
  /-- The first column of the node in the current linear problem. -/
  firstColumn : Nat
  /-- The component of the node from the last detection. -/
  component : Nat
  /-- The band of every row; padding has none. -/
  bands : List (Option Nat)
  /-- An identifier for every band number. -/
  bandIds : List Nat
  coincident : List Bool
deriving DecidableEq, Repr, Inhabited

namespace Node

def ofSpace (space : Space) : Checked Node := do
  let width ← Size.checked (1 + space.params + space.dim)
  Size.reserve width
  return {
    space := space
    schedule := RowMatrix.zeros 0 width
    rank := 0
    basis := RowMatrix.identity space.dim
    coordinates := RowMatrix.identity space.dim
    firstColumn := 0
    component := 0
    bands := []
    bandIds := []
    coincident := [] }

def name (node : Node) : String := node.space.name

/-! ### Columns in a linear problem

A node takes one column for the constant of its row, then a negative and a positive part for every
parameter, then the same for every dimension, from the last dimension to the first. -/

def columnCount (node : Node) : Nat := 1 + 2 * node.space.params + 2 * node.space.dim

/-- The columns of a negative and a positive part, counted by pairs. -/
def pairAt (node : Node) (index : Nat) : Nat × Nat :=
  let negative := node.firstColumn + 1 + 2 * index
  (negative, negative + 1)

/-- The parts of all parameter coefficients, in order. -/
def paramPairs (node : Node) : List (Nat × Nat) :=
  (List.range node.space.params).map node.pairAt

/-- The parts of all dimension coordinates, in order. -/
def dimPairs (node : Node) : List (Nat × Nat) :=
  (List.range node.space.dim).map fun position =>
    node.pairAt (node.space.params + (node.space.dim - 1 - position))

def wordPair (node : Node) (index : Nat) : Checked (Nat × Nat) := do
  let positive ← Size.checked (node.pairAt index).2
  return ((node.pairAt index).1, positive)

/-- The negative and the positive part of a parameter coefficient. -/
def paramPair (node : Node) (position : Nat) : Checked (Nat × Nat) := node.wordPair position

/-- The negative and the positive part of a dimension coordinate, which must exist. -/
def dimPair (node : Node) (position : Nat) : Checked (Nat × Nat) :=
  if position < node.space.dim then
    node.wordPair (node.space.params + (node.space.dim - 1 - position))
  else .error .overflow

/-! ### Rows -/

/-- Recomputes the rank and the basis from the linear part of the rows. -/
def updateBasis (node : Node) : Checked Node := do
  let linear ← node.schedule.columnBlock (1 + node.space.params) node.space.dim
  let hermite ← linear.hermite
  return { node with
    rank := hermite.rank
    basis := hermite.inverse.transpose
    coordinates := hermite.transform.transpose }

/-- Appends a row with its band and coincidence flag. -/
def pushRow (node : Node) (row : List Int) (band : Option Nat) (coincident : Bool) :
    Checked Node := do
  return { node with
    schedule := ← node.schedule.pushRow row
    bands := node.bands ++ [band]
    coincident := node.coincident ++ [coincident] }

def takeRows (node : Node) (count : Nat) : Node :=
  { node with
    schedule := node.schedule.takeRows count
    bands := node.bands.take count
    coincident := node.coincident.take count }

def constantRow (node : Node) (value : Int) : List Int :=
  value :: List.replicate (node.space.params + node.space.dim) 0

/-- Changes the identifier of a band; bands without one so far have the identifier zero. -/
def updateBandId (node : Node) (band : Nat) (change : Nat → Checked Nat) :
    Checked Node := do
  let size ← Size.add band 1
  Size.reserve size
  let ids := node.bandIds ++ List.replicate (size - node.bandIds.length) 0
  return { node with bandIds := ids.set band (← change (ids.getD band 0)) }

/-- The constant that orders the node by its component. -/
def ordinal (node : Node) : Int := Word.wrap node.component

end Node

end AffineSchedule
