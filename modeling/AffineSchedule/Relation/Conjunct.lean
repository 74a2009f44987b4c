import AffineSchedule.Polyhedron

namespace AffineSchedule

/-- Statement dimensions plus tag dimensions, as a machine word. -/
def Tuple.columns (tuple : Tuple) : Checked Nat := Size.checked tuple.totalDim

/-- A conjunction of constraints relating source and target points. -/
structure Conjunct where
  /-- Source columns, tag dimensions included. -/
  inputs : Nat
  /-- Target columns, tag dimensions included. -/
  outputs : Nat
  /-- Existentially quantified columns. -/
  locals : Nat
  system : Polyhedron
deriving DecidableEq, Repr

namespace Conjunct

def unconstrained (inputs outputs params : Nat) : Checked Conjunct := do
  let columns ← Size.add inputs outputs
  return {
    inputs := inputs
    outputs := outputs
    locals := 0
    system := Polyhedron.unconstrained columns params }

def columns (conjunct : Conjunct) : Nat := conjunct.inputs + conjunct.outputs + conjunct.locals

/-- The number of columns as a machine word. -/
def width (conjunct : Conjunct) : Checked Nat := Size.checked conjunct.columns

def params (conjunct : Conjunct) : Nat := conjunct.system.params

def add (conjunct : Conjunct) (constraint : Constraint) : Checked Conjunct := do
  return { conjunct with system := ← conjunct.system.add constraint }

def offset (conjunct : Conjunct) : Side → Nat
  | .source => 0
  | .target => conjunct.inputs

def sideColumns (conjunct : Conjunct) : Side → Nat
  | .source => conjunct.inputs
  | .target => conjunct.outputs

def column (conjunct : Conjunct) (side : Side) (position : Nat) : Checked AffineForm := do
  let index ← Size.add (conjunct.offset side) position
  Size.makeWith (AffineForm.dimension index) (← conjunct.width) conjunct.params

def parameter (conjunct : Conjunct) (position : Nat) : Checked AffineForm := do
  Size.makeWith (AffineForm.parameter position) (← conjunct.width) conjunct.params

def constantly (conjunct : Conjunct) (value : Int) : Checked AffineForm := do
  Size.makeWith (AffineForm.constantly value) (← conjunct.width) conjunct.params

def restrict (conjunct : Conjunct) (side : Side) (domain : Domain) : Checked Conjunct := do
  let width ← conjunct.width
  let addMoved (restricted : Conjunct) (constraint : Constraint) : Checked Conjunct := do
    let form ← constraint.form.embed width (conjunct.offset side)
    restricted.add { constraint with form }
  domain.region.constraints.foldlM addMoved conjunct

/-- A schedule row, laid out as constant, parameters, dimensions, on the statement dimensions of a
    side. -/
def rowForm (conjunct : Conjunct) (row : List Int) (side : Side) : Checked AffineForm := do
  let form ← AffineForm.ofRow row conjunct.params
  form.embed (← conjunct.width) (conjunct.offset side)

def rowDistance (conjunct : Conjunct) (sourceRow targetRow : List Int) : Checked AffineForm := do
  let target ← conjunct.rowForm targetRow .target
  let source ← conjunct.rowForm sourceRow .source
  target.sub source

/-- The new column of every column once the tags have become locals: the statement dimensions come first,
    then the source tag, the target tag and the old locals. -/
def untaggedPositions (source target : Tuple) (locals : Nat) : Checked (List Nat) := do
  let block (start count : Nat) : Checked (List Nat) := do
    Size.reserve count
    Size.consecutive start count
  let paired := source.dim + target.dim
  let sourceDims ← block 0 source.dim
  let sourceTag ← block paired source.tagDim
  let targetDims ← block source.dim target.dim
  let targetTag ← block (paired + source.tagDim) target.tagDim
  let oldLocals ← block (paired + source.tagDim + target.tagDim) locals
  return sourceDims ++ sourceTag ++ targetDims ++ targetTag ++ oldLocals

/-- Moves the tag columns into the locals. -/
def untag (conjunct : Conjunct) (source target : Tuple) : Checked Conjunct := do
  let _ ← source.columns
  let _ ← target.columns
  let locals ← Size.checked (source.tagDim + target.tagDim + conjunct.locals)
  Size.reserve (← conjunct.width)
  let positions ← untaggedPositions source target conjunct.locals
  let columns ← Size.checked (source.dim + target.dim + locals)
  return {
    inputs := source.dim
    outputs := target.dim
    locals := locals
    system := ← conjunct.system.relayout columns positions }

/-- The conjunct has the column counts of its endpoints, and its constraints have its layout. -/
def validate (conjunct : Conjunct) (source target : Tuple) (params : Nat) : Checked Unit := do
  let misfit : Fault := .input (.disjunctShape source target conjunct.inputs conjunct.outputs)
  if conjunct.inputs ≠ (← source.columns) then throw misfit
  if conjunct.outputs ≠ (← target.columns) then throw misfit
  if conjunct.system.dim = (← conjunct.width) ∧ conjunct.system.params = params
      ∧ ∀ constraint ∈ conjunct.system.constraints,
          constraint.HasLayout conjunct.system.dim conjunct.system.params then
    return ()
  else throw (.input (.constraintLayout source target))

end Conjunct

end AffineSchedule
