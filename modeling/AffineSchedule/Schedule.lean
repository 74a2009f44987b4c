import AffineSchedule.Dependence.Graph

namespace AffineSchedule

/-- An affine map from a statement space, one expression per time dimension. -/
structure TimeMap where
  space : Space
  outputs : List AffineForm
deriving DecidableEq, Repr, Inhabited

namespace TimeMap

def ofMatrix (space : Space) (matrix : RowMatrix) : Checked TimeMap := do
  return { space := space, outputs := ← matrix.rows.mapM (AffineForm.ofRow · space.params) }

def apply (map : TimeMap) (point params : List Int) : Checked (List Int) :=
  map.outputs.mapM (·.evaluate point params)

/-- The outputs from `start` to before `stop`. -/
def slice (map : TimeMap) (start stop : Nat) : Checked TimeMap := do
  Checked.require (start ≤ stop ∧ stop ≤ map.outputs.length)
  return { map with outputs := (map.outputs.take stop).drop start }

def append (map later : TimeMap) : TimeMap :=
  { map with outputs := map.outputs ++ later.outputs }

/-- The map with zero outputs added up to `size` outputs. -/
def padded (map : TimeMap) (size : Nat) : Checked TimeMap := do
  if size ≤ map.outputs.length then return map
  let zero ← Size.makeWith AffineForm.zero map.space.dim map.space.params
  Size.reserve size
  return { map with outputs := map.outputs ++ List.replicate (size - map.outputs.length) zero }

def render (map : TimeMap) : Checked String := do
  let space ← map.space.render
  let outputs := map.outputs.map (·.renderWith map.space.dimLabels map.space.paramLabels)
  return "\x7b " ++ space ++ " -> [" ++ ", ".intercalate outputs ++ "] \x7d"

end TimeMap

/-- The rows and bands of one statement. -/
structure StatementSchedule where
  space : Space
  map : TimeMap
  bandEnds : List Nat
  /-- The identifier of every band; statements that share a band share its identifier. -/
  bandIds : List Nat
  coincident : List Bool
deriving DecidableEq, Repr, Inhabited

/-- A run of rows with one band label. -/
structure BandRun where
  label : Nat
  stop : Nat
deriving DecidableEq, Repr

namespace BandRun

/-- The runs of equal labels before the first row without a band, with the rows counted from `row`. -/
def ofLabels (row : Nat) : List (Option Nat) → List BandRun
  | [] => []
  | none :: _ => []
  | some label :: later =>
      match ofLabels (row + 1) later with
      | [] => [{ label := label, stop := row + 1 }]
      | next :: runs =>
          if next.label = label then next :: runs
          else { label := label, stop := row + 1 } :: next :: runs

end BandRun

namespace StatementSchedule

def ofNode (node : Node) : Checked StatementSchedule := do
  let runs := BandRun.ofLabels 0 node.bands
  return {
    space := node.space
    map := ← TimeMap.ofMatrix node.space node.schedule
    bandEnds := runs.map (·.stop)
    bandIds := runs.map fun run => node.bandIds.getD run.label 0
    coincident := node.coincident }

def name (statement : StatementSchedule) : String := statement.space.name

def bandCount (statement : StatementSchedule) : Nat := statement.bandEnds.length

def bandStart (statement : StatementSchedule) (level : Nat) : Nat :=
  if level = 0 then 0 else statement.bandEnds.getD (level - 1) 0

def bandStop (statement : StatementSchedule) (level : Nat) : Nat := statement.bandEnds.getD level 0

end StatementSchedule

/-- A schedule for every statement. -/
structure Schedule where
  params : List String
  statements : List StatementSchedule
  bandCount : Nat
  totalRows : Nat
deriving DecidableEq, Repr

namespace Schedule

def ofStatements (params : List String) (totalRows : Nat) (statements : List StatementSchedule) : Schedule :=
  { params := params
    statements := statements
    bandCount := statements.foldl (fun most statement => max most statement.bandCount) 0
    totalRows := totalRows }

def empty (params : List String) : Schedule := ofStatements params 0 []

def ofGraph (graph : Graph) : Checked Schedule := do
  return ofStatements graph.params graph.counters.totalRows
    (← graph.nodes.mapM StatementSchedule.ofNode)

def statement? (schedule : Schedule) (name : String) : Option StatementSchedule :=
  schedule.statements.find? (·.name = name)

/-- The maps of all statements, padded to the common number of rows. -/
def paddedMaps (schedule : Schedule) : Checked (List TimeMap) :=
  schedule.statements.mapM (·.map.padded schedule.totalRows)

/-- The text of a schedule: the parameters, if there are any, then one map per line. -/
def render (schedule : Schedule) : Checked String := do
  let params := if schedule.params.isEmpty then "" else "[" ++ ", ".intercalate schedule.params ++ "] ->\n"
  let maps ← (← schedule.paddedMaps).mapM (·.render)
  return params ++ String.join (maps.map (· ++ "\n"))

end Schedule

end AffineSchedule
