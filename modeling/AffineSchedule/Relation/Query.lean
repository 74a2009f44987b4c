import AffineSchedule.Relation

namespace AffineSchedule

namespace Relation

def isEmpty (relation : Relation) : Checked Bool :=
  relation.disjuncts.allM (·.system.isEmpty)

def dropEmpty (relation : Relation) : Checked Relation := do
  let hasPoint (conjunct : Conjunct) : Checked Bool := do return !(← conjunct.system.isEmpty)
  return { relation with disjuncts := ← relation.disjuncts.filterM hasPoint }

/-- Some pair of the conjunct has `sign * (targetRow - sourceRow)` at least one. -/
def conjunctReaches (sourceRow targetRow : List Int) (sign : Int) (conjunct : Conjunct) :
    Checked Bool := do
  let distance ← (← conjunct.rowDistance sourceRow targetRow).scale sign
  let constant ← Word.sub distance.constant 1
  let restricted ← conjunct.add { sense := .nonnegative, form := { distance with constant } }
  return !(← restricted.system.isEmpty)

/-- Some pair has `sign * (targetRow - sourceRow)` at least one. -/
def reachesDistance (relation : Relation) (sourceRow targetRow : List Int) (sign : Int) :
    Checked Bool :=
  relation.disjuncts.anyM (conjunctReaches sourceRow targetRow sign)

/-- Some pair is ordered strictly backwards by the two rows. -/
def ordersBackwards (relation : Relation) (sourceRow targetRow : List Int) : Checked Bool :=
  relation.reachesDistance sourceRow targetRow (-1)

/-- Two rows differ on some pair. -/
def separates (relation : Relation) (rows : List Int × List Int) : Checked Bool := do
  if ← relation.reachesDistance rows.1 rows.2 1 then return true
  relation.reachesDistance rows.1 rows.2 (-1)

/-- Every pair is mapped to the same point by the rows of two schedules. -/
def isAlwaysEqual (relation : Relation) (sourceRows targetRows : RowMatrix) :
    Checked Bool := do
  return !(← (sourceRows.rows.zip targetRows.rows).anyM relation.separates)

def joinConjuncts (params : Nat) (left : Conjunct) (leftSide : Side) (right : Conjunct)
    (rightSide : Side) : Checked Polyhedron := do
  let columns ← Size.add (← left.width) (← right.width)
  let place (offset : Nat) (joined : Polyhedron) (constraint : Constraint) : Checked Polyhedron := do
    joined.add { constraint with form := ← constraint.form.embed columns offset }
  let withLeft ← left.system.constraints.foldlM (place 0) (Polyhedron.unconstrained columns params)
  let withBoth ← right.system.constraints.foldlM (place left.columns) withLeft
  let equate (joined : Polyhedron) (position : Nat) : Checked Polyhedron :=
    let first := left.offset leftSide + position
    let second := left.columns + right.offset rightSide + position
    let form := AffineForm.zero columns params
    joined.add { sense := .zero, form := { form with coeffs := (form.coeffs.set first 1).set second (-1) } }
  let shared := min (left.sideColumns leftSide) (right.sideColumns rightSide)
  if shared = 0 then return withBoth
  Size.reserve columns
  (List.range shared).foldlM equate withBoth

/-- Two conjuncts have points that agree on the chosen sides. -/
def conjunctsMeet (params : Nat) (leftSide rightSide : Side) (left right : Conjunct) : Checked Bool := do
  return !(← (← joinConjuncts params left leftSide right rightSide).isEmpty)

/-- The chosen side of one relation shares a point with the chosen side of another. Endpoints must agree
    in statement and tag, and the parameter lists must be the same. -/
def sidesMeet (left : Relation) (leftSide : Side) (right : Relation) (rightSide : Side) :
    Checked Bool :=
  if left.endpoint leftSide = right.endpoint rightSide ∧ left.params = right.params then
    left.disjuncts.anyM fun first =>
      right.disjuncts.anyM (conjunctsMeet left.params.length leftSide rightSide first)
  else .ok false

def domainMeetsRange (left right : Relation) : Checked Bool :=
  left.sidesMeet .source right .target

def rangeMeetsDomain (left right : Relation) : Checked Bool :=
  left.sidesMeet .target right .source

end Relation

end AffineSchedule
