import AffineSchedule.Linear.Tableau

namespace AffineSchedule

namespace Linear

abbrev Point : Type := List Rat

/-- The value of an objective at a point, which must have every column of the objective. -/
def Objective.evaluate (objective : Objective) (point : Point) : Checked Rat :=
  let addTerm (total : Rat) (term : Nat × Int) : Checked Rat := do
    return total + (term.2 : Rat) * (← Checked.ofOption point[term.1]?)
  objective.foldlM addTerm 0

def Objective.evaluateAll (objectives : List Objective) (point : Point) : Checked (List Rat) :=
  objectives.mapM fun objective => objective.evaluate point

/-- The non-negative rational point of the rows that minimizes the objectives lexicographically, or
    nothing if the rows have no point. -/
def lexmin (structural : Nat) (rows : List Row) (objectives : List Objective) :
    Checked (Option Point) := do
  Tableau.checkRows structural rows
  match ← (Tableau.start structural rows).findFeasible with
  | none => return none
  | some feasible =>
      let optimal ← objectives.foldlM Tableau.minimizeAndFix feasible
      return some (optimal.solution structural)

def isFeasible (structural : Nat) (rows : List Row) : Checked Bool := do
  Tableau.checkRows structural rows
  return (← (Tableau.start structural rows).findFeasible).isSome

namespace Problem

/-- The lexicographically least rational point of a problem with extra rows. -/
def rationalLexmin (problem : Problem) (extra : List Row) (objectives : List Objective) :
    Checked (Option Point) :=
  lexmin problem.columns (problem.rows ++ extra) objectives

/-- Whether the extra rows and the first `count` rows of the problem have a common rational point. -/
def isFeasibleUpTo (problem : Problem) (extra : List Row) (count : Nat) : Checked Bool :=
  isFeasible problem.columns (extra ++ problem.rows.take count)

/-- Bisects between a feasible and an infeasible number of leading rows until they are adjacent, and
    answers the index of the row between them. -/
def bisectConflict (problem : Problem) (extra : List Row) (feasible infeasible : Nat) : Checked Nat :=
  if infeasible - feasible ≤ 1 then .ok (infeasible - 1)
  else do
    let middle := (feasible + infeasible) / 2
    if ← problem.isFeasibleUpTo extra middle then
      problem.bisectConflict extra middle infeasible
    else
      problem.bisectConflict extra feasible middle
termination_by infeasible - feasible

/-- The index of the first row that is infeasible together with the extra rows and all earlier rows.
    There is none if the extra rows alone are infeasible, or if all rows together are feasible. -/
def firstConflict (problem : Problem) (extra : List Row) : Checked (Option Nat) := do
  if !(← problem.isFeasibleUpTo extra 0) then return none
  if ← problem.isFeasibleUpTo extra problem.rows.length then return none
  return some (← problem.bisectConflict extra 0 problem.rows.length)

end Problem


structure IntegerOutcome where
  /-- The least point below the cutoff. -/
  solution : Option Point
  /-- The rational relaxation with the extra rows has no point. -/
  relaxationInfeasible : Bool
deriving DecidableEq, Repr

/-- The whole part of a value below it, as a bound for branching. -/
def branchBound (value : Rat) : Checked Int :=
  let bound := value.floor
  if Word.Fits bound then .ok bound else .error (.solver .boundOverflow)

/-- A search under way: the best objective values and point so far. -/
structure Incumbent where
  key : Option (List Rat)
  point : Option Point
deriving DecidableEq, Repr

namespace Incumbent

/-- The objective values are strictly below those found so far. -/
def Improves (incumbent : Incumbent) (key : List Rat) : Prop :=
  match incumbent.key with
  | none => True
  | some best => key < best

instance (incumbent : Incumbent) (key : List Rat) : Decidable (incumbent.Improves key) := by
  unfold Improves
  cases incumbent.key <;> infer_instance

end Incumbent

namespace Problem

/-- The first integer column at which a point is fractional, with the value there. -/
def fractionalColumn (problem : Problem) (point : Point) : Option (Nat × Rat) := do
  let entries := (problem.integer.zip point).zipIdx
  let ((_, value), column) ← entries.find? fun entry => entry.1.1 && entry.1.2.den ≠ 1
  return (column, value)

/-- The two children of a node: the column at most the whole part of its value, and at least one more. -/
def branches (rows : List Row) (column : Nat) (value : Rat) : Checked (List (List Row)) := do
  let bound ← branchBound value
  let up ← Row.atLeast column (← Word.add bound 1)
  let down ← Row.atMost column bound
  return [rows ++ [down], rows ++ [up]]

/-- What becomes of a node once its relaxation has a point: the children to visit next and the best
    values known from here on. A node that cannot improve on them is dropped. -/
def expand (problem : Problem) (objectives : List Objective) (rows : List Row) (point : Point)
    (incumbent : Incumbent) : Checked (List (List Row) × Incumbent) := do
  let key ← Objective.evaluateAll objectives point
  if incumbent.Improves key then
    match problem.fractionalColumn point with
    | none => return ([], { key := some key, point := some point })
    | some (column, value) => return (← branches rows column value, incumbent)
  else return ([], incumbent)

/-- Visits the pending nodes, the first one next, until none is left. `budget` counts the nodes that may
    still be visited, out of `limit`. -/
def searchNodes (problem : Problem) (objectives : List Objective) (limit : Nat) :
    Nat → List (List Row) → Incumbent → Checked Incumbent
  | _, [], incumbent => .ok incumbent
  | 0, _ :: _, _ => .error (.solver (.nodeLimit limit))
  | budget + 1, rows :: pending, incumbent => do
      match ← problem.rationalLexmin rows objectives with
      | none => problem.searchNodes objectives limit budget pending incumbent
      | some point =>
          let (children, next) ← problem.expand objectives rows point incumbent
          problem.searchNodes objectives limit budget (children ++ pending) next

/-- The lexicographically least point of the problem with extra rows that is integral on the integer
    columns and whose objective values are strictly below the cutoff. -/
def integerLexmin (problem : Problem) (extra : List Row) (objectives : List Objective)
    (cutoff : Option (List Rat)) : Nat → Checked IntegerOutcome
  | 0 => .error (.solver (.nodeLimit 0))
  | budget + 1 => do
      match ← problem.rationalLexmin extra objectives with
      | none => return { solution := none, relaxationInfeasible := true }
      | some point =>
          let start : Incumbent := { key := cutoff, point := none }
          let (children, next) ← problem.expand objectives extra point start
          let final ← problem.searchNodes objectives (budget + 1) budget children next
          return { solution := final.point, relaxationInfeasible := false }

end Problem

end Linear

end AffineSchedule
