import AffineSchedule.Linear.Lexmin

namespace AffineSchedule

namespace Linear

/-- The answer of an integer feasibility search. -/
inductive Feasibility where
  | feasible
  | infeasible
  | unknown
deriving DecidableEq, Repr

namespace Lattice

/-- A row over free variables as a row over their parts. -/
def splitRow (row : Row) : Checked Row := do
  let parts ← row.form.terms.mapM fun term => do
    return [(← Size.checked (2 * term.1 + 1), term.2), (2 * term.1, ← Word.neg term.2)]
  Row.make row.sense { terms := parts.flatten, constant := row.form.constant }

/-- The problem over the parts of `count` free variables. -/
def splitProblem (count : Nat) (rows : List Row) : Checked Problem := do
  let addSplit (problem : Problem) (row : Row) : Checked Problem := do
    problem.addRow (← splitRow row)
  rows.foldlM addSplit (← Problem.ofColumns (← Size.checked (2 * count)) false)

/-- The values of the free variables at a point over the parts. -/
def values : Point → List Rat
  | negative :: positive :: later => (positive - negative) :: values later
  | _ => []

/-- The two children of a node: the variable at most the whole part of its value, and at least one
    more. -/
def branches (rows : List Row) (index : Nat) (value : Rat) : Checked (List (List Row)) := do
  let bound ← branchBound value
  let up ← Row.make .nonnegative
    { terms := [(2 * index + 1, 1), (2 * index, -1)], constant := ← Word.neg (← Word.add bound 1) }
  let down ← Row.make .nonnegative
    { terms := [(2 * index, 1), (2 * index + 1, -1)], constant := bound }
  return [rows ++ [down], rows ++ [up]]

/-- Visits the pending nodes, the first one next, until one has an integral point or none is left. -/
def searchNodes (problem : Problem) : Nat → List (List Row) → Checked Feasibility
  | _, [] => .ok .infeasible
  | 0, _ :: _ => .ok .unknown
  | budget + 1, rows :: pending => do
      match ← problem.rationalLexmin rows [] with
      | none => searchNodes problem budget pending
      | some point =>
          match (values point).zipIdx.find? fun entry => entry.1.den ≠ 1 with
          | none => return .feasible
          | some (value, index) =>
              let children ← branches rows index value
              searchNodes problem budget (children ++ pending)

end Lattice

/-- Whether rows over `count` unrestricted variables have an integer point, within a node budget. -/
def integerFeasible (count : Nat) (rows : List Row) (limit : Nat) : Checked Feasibility := do
  let problem ← Lattice.splitProblem count rows
  Lattice.searchNodes problem limit [[]]

end Linear

end AffineSchedule
