import AffineSchedule.Linear.Problem

namespace AffineSchedule

namespace Linear

/-- A linear objective: the sum of the named columns, each times its coefficient. -/
abbrev Objective : Type := List (Nat × Int)

/-- A simplex tableau with `m` rows and `n` columns. -/
structure Tableau (m n : Nat) where
  entries : Vector (Vector Rat n) m
  rhs : Vector Rat m
  /-- The column that is basic in each row. -/
  basis : Vector (Fin n) m
  /-- Whether a column is basic in some row. -/
  isBasic : Vector Bool n
  /-- Columns that may no longer enter the basis. -/
  banned : Vector Bool n
  /-- The artificial columns are those from here on. -/
  firstArtificial : Nat

namespace Tableau

/-! ### Laying a problem out -/

/-- The number of slack columns that the rows need. -/
def slackCount (rows : List Row) : Nat :=
  (rows.filter (·.sense = .nonnegative)).length

def width (structural : Nat) (rows : List Row) : Nat :=
  structural + slackCount rows + rows.length

/-- The coefficients of a list of terms as a dense vector; a column that occurs several times collects
    the sum, and columns beyond the last are dropped. -/
def scatter (n : Nat) (terms : List (Nat × Int)) : Vector Rat n :=
  let addTerm (dense : Vector Rat n) (term : Nat × Int) : Vector Rat n :=
    if inside : term.1 < n then dense.set term.1 (dense[term.1] + (term.2 : Rat)) inside else dense
  terms.foldl addTerm (Vector.replicate n 0)

/-- The entries of a row before its artificial column is put in. A row with a positive constant is
    negated, so that its right-hand side becomes non-negative. -/
def startEntries (n slack : Nat) (row : Row) : Vector Rat n :=
  let coefficients := scatter n row.form.terms
  let withSlack :=
    if inside : slack < n then
      if row.sense = .nonnegative then coefficients.set slack (-1) inside else coefficients
    else coefficients
  if 0 < row.form.constant then withSlack.map (- ·) else withSlack

/-- The tableau of the given rows with the artificial columns as its basis. -/
def start (structural : Nat) (rows : List Row) : Tableau rows.length (width structural rows) :=
  let firstArtificial := structural + slackCount rows
  let artificial (i : Fin rows.length) : Fin (width structural rows) :=
    ⟨firstArtificial + i.val, Nat.add_lt_add_left i.isLt _⟩
  { entries := Vector.ofFn fun i =>
      let slack := structural + slackCount (rows.take i.val)
      let column := artificial i
      (startEntries (width structural rows) slack rows[i]).set column.val 1 column.isLt
    rhs := Vector.ofFn fun i => ((rows[i].form.constant.natAbs : Int) : Rat)
    basis := Vector.ofFn artificial
    isBasic := Vector.ofFn fun j => decide (firstArtificial ≤ j.val)
    banned := Vector.replicate _ false
    firstArtificial := firstArtificial }

/-- The rows can be laid out: no column lies beyond the right-hand side, and every constant can be
    negated. The first row that cannot be laid out decides the fault. -/
def checkRows (structural : Nat) (rows : List Row) : Checked Unit :=
  rows.forM fun row => do
    Checked.require (∀ term ∈ row.form.terms, term.1 ≤ width structural rows)
    let _ ← Word.neg row.form.constant

/-! ### Pivoting -/

variable {m n : Nat}

/-- Makes the column `c` basic in row `r`: the row is divided by its entry in the column, and multiples of
    it clear the column in the other rows. -/
def pivot (tableau : Tableau m n) (r : Fin m) (c : Fin n) : Tableau m n :=
  let scale := tableau.entries[r][c]
  let pivotRow := tableau.entries[r].map fun value => if value = 0 then 0 else value / scale
  let pivotRhs := tableau.rhs[r] / scale
  { tableau with
    entries := Vector.ofFn fun i =>
      if i = r then pivotRow
      else
        let factor := tableau.entries[i][c]
        if factor = 0 then tableau.entries[i]
        else
          Vector.zipWith (fun value weight => if weight = 0 then value else value - factor * weight)
            tableau.entries[i] pivotRow
    rhs := Vector.ofFn fun i =>
      if i = r then pivotRhs else tableau.rhs[i] - tableau.entries[i][c] * pivotRhs
    basis := tableau.basis.set r c
    isBasic := (tableau.isBasic.set tableau.basis[r] false).set c true }

/-- The cost vector less the cost of the basic columns: what a unit of each column adds to the cost. -/
def reducedCosts (tableau : Tableau m n) (cost : Vector Rat n) : Vector Rat n :=
  let subtractRow (costs : Vector Rat n) (i : Fin m) : Vector Rat n :=
    let weight := cost[tableau.basis[i]]
    if weight = 0 then costs
    else
      Vector.zipWith (fun value entry => if entry = 0 then value else value - weight * entry)
        costs tableau.entries[i]
  (List.finRange m).foldl subtractRow cost

/-- The first column that lowers the cost when it enters the basis. -/
def entering (tableau : Tableau m n) (cost : Vector Rat n) : Option (Fin n) :=
  let costs := tableau.reducedCosts cost
  (List.finRange n).find? fun j => !tableau.banned[j] && !tableau.isBasic[j] && decide (costs[j] < 0)

/-- How far a column can grow before the basic column of a row reaches zero. -/
def ratio (tableau : Tableau m n) (column : Fin n) (i : Fin m) : Rat :=
  tableau.rhs[i] / tableau.entries[i][column]

/-- The row whose basic column leaves when `column` enters: the least ratio among the positive entries,
    the smallest basic column among equals. There is none if no entry is positive. -/
def leaving (tableau : Tableau m n) (column : Fin n) : Option (Fin m) :=
  let better (i best : Fin m) : Bool :=
    let candidate := tableau.ratio column i
    let least := tableau.ratio column best
    candidate < least || (candidate = least && tableau.basis[i] < tableau.basis[best])
  let consider (best : Option (Fin m)) (i : Fin m) : Option (Fin m) :=
    if 0 < tableau.entries[i][column] then
      match best with
      | none => some i
      | some row => if better i row then some i else some row
    else best
  (List.finRange m).foldl consider none

/-- Minimizes a cost from a basic feasible solution, in at most the given number of steps. -/
def optimizeWithin (cost : Vector Rat n) : Nat → Tableau m n → Checked (Tableau m n)
  | 0, _ => .error (.unfinished .pivots)
  | steps + 1, tableau =>
      match tableau.entering cost with
      | none => .ok tableau
      | some column =>
          match tableau.leaving column with
          | none => .error (.solver .unbounded)
          | some row => optimizeWithin cost steps (tableau.pivot row column)

/-- Minimizes a cost from a basic feasible solution. Every basis is a set of columns and none comes
    twice, so the allowance is never used up. -/
def optimize (tableau : Tableau m n) (cost : Vector Rat n) : Checked (Tableau m n) :=
  optimizeWithin cost (Nat.pow 2 n + 1) tableau

/-! ### The two phases -/

def artificialCost (tableau : Tableau m n) : Vector Rat n :=
  Vector.ofFn fun j => if tableau.firstArtificial ≤ j.val then 1 else 0

/-- Some artificial column is still positive. -/
def hasResidue (tableau : Tableau m n) : Bool :=
  (List.finRange m).any fun i =>
    decide (tableau.firstArtificial ≤ tableau.basis[i].val) && decide (0 < tableau.rhs[i])

/-- Exchanges the artificial column of a row for the first other column with a non-zero entry, if the
    row has one. -/
def driveOut (tableau : Tableau m n) (r : Fin m) : Tableau m n :=
  if tableau.basis[r].val < tableau.firstArtificial then tableau
  else
    let candidate := (List.finRange n).find? fun j =>
      decide (j.val < tableau.firstArtificial) && decide (tableau.entries[r][j] ≠ 0)
    match candidate with
    | none => tableau
    | some column => tableau.pivot r column

def banArtificial (tableau : Tableau m n) : Tableau m n :=
  { tableau with
    banned := Vector.ofFn fun j => tableau.banned[j] || decide (tableau.firstArtificial ≤ j.val) }

/-- Phase one: a tableau whose basic solution satisfies the rows, or nothing if there is none. -/
def findFeasible (tableau : Tableau m n) : Checked (Option (Tableau m n)) := do
  let optimal ← tableau.optimize tableau.artificialCost
  if optimal.hasResidue then return none
  else return some ((List.finRange m).foldl driveOut optimal).banArtificial

/-- Bans every nonbasic column that would raise the cost, which freezes the cost at its optimum. -/
def fix (tableau : Tableau m n) (cost : Vector Rat n) : Tableau m n :=
  let costs := tableau.reducedCosts cost
  { tableau with
    banned := Vector.ofFn fun j =>
      tableau.banned[j] || (!tableau.isBasic[j] && decide (0 < costs[j])) }

/-- Phase two for one objective: minimizes it and freezes it at its optimum. -/
def minimizeAndFix (tableau : Tableau m n) (objective : Objective) : Checked (Tableau m n) := do
  Checked.require (∀ term ∈ objective, term.1 < n)
  let cost := scatter n objective
  let optimal ← tableau.optimize cost
  return optimal.fix cost

/-- The value of a column in the basic solution. -/
def value (tableau : Tableau m n) (column : Nat) : Rat :=
  (List.finRange m).foldl
    (fun found i => if tableau.basis[i].val = column then tableau.rhs[i] else found) 0

def solution (tableau : Tableau m n) (structural : Nat) : List Rat :=
  (List.range structural).map tableau.value

end Tableau

end Linear

end AffineSchedule
