import AffineSchedule.RowMatrix

namespace AffineSchedule

/-- An elementary unimodular operation on the columns of a matrix. -/
inductive ColumnStep where
  | swap (first second : Nat)
  | negate (target : Nat)
  /-- Subtract a multiple of the column `source` from the column `target`. -/
  | subtract (target source : Nat) (factor : Int)
deriving DecidableEq, Repr

namespace ColumnStep

/-- `value - factor * weight`, refused when the product or the difference does not fit. -/
def subtractScaled (value weight factor : Int) : Checked Int :=
  if Word.Fits (weight * factor) ∧ Word.Fits (value - weight * factor) then
    .ok (value - weight * factor)
  else .error (.solver .matrixOverflow)

/-- `value + factor * weight`, refused when the product or the sum does not fit. -/
def addScaled (value weight factor : Int) : Checked Int :=
  if Word.Fits (weight * factor) ∧ Word.Fits (value + weight * factor) then
    .ok (value + weight * factor)
  else .error (.solver .matrixOverflow)

def onRow (step : ColumnStep) (row : List Int) : Checked (List Int) :=
  match step with
  | swap first second =>
      .ok ((row.set first (row.getD second 0)).set second (row.getD first 0))
  | negate target => do
      return row.set target (← Word.neg (row.getD target 0))
  | subtract target source factor => do
      return row.set target (← subtractScaled (row.getD target 0) (row.getD source 0) factor)

def onInverse (step : ColumnStep) (rows : List (List Int)) : Checked (List (List Int)) :=
  match step with
  | swap first second =>
      .ok ((rows.set first (rows.getD second [])).set second (rows.getD first []))
  | negate target => do
      return rows.set target (← (rows.getD target []).mapM Word.neg)
  | subtract target source factor => do
      let sums ← ((rows.getD source []).zip (rows.getD target [])).mapM fun pair =>
        addScaled pair.1 pair.2 factor
      return rows.set source sums

end ColumnStep

/-- The matrices of a column reduction under way, each as a list of rows. -/
structure ColumnReduction where
  form : List (List Int)
  transform : List (List Int)
  inverse : List (List Int)
deriving DecidableEq, Repr

namespace ColumnReduction

def apply (reduction : ColumnReduction) (step : ColumnStep) : Checked ColumnReduction := do
  return {
    form := ← reduction.form.mapM step.onRow
    transform := ← reduction.transform.mapM step.onRow
    inverse := ← step.onInverse reduction.inverse }

def entry (reduction : ColumnReduction) (row column : Nat) : Int :=
  (reduction.form.getD row []).getD column 0

/-- The first of the given columns whose entry is non-zero and smallest in absolute value. -/
def smallestColumn (reduction : ColumnReduction) (row : Nat) : List Nat → Checked (Option Nat)
  | [] => .ok none
  | column :: later => do
      let value := reduction.entry row column
      if value = 0 then
        reduction.smallestColumn row later
      else
        let magnitude ← Word.abs value
        match ← reduction.smallestColumn row later with
        | none => return some column
        | some other =>
            return some (if magnitude ≤ (reduction.entry row other).natAbs then column else other)

/-- Subtracts from every given column the multiple of the pivot column that leaves a remainder below
    the pivot entry. Columns that are already clear stay as they are. -/
def reduceColumns (reduction : ColumnReduction) (row pivot : Nat) : List Nat → Checked ColumnReduction
  | [] => .ok reduction
  | column :: later => do
      let value := reduction.entry row column
      if value = 0 then
        reduction.reduceColumns row pivot later
      else
        let factor := value.fdiv (reduction.entry row pivot)
        (← reduction.apply (.subtract column pivot factor)).reduceColumns row pivot later

/-- The columns to the right of `column`, of `width` in all. -/
def columnsAfter (width column : Nat) : List Nat :=
  (List.range width).drop (column + 1)

/-- One round on a row: the smallest entry moves into the pivot column, is made positive, and reduces
    the columns to its right. -/
def round (reduction : ColumnReduction) (width row pivot smallest : Nat) : Checked ColumnReduction := do
  let swapped ← if smallest = pivot then .ok reduction else reduction.apply (.swap pivot smallest)
  let positive ← if swapped.entry row pivot < 0 then swapped.apply (.negate pivot) else .ok swapped
  positive.reduceColumns row pivot (columnsAfter width pivot)

/-- Rounds on a row until the columns to the right of the pivot are clear. The smallest entry shrinks
    with every round that does not finish, so its absolute value bounds the number of rounds. -/
def clearRow (width row pivot : Nat) : Nat → ColumnReduction → Checked ColumnReduction
  | 0, _ => .error (.unfinished .columnReduction)
  | rounds + 1, reduction => do
      match ← reduction.smallestColumn row ((List.range width).drop pivot) with
      | none => return reduction
      | some smallest =>
          let next ← reduction.round width row pivot smallest
          if (columnsAfter width pivot).all fun column => next.entry row column = 0 then
            return next
          else
            clearRow width row pivot rounds next

def rowMagnitude (reduction : ColumnReduction) (row : Nat) : Nat :=
  (reduction.form.getD row []).foldl (fun largest value => max largest value.natAbs) 0

/-- Reduces the given rows in turn. `pivot` is the first column that is not yet a pivot column; a row
    without a non-zero entry in the free columns leaves it where it is. -/
def reduceRows (width : Nat) : List Nat → Nat → ColumnReduction → Checked ColumnReduction
  | [], _, reduction => .ok reduction
  | row :: later, pivot, reduction =>
      if width ≤ pivot then .ok reduction
      else do
        let next ← clearRow width row pivot (reduction.rowMagnitude row + 1) reduction
        reduceRows width later (if next.entry row pivot = 0 then pivot else pivot + 1) next

end ColumnReduction

/-- A column Hermite decomposition. -/
structure HermiteForm where
  form : RowMatrix
  transform : RowMatrix
  inverse : RowMatrix
  /-- The number of leading non-zero columns of `form`. -/
  rank : Nat
deriving DecidableEq, Repr

def RowMatrix.hermite (matrix : RowMatrix) : Checked HermiteForm := do
  let unit := (← Size.make RowMatrix.identity matrix.cols).rows
  let start : ColumnReduction := { form := matrix.rows, transform := unit, inverse := unit }
  let reduced ← ColumnReduction.reduceRows matrix.cols (List.range matrix.height) 0 start
  let form ← RowMatrix.ofRows matrix.cols reduced.form
  return {
    form := form
    transform := ← RowMatrix.ofRows matrix.cols reduced.transform
    inverse := ← RowMatrix.ofRows matrix.cols reduced.inverse
    rank := form.leadingColumns }

end AffineSchedule
