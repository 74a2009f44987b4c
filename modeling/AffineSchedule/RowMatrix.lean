import AffineSchedule.Word

namespace AffineSchedule

/-- A matrix given by its rows, all of length `cols`. -/
structure RowMatrix where
  cols : Nat
  rows : List (List Int)
  uniform : ∀ row ∈ rows, row.length = cols
deriving DecidableEq, Repr

namespace RowMatrix

instance : Inhabited RowMatrix := ⟨⟨0, [], by simp⟩⟩

def height (matrix : RowMatrix) : Nat := matrix.rows.length

def zeros (height cols : Nat) : RowMatrix where
  cols := cols
  rows := List.replicate height (List.replicate cols 0)
  uniform := by
    intro row row_mem
    rw [List.eq_of_mem_replicate row_mem, List.length_replicate]

def unitRow (size position : Nat) : List Int :=
  (List.range size).map fun column => if column = position then 1 else 0

def identity (size : Nat) : RowMatrix where
  cols := size
  rows := (List.range size).map (unitRow size)
  uniform := by simp [unitRow]

/-- The matrix with the given rows, which must all have `cols` entries. -/
def ofRows (cols : Nat) (rows : List (List Int)) : Checked RowMatrix :=
  if uniform : ∀ row ∈ rows, row.length = cols then .ok ⟨cols, rows, uniform⟩ else .error .precondition

def row (matrix : RowMatrix) (index : Nat) : Checked (List Int) :=
  Checked.ofOption matrix.rows[index]?

def entry (matrix : RowMatrix) (index column : Nat) : Checked Int := do
  Checked.ofOption (← matrix.row index)[column]?

/-- Replaces the row at an index, which must exist, by a row of the same length. -/
def replaceRow (matrix : RowMatrix) (index : Nat) (newRow : List Int) : Checked RowMatrix :=
  if fits : index < matrix.height ∧ newRow.length = matrix.cols then
    .ok {
      cols := matrix.cols
      rows := matrix.rows.set index newRow
      uniform := by
        intro row row_mem
        rcases List.mem_or_eq_of_mem_set row_mem with old | rfl
        · exact matrix.uniform row old
        · exact fits.2 }
  else .error .precondition

def setEntry (matrix : RowMatrix) (index column : Nat) (value : Int) : Checked RowMatrix := do
  let old ← matrix.row index
  Checked.require (column < old.length)
  matrix.replaceRow index (old.set column value)

def fillRow (matrix : RowMatrix) (index : Nat) (value : Int) : Checked RowMatrix := do
  let old ← matrix.row index
  matrix.replaceRow index (old.map fun _ => value)

/-- Appends a row, which must have the length of the others. -/
def pushRow (matrix : RowMatrix) (newRow : List Int) : Checked RowMatrix :=
  if fits : newRow.length = matrix.cols then
    .ok {
      cols := matrix.cols
      rows := matrix.rows ++ [newRow]
      uniform := by
        intro row row_mem
        rcases List.mem_append.mp row_mem with old | new
        · exact matrix.uniform row old
        · rw [List.mem_singleton.mp new, fits] }
  else .error .precondition

def takeRows (matrix : RowMatrix) (count : Nat) : RowMatrix where
  cols := matrix.cols
  rows := matrix.rows.take count
  uniform := fun row row_mem => matrix.uniform row (List.mem_of_mem_take row_mem)

/-- The columns `start, …, start + count - 1`. A matrix without rows has every such block. -/
def columnBlock (matrix : RowMatrix) (start count : Nat) : Checked RowMatrix := do
  unless matrix.rows.isEmpty do
    let _ ← Size.add start count
  if fits : matrix.rows = [] ∨ start + count ≤ matrix.cols then
    .ok {
      cols := count
      rows := matrix.rows.map fun row => (row.drop start).take count
      uniform := by
        intro block block_mem
        obtain ⟨row, row_mem, rfl⟩ := List.mem_map.mp block_mem
        have row_length := matrix.uniform row row_mem
        rcases fits with no_rows | within
        · simp [no_rows] at row_mem
        · simp only [List.length_take, List.length_drop]
          omega }
  else .error .precondition

/-- The entries of one column; a column beyond the last is read as zeros. -/
def column (matrix : RowMatrix) (index : Nat) : List Int :=
  matrix.rows.map fun row => row.getD index 0

def transpose (matrix : RowMatrix) : RowMatrix where
  cols := matrix.height
  rows := (List.range matrix.cols).map matrix.column
  uniform := by simp [column, height]

/-- The matrix with rows and columns exchanged, if it can have that many rows. -/
def transposed (matrix : RowMatrix) : Checked RowMatrix := do
  Size.reserve matrix.cols
  return matrix.transpose

/-- The inner product of two rows, every partial sum within range. -/
def innerProduct (left right : List Int) : Checked Int :=
  let accumulate (total : Int) (pair : Int × Int) : Checked Int :=
    if Word.Fits (pair.1 * pair.2) ∧ Word.Fits (total + pair.1 * pair.2) then
      .ok (total + pair.1 * pair.2)
    else .error (.solver .matrixOverflow)
  (left.zip right).foldlM accumulate 0

/-- The product with a column vector, which must have one entry per column. -/
def mulVec (matrix : RowMatrix) (vector : List Int) : Checked (List Int) := do
  Checked.require (matrix.cols = vector.length)
  matrix.rows.mapM fun row => innerProduct row vector

def mul (left right : RowMatrix) : Checked RowMatrix := do
  Checked.require (left.cols = right.height)
  let columns ← right.transposed
  let rows ← left.rows.mapM columns.mulVec
  ofRows right.cols rows

/-- The number of leading columns that hold a non-zero entry, among the first `width` columns. -/
def countLeading : Nat → List (List Int) → Nat
  | 0, _ => 0
  | width + 1, rows =>
      if rows.any fun row => row.headD 0 ≠ 0 then countLeading width (rows.map List.tail) + 1 else 0

/-- The number of leading columns that hold a non-zero entry; without rows there is none. -/
def leadingColumns (matrix : RowMatrix) : Nat := countLeading matrix.cols matrix.rows

def render (matrix : RowMatrix) : String :=
  let line (row : List Int) : String := "  [" ++ ", ".intercalate (row.map toString) ++ "]\n"
  "[\n" ++ String.join (matrix.rows.map line) ++ "]"

@[simp] theorem height_transpose (matrix : RowMatrix) : matrix.transpose.height = matrix.cols := by
  simp [transpose, height]

/-- Appending succeeds exactly for rows of the right length, and appends. -/
theorem pushRow_ok_iff {matrix extended : RowMatrix} {newRow : List Int} :
    matrix.pushRow newRow = .ok extended ↔
      newRow.length = matrix.cols ∧ extended.cols = matrix.cols
        ∧ extended.rows = matrix.rows ++ [newRow] := by
  unfold pushRow
  by_cases fits : newRow.length = matrix.cols
  · rcases extended with ⟨cols, rows, uniform⟩
    simp only [fits, dif_pos, Except.ok.injEq, RowMatrix.mk.injEq, true_and]
    exact ⟨fun same => ⟨same.1.symm, same.2.symm⟩, fun same => ⟨same.1.symm, same.2.symm⟩⟩
  · simp [fits]

end RowMatrix

end AffineSchedule
