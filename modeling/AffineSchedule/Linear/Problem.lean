import AffineSchedule.Word

namespace AffineSchedule

/-- How an expression is compared with zero. -/
inductive Sense where
  | nonnegative
  | zero
deriving DecidableEq, Repr

namespace Sense

def symbol : Sense → String
  | nonnegative => ">="
  | zero => "="

/-- The comparison holds for an integer value of the expression. -/
def Holds (sense : Sense) (value : Int) : Prop :=
  match sense with
  | nonnegative => 0 ≤ value
  | zero => value = 0

instance (sense : Sense) (value : Int) : Decidable (sense.Holds value) := by
  cases sense <;> unfold Holds <;> infer_instance

end Sense

namespace Linear

/-- The linear form that sums the products of column values and coefficients, plus a constant. -/
structure Form where
  terms : List (Nat × Int)
  constant : Int
deriving DecidableEq, Repr

namespace Form

def zero : Form := { terms := [], constant := 0 }

def column (index : Nat) : Form := { terms := [(index, 1)], constant := 0 }

def constantly (value : Int) : Form := { terms := [], constant := value }

/-- One column minus another. -/
def difference (positive negative : Nat) : Form :=
  { terms := [(positive, 1), (negative, -1)], constant := 0 }

def scaleTerms (factor : Int) (terms : List (Nat × Int)) : Checked (List (Nat × Int)) :=
  terms.mapM fun term => do return (term.1, ← Word.mul term.2 factor)

/-- `form + factor * other`. A zero factor leaves the form as it is. -/
def addScaled (form other : Form) (factor : Int) : Checked Form :=
  if factor = 0 then .ok form
  else do
    let scaled ← scaleTerms factor other.terms
    let constant ← Word.add form.constant (← Word.mul other.constant factor)
    return { terms := form.terms ++ scaled, constant := constant }

def scaled (form : Form) (factor : Int) : Checked Form := zero.addScaled form factor

/-- The sum of several forms, each with its factor, added from left to right. -/
def combination (weighted : List (Form × Int)) : Checked Form :=
  weighted.foldlM (fun total part => total.addScaled part.1 part.2) zero

/-- Adds a term to terms in increasing order of their columns. -/
def insertTerm (term : Nat × Int) : List (Nat × Int) → Checked (List (Nat × Int))
  | [] => .ok [term]
  | first :: later =>
      if term.1 < first.1 then .ok (term :: first :: later)
      else if term.1 = first.1 then do
        return (first.1, ← Word.add first.2 term.2) :: later
      else do
        return first :: (← insertTerm term later)

/-- The same form with every column named at most once, in increasing order, and no zero terms. -/
def compact (form : Form) : Checked Form := do
  let merged ← form.terms.foldlM (fun sorted term => insertTerm term sorted) []
  return { terms := merged.filter (·.2 ≠ 0), constant := form.constant }

/-- Every column of the form lies below a bound. -/
def Within (form : Form) (columns : Nat) : Prop :=
  ∀ term ∈ form.terms, term.1 < columns

instance (form : Form) (columns : Nat) : Decidable (form.Within columns) :=
  inferInstanceAs (Decidable (∀ term ∈ form.terms, term.1 < columns))

end Form


/-- A linear form compared with zero. -/
structure Row where
  sense : Sense
  form : Form
deriving DecidableEq, Repr

namespace Row

def make (sense : Sense) (form : Form) : Checked Row := do
  return { sense := sense, form := ← form.compact }

def atMost (column : Nat) (bound : Int) : Checked Row :=
  make .nonnegative { terms := [(column, -1)], constant := bound }

def atLeast (column : Nat) (bound : Int) : Checked Row := do
  make .nonnegative { terms := [(column, 1)], constant := ← Word.neg bound }

/-- The text of a row, for instance `2*x0 + -1*x3 + 5 >= 0`. -/
def render (row : Row) : String :=
  let term (entry : Nat × Int) : String := toString entry.2 ++ "*x" ++ toString entry.1
  " + ".intercalate (row.form.terms.map term) ++ " + " ++ toString row.form.constant ++ " "
    ++ row.sense.symbol ++ " 0"

end Row

/-- A linear problem: one integrality flag per column, and rows. -/
structure Problem where
  integer : List Bool
  rows : List Row
deriving DecidableEq, Repr

namespace Problem

def ofColumns (count : Nat) (integer : Bool) : Checked Problem := do
  return { integer := ← Size.make (List.replicate · integer) count, rows := [] }

def columns (problem : Problem) : Nat := problem.integer.length

/-- Adds columns at the end; the first of them has the old column count as its index. -/
def addColumns (problem : Problem) (count : Nat) (integer : Bool) : Checked Problem := do
  return { problem with integer := problem.integer ++ (← Size.make (List.replicate · integer) count) }

/-- Adds a row at the end, which may only name columns of the problem. -/
def addRow (problem : Problem) (row : Row) : Checked Problem := do
  Checked.require (row.form.Within problem.columns)
  return { problem with rows := problem.rows ++ [row] }

def addRows (problem : Problem) (rows : List Row) : Checked Problem :=
  rows.foldlM addRow problem

def integerColumns (problem : Problem) : List Nat :=
  (problem.integer.zipIdx.filter (·.1)).map (·.2)

/-- The size of the problem on one line, then one line per row. -/
def render (problem : Problem) : String :=
  toString problem.columns ++ " columns, " ++ toString problem.rows.length ++ " rows\n"
    ++ String.join (problem.rows.map fun row => "  " ++ row.render ++ "\n")

end Problem

end Linear

end AffineSchedule
