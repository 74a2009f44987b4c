import AffineSchedule.Space

namespace AffineSchedule

/-- A constant plus a combination of dimensions and of parameters, by position. -/
structure AffineForm where
  constant : Int
  coeffs : List Int
  params : List Int
deriving DecidableEq, Repr, Inhabited

namespace AffineForm

/-! ### Building expressions -/

/-- A constant expression in a layout of `dim` dimensions and `params` parameters. -/
def constantly (value : Int) (dim params : Nat) : AffineForm :=
  { constant := value, coeffs := List.replicate dim 0, params := List.replicate params 0 }

def zero (dim params : Nat) : AffineForm := constantly 0 dim params

/-- A single dimension; a position beyond the last one gives the zero expression. -/
def dimension (position dim params : Nat) : AffineForm :=
  { zero dim params with coeffs := (List.replicate dim 0).set position 1 }

/-- A single parameter; a position beyond the last one gives the zero expression. -/
def parameter (position dim params : Nat) : AffineForm :=
  { zero dim params with params := (List.replicate params 0).set position 1 }

/-- The expression of a schedule row laid out as constant, parameters, dimensions. -/
def ofRow (row : List Int) (params : Nat) : Checked AffineForm := do
  Checked.require (row ≠ [])
  let leading ← Size.add 1 params
  Checked.require (leading ≤ row.length)
  return {
    constant := row.headD 0
    params := (row.drop 1).take params
    coeffs := row.drop leading }

def toRow (form : AffineForm) : List Int := form.constant :: (form.params ++ form.coeffs)

/-! ### Reading expressions -/

def isConstant (form : AffineForm) : Bool :=
  form.coeffs.all (· = 0) && form.params.all (· = 0)

def isZero (form : AffineForm) : Bool := form.constant = 0 && form.isConstant

def constant? (form : AffineForm) : Option Int :=
  if form.isConstant then some form.constant else none

/-- The coefficient of a dimension, zero beyond the last one. -/
def coeff (form : AffineForm) (position : Nat) : Int := form.coeffs.getD position 0

/-- The coefficient of a parameter, zero beyond the last one. -/
def paramCoeff (form : AffineForm) (position : Nat) : Int := form.params.getD position 0

def addProducts (start : Int) (coefficients values : List Int) : Checked Int :=
  let addProduct (total : Int) (pair : Int × Int) : Checked Int := do
    Word.add total (← Word.mul pair.1 pair.2)
  (coefficients.zip values).foldlM addProduct start

/-- The value at given dimensions and parameters. Positions without a value do not count. -/
def evaluate (form : AffineForm) (dims params : List Int) : Checked Int := do
  addProducts (← addProducts form.constant form.coeffs dims) form.params params

def linearGcd (form : AffineForm) : Checked Int := Word.gcdAll (form.coeffs ++ form.params)

/-! ### Arithmetic -/

def scale (form : AffineForm) (factor : Int) : Checked AffineForm := do
  return {
    constant := ← Word.mul form.constant factor
    coeffs := ← form.coeffs.mapM (Word.mul · factor)
    params := ← form.params.mapM (Word.mul · factor) }

def neg (form : AffineForm) : Checked AffineForm := form.scale (-1)

def add (left right : AffineForm) : Checked AffineForm := do
  Checked.require (left.coeffs.length = right.coeffs.length)
  Checked.require (left.params.length = right.params.length)
  return {
    constant := ← Word.add left.constant right.constant
    coeffs := ← (left.coeffs.zip right.coeffs).mapM fun pair => Word.add pair.1 pair.2
    params := ← (left.params.zip right.params).mapM fun pair => Word.add pair.1 pair.2 }

def sub (left right : AffineForm) : Checked AffineForm := do
  left.add (← right.neg)

/-! ### Changing the layout -/

/-- Adds a coefficient to the column at a position, which must exist. -/
def accumulate (columns : List Int) (position : Nat) (value : Int) : Checked (List Int) := do
  let old ← Checked.ofOption columns[position]?
  return columns.set position (← Word.add old value)

/-- The expression over `dim` dimensions, where dimension `i` has become dimension `positions[i]`. -/
def relayout (form : AffineForm) (dim : Nat) (positions : List Nat) : Checked AffineForm := do
  Checked.require (positions.length = form.coeffs.length)
  Size.reserve dim
  let place (columns : List Int) (entry : Int × Nat) : Checked (List Int) :=
    accumulate columns entry.2 entry.1
  let coeffs ← (form.coeffs.zip positions).foldlM place (List.replicate dim 0)
  return { form with coeffs := coeffs }

/-- The expression over `dim` dimensions, its own being consecutive from `offset` on. -/
def embed (form : AffineForm) (dim offset : Nat) : Checked AffineForm := do
  form.relayout dim (← Size.consecutive offset form.coeffs.length)

/-- The position of a parameter of `source` in `target`, for a parameter that is needed. -/
def paramPosition (source target : List String) (position : Nat) : Checked Nat :=
  match source[position]? with
  | none => .error (.input (.unnamedParameter position))
  | some name =>
      match target.findIdx? (· = name) with
      | none => .error (.input (.unknownParameter name))
      | some found => .ok found

/-- The coefficients given by position in `source`, by position in `target`. Of two parameters with the
    same name the later one counts. Zero coefficients need no name. -/
def alignCoefficients (source target : List String) (coefficients : List Int) : Checked (List Int) :=
  let place (aligned : List Int) (entry : Int × Nat) : Checked (List Int) :=
    if entry.1 = 0 then .ok aligned
    else do
      return aligned.set (← paramPosition source target entry.2) entry.1
  coefficients.zipIdx.foldlM place (List.replicate target.length 0)

/-- The expression over another parameter list, parameters being matched by name. -/
def alignParams (form : AffineForm) (source target : List String) : Checked AffineForm := do
  return { form with params := ← alignCoefficients source target form.params }

/-! ### Texts -/

def renderTerm (coefficient : Int) (name : String) : String :=
  if coefficient = 1 then name
  else if coefficient = -1 then "-" ++ name
  else toString coefficient ++ "*" ++ name

def renderTerms (coefficients : List Int) (names : List String) (letter : String) : List String :=
  (coefficients.zipIdx.filter (·.1 ≠ 0)).map fun entry =>
    renderTerm entry.1 (Space.labelAt names letter entry.2)

/-- The text of an expression: dimensions, parameters, and the constant unless it is zero and not alone.
    A negative term is subtracted. -/
def renderWith (form : AffineForm) (dimNames paramNames : List String) : String :=
  let linear := renderTerms form.coeffs dimNames "d" ++ renderTerms form.params paramNames "p"
  let constant := if form.constant ≠ 0 || linear.isEmpty then [toString form.constant] else []
  (" + ".intercalate (linear ++ constant)).replace "+ -" "- "

def render (form : AffineForm) : String := form.renderWith [] []

end AffineForm

end AffineSchedule
