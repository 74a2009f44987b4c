import AffineSchedule.Relation.Query

namespace AffineSchedule

/-- How the coefficients of a form attach to the columns of a conjunct. -/
inductive ConeKind where
  /-- One coefficient per dimension of the difference between target and source. -/
  | distance
  /-- One coefficient per source column and one per target column. -/
  | paired
deriving DecidableEq, Repr

/-- A condition on the coefficients and the multipliers: the weighted sum of both, compared with zero. -/
structure ConeRow where
  sense : Sense
  coefficients : List Int
  multipliers : List Int
deriving DecidableEq, Repr

/-- The forms that are non-negative on a conjunct. Coefficients are laid out as constant, parameters,
    dimensions. An empty conjunct has no rows, so every form qualifies. -/
structure Cone where
  dim : Nat
  multiplierCount : Nat
  rows : List ConeRow
deriving DecidableEq, Repr

namespace Cone

/-- The number of dimension coefficients of a form. -/
def dimCoefficients (kind : ConeKind) (conjunct : Conjunct) : Nat :=
  match kind with
  | .distance => conjunct.inputs
  | .paired => conjunct.inputs + conjunct.outputs

/-- The coefficient that belongs to a column of the conjunct, with its sign. Locals have none. -/
def columnCoefficient (kind : ConeKind) (conjunct : Conjunct) (column : Nat) : Option (Nat × Int) :=
  match kind with
  | .distance =>
      if column < conjunct.inputs then some (column, -1)
      else if column < 2 * conjunct.inputs then some (column - conjunct.inputs, 1)
      else none
  | .paired => if column < conjunct.inputs + conjunct.outputs then some (column, 1) else none

/-- The weights of a row on one coefficient. -/
def singleWeight (dim position : Nat) (weight : Int) : List Int :=
  (List.replicate dim 0).set position weight

/-- The negated entries of all inequalities at one place, which every inequality must have. -/
def negatedEntries (inequalities : List AffineForm) (entry : AffineForm → Option Int) :
    Checked (List Int) :=
  inequalities.mapM fun inequality => do Word.neg (← Checked.ofOption (entry inequality))

/-- The constant of a form is at least the combination of the constants. -/
def constantRow (dim : Nat) (inequalities : List AffineForm) : Checked ConeRow := do
  return {
    sense := .nonnegative
    coefficients := singleWeight dim 0 1
    multipliers := ← negatedEntries inequalities fun inequality => some inequality.constant }

/-- The coefficient of a parameter is the combination of its coefficients. -/
def paramRow (dim : Nat) (inequalities : List AffineForm) (position : Nat) : Checked ConeRow := do
  return {
    sense := .zero
    coefficients := singleWeight dim (1 + position) 1
    multipliers := ← negatedEntries inequalities (·.params[position]?) }

/-- The coefficient of a column is the combination of its coefficients. -/
def columnRow (kind : ConeKind) (conjunct : Conjunct) (dim : Nat) (inequalities : List AffineForm)
    (column : Nat) : Checked ConeRow := do
  let coefficients := match columnCoefficient kind conjunct column with
    | none => List.replicate dim 0
    | some (position, sign) => singleWeight dim (1 + conjunct.params + position) sign
  return {
    sense := .zero
    coefficients := coefficients
    multipliers := ← negatedEntries inequalities (·.coeffs[column]?) }

/-- The rows for a non-empty conjunct, one multiplier per inequality. -/
def build (kind : ConeKind) (conjunct : Conjunct) (dim : Nat) : Checked Cone := do
  let inequalities := (← conjunct.system.constraints.mapM (·.inequalities)).flatten
  Size.reserve (← Size.checked (1 + conjunct.params + conjunct.columns))
  Size.reserve dim
  let constant ← constantRow dim inequalities
  let params ← (List.range conjunct.params).mapM (paramRow dim inequalities)
  let columns ← (List.range conjunct.columns).mapM (columnRow kind conjunct dim inequalities)
  return {
    dim := dim
    multiplierCount := inequalities.length
    rows := constant :: (params ++ columns) }

/-- The cone of a conjunct. Distances need as many source as target columns. -/
def ofConjunct (kind : ConeKind) (conjunct : Conjunct) : Checked Cone := do
  if kind = .distance ∧ conjunct.inputs ≠ conjunct.outputs then
    throw (.internal (.intraDimensions conjunct.inputs conjunct.outputs))
  let dim ← Size.checked (1 + conjunct.params + dimCoefficients kind conjunct)
  if ← conjunct.system.isEmpty then
    return { dim := dim, multiplierCount := 0, rows := [] }
  build kind conjunct dim

def isUniverse (cone : Cone) : Bool := cone.rows.isEmpty

/-- A row with forms in place of the coefficients, and multipliers from column `firstMultiplier` on. -/
def instantiate (row : ConeRow) (mapping : List Linear.Form) (firstMultiplier : Nat) :
    Checked Linear.Row := do
  let combined ← Linear.Form.combination (mapping.zip row.coefficients)
  let multipliers := (row.multipliers.zipIdx.filter (·.1 ≠ 0)).map fun entry =>
    (firstMultiplier + entry.2, entry.1)
  Linear.Row.make row.sense { combined with terms := combined.terms ++ multipliers }

/-- Adds the cone to a linear problem, with one form per coefficient. The new rows are the last ones of
    the result. -/
def plugInto (cone : Cone) (problem : Linear.Problem) (mapping : List Linear.Form) :
    Checked Linear.Problem := do
  if mapping.length ≠ cone.dim then
    throw (.internal (.mappingLength mapping.length cone.dim))
  let addInstance (extended : Linear.Problem) (row : ConeRow) : Checked Linear.Problem := do
    extended.addRow (← instantiate row mapping problem.columns)
  cone.rows.foldlM addInstance (← problem.addColumns cone.multiplierCount false)

end Cone

/-- Cones computed so far, by kind and conjunct. -/
structure ConeCache where
  entries : List ((ConeKind × Conjunct) × Cone)
deriving DecidableEq, Repr

namespace ConeCache

def empty : ConeCache := { entries := [] }

def size (cache : ConeCache) : Nat := cache.entries.length

/-- The cone of a conjunct, computed on first use. -/
def get (cache : ConeCache) (kind : ConeKind) (conjunct : Conjunct) :
    Checked (Cone × ConeCache) :=
  match cache.entries.lookup (kind, conjunct) with
  | some cone => .ok (cone, cache)
  | none => do
      let cone ← Cone.ofConjunct kind conjunct
      return (cone, { entries := ((kind, conjunct), cone) :: cache.entries })

end ConeCache

end AffineSchedule
