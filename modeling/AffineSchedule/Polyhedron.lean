import AffineSchedule.AffineForm
import AffineSchedule.Linear.Lattice

namespace AffineSchedule

/-- An expression compared with zero. -/
structure Constraint where
  sense : Sense
  form : AffineForm
deriving DecidableEq, Repr

namespace Constraint

def lowerBound (position : Nat) (bound : Int) (dim params : Nat) : Checked Constraint := do
  let form ← Size.makeWith (AffineForm.dimension position) dim params
  let constant ← Word.neg bound
  return { sense := .nonnegative, form := { form with constant } }

def strictUpperBound (position : Nat) (bound : Int) (dim params : Nat) : Checked Constraint := do
  let form ← (← Size.makeWith (AffineForm.dimension position) dim params).neg
  let constant ← Word.sub bound 1
  return { sense := .nonnegative, form := { form with constant } }

def belowParam (position parameter dim params : Nat) : Checked Constraint := do
  let bound ← Size.makeWith (AffineForm.parameter parameter) dim params
  let form ← bound.sub (← Size.makeWith (AffineForm.dimension position) dim params)
  return { sense := .nonnegative, form := { form with constant := -1 } }

def isEquality (constraint : Constraint) : Bool := constraint.sense = .zero

def contains (constraint : Constraint) (dims params : List Int) : Checked Bool := do
  return constraint.sense.Holds (← constraint.form.evaluate dims params)

/-- The expressions that the constraint keeps non-negative; an equality has two. -/
def inequalities (constraint : Constraint) : Checked (List AffineForm) :=
  match constraint.sense with
  | .nonnegative => .ok [constraint.form]
  | .zero => do return [constraint.form, ← constraint.form.neg]

def isFalse (constraint : Constraint) : Bool :=
  match constraint.form.constant? with
  | none => false
  | some value => !decide (constraint.sense.Holds value)

def HasLayout (constraint : Constraint) (dim params : Nat) : Prop :=
  constraint.form.coeffs.length = dim ∧ constraint.form.params.length = params

instance (constraint : Constraint) (dim params : Nat) :
    Decidable (constraint.HasLayout dim params) :=
  inferInstanceAs (Decidable (_ ∧ _))

def renderWith (constraint : Constraint) (dimNames paramNames : List String) : String :=
  constraint.form.renderWith dimNames paramNames ++ " " ++ constraint.sense.symbol ++ " 0"

def render (constraint : Constraint) : String := constraint.renderWith [] []

end Constraint

/-- A conjunction of affine constraints over `dim` dimensions and `params` parameters. -/
structure Polyhedron where
  dim : Nat
  params : Nat
  constraints : List Constraint
deriving DecidableEq, Repr

namespace Polyhedron

def unconstrained (dim params : Nat) : Polyhedron :=
  { dim := dim, params := params, constraints := [] }

/-- Adds a constraint of the same layout at the end. -/
def add (polyhedron : Polyhedron) (constraint : Constraint) : Checked Polyhedron := do
  Checked.require (constraint.HasLayout polyhedron.dim polyhedron.params)
  return { polyhedron with constraints := polyhedron.constraints ++ [constraint] }

def addAll (polyhedron : Polyhedron) (constraints : List Constraint) : Checked Polyhedron :=
  constraints.foldlM add polyhedron

/-- The constraints that pin an expression to zero. -/
def equalities (polyhedron : Polyhedron) : List Constraint :=
  polyhedron.constraints.filter (·.isEquality)

/-- Every constraint holds at a point, tried in order. -/
def contains (polyhedron : Polyhedron) (dims params : List Int) : Checked Bool :=
  polyhedron.constraints.allM (·.contains dims params)

/-- Some constraint is a false constant, so the polyhedron is empty without any search. -/
def isObviouslyEmpty (polyhedron : Polyhedron) : Bool :=
  polyhedron.constraints.any (·.isFalse)

/-- The polyhedron over `dim` dimensions, where dimension `i` has become dimension `positions[i]`. -/
def relayout (polyhedron : Polyhedron) (dim : Nat) (positions : List Nat) : Checked Polyhedron := do
  let move (constraint : Constraint) : Checked Constraint := do
    return { constraint with form := ← constraint.form.relayout dim positions }
  return {
    dim := dim
    params := polyhedron.params
    constraints := ← polyhedron.constraints.mapM move }

def alignParams (polyhedron : Polyhedron) (source target : List String) : Checked Polyhedron := do
  let align (constraint : Constraint) : Checked Constraint := do
    return { constraint with form := ← constraint.form.alignParams source target }
  return {
    dim := polyhedron.dim
    params := target.length
    constraints := ← polyhedron.constraints.mapM align }

/-- The constraints joined by `and`. -/
def renderWith (polyhedron : Polyhedron) (dimNames paramNames : List String) : String :=
  " and ".intercalate (polyhedron.constraints.map (·.renderWith dimNames paramNames))


/-- The nodes that a single emptiness search may visit. -/
def emptinessBudget : Nat := 2000

/-- A constraint as a row over the dimensions followed by the parameters. -/
def constraintRow (dim : Nat) (constraint : Constraint) : Checked Linear.Row := do
  let dimTerms := constraint.form.coeffs.zipIdx.map fun entry => (entry.2, entry.1)
  let paramTerms ← constraint.form.params.zipIdx.mapM fun entry => do
    return (← Size.add dim entry.2, entry.1)
  Linear.Row.make constraint.sense
    { terms := dimTerms ++ paramTerms, constant := constraint.form.constant }

/-- The coefficients of an equality share a factor that does not divide its constant. -/
def isIndivisible (equality : Constraint) : Checked Bool := do
  let divisor ← equality.form.linearGcd
  if divisor = 0 then return decide (equality.form.constant ≠ 0)
  else return decide (equality.form.constant.tmod divisor ≠ 0)

/-- The polyhedron has no integer point, as far as the search budget can tell. -/
def isEmpty (polyhedron : Polyhedron) : Checked Bool := do
  if polyhedron.isObviouslyEmpty then return true
  if ← polyhedron.equalities.anyM isIndivisible then return true
  let rows ← polyhedron.constraints.mapM (constraintRow polyhedron.dim)
  let free ← Size.add polyhedron.dim polyhedron.params
  let outcome ← Linear.integerFeasible free rows emptinessBudget
  return decide (outcome = .infeasible)

end Polyhedron

/-- The integer points of a polyhedron in the space of a statement. -/
structure Domain where
  space : Space
  region : Polyhedron
deriving DecidableEq, Repr

namespace Domain

def unconstrained (space : Space) : Domain :=
  { space := space, region := Polyhedron.unconstrained space.dim space.params }

def add (domain : Domain) (constraint : Constraint) : Checked Domain := do
  return { domain with region := ← domain.region.add constraint }

/-- The points with every coordinate from zero to below its bound. -/
def rectangular (name : String) (bounds : List Int) : Checked Domain :=
  let dim := bounds.length
  let restrict (domain : Domain) (entry : Int × Nat) : Checked Domain := do
    let lower ← domain.add (← Constraint.lowerBound entry.2 0 dim 0)
    lower.add (← Constraint.strictUpperBound entry.2 entry.1 dim 0)
  bounds.zipIdx.foldlM restrict (unconstrained (Space.named name dim))

/-- The points with every coordinate from zero to below a parameter of its own. -/
def parametricBox (name : String) (params : List String) : Checked Domain :=
  let dim := params.length
  let restrict (domain : Domain) (position : Nat) : Checked Domain := do
    let lower ← domain.add (← Constraint.lowerBound position 0 dim dim)
    lower.add (← Constraint.belowParam position position dim dim)
  (List.range dim).foldlM restrict (unconstrained ((Space.named name dim).withParams params))

def alignParams (domain : Domain) (params : List String) : Checked Domain := do
  let labels ← domain.space.listParams
  return {
    region := ← domain.region.alignParams labels params
    space := domain.space.withParams params }

def render (domain : Domain) : Checked String := do
  let space ← domain.space.render
  let constraints :=
    if domain.region.constraints.isEmpty then ""
    else " : " ++ domain.region.renderWith domain.space.dimLabels domain.space.paramLabels
  return "\x7b " ++ space ++ constraints ++ " \x7d"

def find? (domains : List Domain) (name : String) : Option Domain :=
  domains.find? (·.space.name = name)

/-- Adds a domain unless its statement has one already. -/
def insert (domains : List Domain) (domain : Domain) : List Domain :=
  if (find? domains domain.space.name).isSome then domains else domains ++ [domain]

/-- The first domain of every statement, in order. -/
def collect (domains : List Domain) : List Domain :=
  domains.foldl insert []

end Domain

end AffineSchedule
