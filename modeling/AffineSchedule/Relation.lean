import AffineSchedule.Relation.Conjunct
import AffineSchedule.RowMatrix

namespace AffineSchedule

/-- A union of conjuncts between two endpoints. -/
structure Relation where
  source : Tuple
  target : Tuple
  params : List String
  disjuncts : List Conjunct
deriving DecidableEq, Repr

namespace Relation

/-! ### Building relations -/

def empty (source target : Tuple) (params : List String) : Relation :=
  { source := source, target := target, params := params, disjuncts := [] }

def freshDisjunct (relation : Relation) : Checked Conjunct :=
  Conjunct.unconstrained relation.source.totalDim relation.target.totalDim relation.params.length

def unconstrained (source target : Tuple) (params : List String) : Checked Relation := do
  let relation := empty source target params
  return { relation with disjuncts := [← relation.freshDisjunct] }

/-- The conjunct of all pairs of points of two domains, over the parameters of the first. -/
def pairs (source target : Domain) : Checked Conjunct := do
  Size.reserve source.space.params
  let all ← Conjunct.unconstrained source.space.dim target.space.dim source.space.params
  (← all.restrict .source source).restrict .target target

def between (source target : Domain) (conjunct : Conjunct) : Relation :=
  { source := { name := source.space.name, dim := source.space.dim }
    target := { name := target.space.name, dim := target.space.dim }
    params := source.space.paramLabels
    disjuncts := [conjunct] }

/-- Every pair of points of two domains. -/
def product (source target : Domain) : Checked Relation := do
  return between source target (← pairs source target)

/-- Requires target dimension `position` to be source dimension `position` plus an offset. -/
def addShift (conjunct : Conjunct) (offset : Int) (position : Nat) : Checked Conjunct := do
  let distance ← (← conjunct.column .target position).sub (← conjunct.column .source position)
  conjunct.add { sense := .zero, form := ← distance.sub (← conjunct.constantly offset) }

/-- The pairs of points of two domains of the same dimension that are a fixed offset apart. -/
def translation (source target : Domain) (offsets : List Int) :
    Checked Relation := do
  Checked.require (source.space.dim = target.space.dim)
  Checked.require (offsets.length = source.space.dim)
  let all ← pairs source target
  let shifted ← offsets.zipIdx.foldlM (fun conjunct entry => addShift conjunct entry.1 entry.2) all
  return between source target shifted

/-- The union of two relations between the same endpoints. -/
def union (left right : Relation) : Checked Relation := do
  Checked.require (left.source = right.source)
  Checked.require (left.target = right.target)
  return { left with disjuncts := left.disjuncts ++ right.disjuncts }

/-! ### Tags -/

def endpoint (relation : Relation) : Side → Tuple
  | .source => relation.source
  | .target => relation.target

def isTagged (relation : Relation) : Bool :=
  relation.source.tag.isSome || relation.target.tag.isSome

def isFullyTagged (relation : Relation) : Bool :=
  relation.source.tag.isSome && relation.target.tag.isSome

/-- The relation between statement instances, tag columns having become locals. -/
def untag (relation : Relation) : Checked Relation := do
  if relation.isTagged then
    return {
      source := relation.source.untagged
      target := relation.target.untagged
      params := relation.params
      disjuncts := ← relation.disjuncts.mapM (·.untag relation.source relation.target) }
  else return relation

/-- The tag without dimensions that stands in for a missing one. -/
def dummyTag : Tag := { name := "__dummy", dim := 0 }

/-- The relation with the dummy tag on both endpoints in place of their own tags. -/
def withDummyTags (relation : Relation) : Relation :=
  { relation with
    source := { relation.source.untagged with tag := some dummyTag }
    target := { relation.target.untagged with tag := some dummyTag } }

/-! ### Parameters and layout -/

def alignParams (relation : Relation) (params : List String) : Checked Relation := do
  let align (conjunct : Conjunct) : Checked Conjunct := do
    return { conjunct with system := ← conjunct.system.alignParams relation.params params }
  return { relation with params := params, disjuncts := ← relation.disjuncts.mapM align }

/-- Every disjunct has the layout that the endpoints and the parameters declare. -/
def validate (relation : Relation) : Checked Unit :=
  relation.disjuncts.forM
    (·.validate relation.source relation.target relation.params.length)

/-! ### Points -/

/-- Every disjunct holds a false constant. -/
def isObviouslyEmpty (relation : Relation) : Bool :=
  relation.disjuncts.all (·.system.isObviouslyEmpty)

/-- A pair lies in some disjunct without locals whose column counts it has. -/
def contains (relation : Relation) (source target params : List Int) : Checked Bool :=
  let candidates := relation.disjuncts.filter fun conjunct =>
    conjunct.locals = 0 ∧ conjunct.inputs = source.length ∧ conjunct.outputs = target.length
  candidates.anyM (·.system.contains (source ++ target) params)

/-- Adds to a conjunct that a source row and a target row have the same value. -/
def equateRows (conjunct : Conjunct) (rows : List Int × List Int) : Checked Conjunct := do
  conjunct.add { sense := .zero, form := ← conjunct.rowDistance rows.1 rows.2 }

/-- The pairs on which every source row has the value of the target row at the same position. -/
def onEqualRows (relation : Relation) (sourceRows targetRows : RowMatrix) :
    Checked Relation := do
  let rows := sourceRows.rows.zip targetRows.rows
  return { relation with disjuncts := ← relation.disjuncts.mapM fun conjunct => rows.foldlM equateRows conjunct }

/-! ### Texts and collections -/

def render (relation : Relation) : String :=
  let disjuncts := relation.disjuncts.map (·.system.renderWith [] relation.params)
  let body := if disjuncts.isEmpty then "" else " : " ++ "; ".intercalate disjuncts
  "\x7b " ++ relation.source.render ++ " -> " ++ relation.target.render ++ body ++ " \x7d"

/-- Adds a relation to a collection: its disjuncts join the first relation between the same endpoints,
    whose parameter list is kept. -/
def insert (relation : Relation) : List Relation → List Relation
  | [] => [relation]
  | first :: later =>
      if first.source = relation.source ∧ first.target = relation.target then
        { first with disjuncts := first.disjuncts ++ relation.disjuncts } :: later
      else first :: insert relation later

/-- The collection of several relations, one per pair of endpoints, in order of first appearance. -/
def collect (relations : List Relation) : List Relation :=
  relations.foldl (fun collected relation => insert relation collected) []

end Relation

end AffineSchedule
