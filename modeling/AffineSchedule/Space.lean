import AffineSchedule.Word

namespace AffineSchedule

/-- The space of a statement. The name lists may be shorter or longer than the counts they go with. -/
structure Space where
  name : String
  dim : Nat
  params : Nat
  dimNames : List String
  paramNames : List String
deriving DecidableEq, Repr, Inhabited

namespace Space

/-- A space without parameters and without names for its dimensions. -/
def named (name : String) (dim : Nat) : Space :=
  { name := name, dim := dim, params := 0, dimNames := [], paramNames := [] }

def withParams (space : Space) (names : List String) : Space :=
  { space with params := names.length, paramNames := names }

/-- The name at a position, or a letter and the position if there is none. -/
def labelAt (names : List String) (letter : String) (position : Nat) : String :=
  names.getD position (letter ++ toString position)

def dimLabels (space : Space) : List String :=
  (List.range space.dim).map (labelAt space.dimNames "i")

def paramLabels (space : Space) : List String :=
  (List.range space.params).map (labelAt space.paramNames "p")

/-- The names of all dimensions, if there can be that many. -/
def listDims (space : Space) : Checked (List String) := do
  Size.reserve space.dim
  return space.dimLabels

/-- The names of all parameters, if there can be that many. -/
def listParams (space : Space) : Checked (List String) := do
  Size.reserve space.params
  return space.paramLabels

def sameTuple (left right : Space) : Bool :=
  left.name = right.name && left.dim = right.dim

/-- `S[i, j]`, or `[N] -> S[i, j]` in the presence of parameters. -/
def render (space : Space) : Checked String := do
  let params ← space.listParams
  let heading := if params.isEmpty then "" else "[" ++ ", ".intercalate params ++ "] -> "
  return heading ++ space.name ++ "[" ++ ", ".intercalate (← space.listDims) ++ "]"

@[simp] theorem length_paramLabels (space : Space) : space.paramLabels.length = space.params := by
  simp [paramLabels]

end Space

end AffineSchedule
