
namespace AffineSchedule

/-- An access tag attached to one endpoint of a relation. -/
structure Tag where
  name : String
  dim : Nat
deriving DecidableEq, Repr

/-- One endpoint of a relation: a statement with its dimension count and an optional access tag. -/
structure Tuple where
  name : String
  dim : Nat
  tag : Option Tag := none
deriving DecidableEq, Repr

/-- Which endpoint of a relation is meant. -/
inductive Side where
  | source
  | target
deriving DecidableEq, Repr

namespace Tuple

/-- The number of tag dimensions; an untagged tuple has none. -/
def tagDim (tuple : Tuple) : Nat :=
  match tuple.tag with
  | none => 0
  | some tag => tag.dim

/-- Statement dimensions plus tag dimensions. -/
def totalDim (tuple : Tuple) : Nat :=
  tuple.dim + tuple.tagDim

def untagged (tuple : Tuple) : Tuple :=
  { name := tuple.name, dim := tuple.dim }

/-- `S[2]`, or `[S[2] -> A[1]]` for a tuple tagged with `A[1]`. -/
def render (tuple : Tuple) : String :=
  let statement := tuple.name ++ "[" ++ toString tuple.dim ++ "]"
  match tuple.tag with
  | none => statement
  | some tag => "[" ++ statement ++ " -> " ++ tag.name ++ "[" ++ toString tag.dim ++ "]]"

@[simp] theorem untagged_totalDim (tuple : Tuple) : tuple.untagged.totalDim = tuple.dim := rfl

end Tuple

end AffineSchedule
