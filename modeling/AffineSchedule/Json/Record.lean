import AffineSchedule.Json
import AffineSchedule.Word

namespace AffineSchedule

namespace Json

def isNull : Json → Bool
  | null => true
  | _ => false

def int? : Json → Option Int
  | integer value => some value
  | _ => none

/-- A machine integer. -/
def word? (value : Json) : Option Int := do
  let number ← value.int?
  if Word.Fits number then some number else none

def natBelow? (limit : Nat) (value : Json) : Option Nat := do
  let number ← value.int?
  if 0 ≤ number ∧ number < limit then some number.toNat else none

/-- A count or an index: a natural number that fits in 64 bits. -/
def count? (value : Json) : Option Nat := value.natBelow? (Nat.pow 2 64)

def string? : Json → Option String
  | string value => some value
  | _ => none

def bool? : Json → Option Bool
  | bool value => some value
  | _ => none

def items? : Json → Option (List Json)
  | array items => some items
  | _ => none

def fields? : Json → Option (List (String × Json))
  | object fields => some fields
  | _ => none

def list? {α : Type} (read : Json → Option α) (value : Json) : Option (List α) := do
  (← value.items?).mapM read

/-- An optional value: `null` stands for its absence. -/
def option? {α : Type} (read : Json → Option α) : Json → Option (Option α)
  | null => some none
  | value => (read value).map some

/-- The content of a field of an object; the field must not be repeated. -/
def lookup? (fields : List (String × Json)) (name : String) : Option (Option Json) :=
  match fields.filter (·.1 = name) with
  | [] => some none
  | [field] => some (some field.2)
  | _ => none

/-- The contents of the declared fields of a record, in declared order. -/
def record? (names : List String) : Json → Option (List (Option Json))
  | object fields => names.mapM (lookup? fields)
  | array items =>
      if items.length ≤ names.length then
        some (items.map some ++ List.replicate (names.length - items.length) none)
      else none
  | _ => none

def required? {α : Type} (read : Json → Option α) (field : Option Json) : Option α := do
  read (← field)

def optional? {α : Type} (fallback : α) (read : Json → Option α) : Option Json → Option α
  | none => some fallback
  | some value => read value

/-- What may be written for a content that is empty. -/
inductive EmptyContent where
  | null
  | nullOrObject
deriving DecidableEq, Repr

/-- The value stands for an empty content. -/
def EmptyContent.admits (empty : EmptyContent) : Json → Bool
  | .null => true
  | .object [] => empty = .nullOrObject
  | _ => false

/-- One of several named alternatives, written as its name or as an object that maps the name to an
    empty content. -/
def choice? {α : Type} (empty : EmptyContent) (alternatives : List (String × α)) : Json → Option α
  | string name => alternatives.lookup name
  | object [(name, content)] => if empty.admits content then alternatives.lookup name else none
  | _ => none

end Json

end AffineSchedule
