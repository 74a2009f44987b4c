
namespace AffineSchedule

inductive Json where
  | null
  | bool (value : Bool)
  | integer (value : Int)
  | real (text : String)
  | string (value : String)
  | array (items : List Json)
  | object (fields : List (String × Json))
deriving Repr, Inhabited

namespace Json

/-- The four lowercase hexadecimal digits of a control character. -/
def hexDigits (code : Nat) : String :=
  let digits := String.ofList (Nat.toDigits 16 code)
  String.ofList (List.replicate (4 - digits.length) '0') ++ digits

/-- A character inside a quoted text. Only the quote, the backslash and control characters are
    escaped, the common ones by a letter. -/
def escape (c : Char) : String :=
  if c = '"' then "\\\""
  else if c = '\\' then "\\\\"
  else if c = '\n' then "\\n"
  else if c = '\r' then "\\r"
  else if c = '\t' then "\\t"
  else if c.toNat = 8 then "\\b"
  else if c.toNat = 12 then "\\f"
  else if c.toNat < 32 then "\\u" ++ hexDigits c.toNat
  else c.toString

def quote (text : String) : String :=
  "\"" ++ String.join (text.toList.map escape) ++ "\""

mutual

/-- The text of a value without any blanks. -/
def compact : Json → String
  | null => "null"
  | bool value => if value then "true" else "false"
  | integer value => toString value
  | real text => text
  | string value => quote value
  | array items => "[" ++ ",".intercalate (compactItems items) ++ "]"
  | object fields => "\x7b" ++ ",".intercalate (compactFields fields) ++ "\x7d"

def compactItems : List Json → List String
  | [] => []
  | item :: later => compact item :: compactItems later

def compactFields : List (String × Json) → List String
  | [] => []
  | (name, value) :: later => (quote name ++ ":" ++ compact value) :: compactFields later

end

/-- The blanks that start a line at a nesting depth. -/
def indent (depth : Nat) : String :=
  String.ofList (List.replicate (2 * depth) ' ')

/-- Lays the given entries out one to a line between two brackets; no entries leave the brackets bare. -/
def block (opening closing : String) (depth : Nat) (entries : List String) : String :=
  if entries.isEmpty then opening ++ closing
  else
    opening ++ "\n" ++ ",\n".intercalate (entries.map (indent (depth + 1) ++ ·)) ++ "\n"
      ++ indent depth ++ closing

mutual

/-- The text of a value over several lines, two blanks per nesting level, at a given depth. -/
def prettyAt (depth : Nat) : Json → String
  | null => "null"
  | bool value => if value then "true" else "false"
  | integer value => toString value
  | real text => text
  | string value => quote value
  | array items => block "[" "]" depth (prettyItems (depth + 1) items)
  | object fields => block "\x7b" "\x7d" depth (prettyFields (depth + 1) fields)

def prettyItems (depth : Nat) : List Json → List String
  | [] => []
  | item :: later => prettyAt depth item :: prettyItems depth later

def prettyFields (depth : Nat) : List (String × Json) → List String
  | [] => []
  | (name, value) :: later => (quote name ++ ": " ++ prettyAt depth value) :: prettyFields depth later

end

def pretty (value : Json) : String := prettyAt 0 value

mutual

/-- The value with the fields of every object in alphabetical order of their names. -/
def sorted : Json → Json
  | array items => array (sortedItems items)
  | object fields => object ((sortedFields fields).mergeSort fun a b => a.1 ≤ b.1)
  | other => other

def sortedItems : List Json → List Json
  | [] => []
  | item :: later => sorted item :: sortedItems later

/-- The fields of an object, each content with its own fields in order. -/
def sortedFields : List (String × Json) → List (String × Json)
  | [] => []
  | (name, value) :: later => (name, sorted value) :: sortedFields later

end

end Json

end AffineSchedule
