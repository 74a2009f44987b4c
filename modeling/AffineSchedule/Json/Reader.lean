import AffineSchedule.Json

namespace AffineSchedule

namespace Json

/-- A number as it is written. -/
structure Numeral where
  negative : Bool
  whole : List Char
  /-- The digits behind the point; there are none without a point. -/
  decimals : List Char
  /-- Whether the exponent is negative, and its digits. -/
  power : Option (Bool × List Char)
deriving DecidableEq, Repr

/-! ### Digits -/

def digitValue (digit : Char) : Nat := digit.toNat - '0'.toNat

def decimal (digits : List Char) : Nat :=
  digits.foldl (fun number digit => 10 * number + digitValue digit) 0

/-- Appends digits to a number as long as it fits in 64 bits, and tells the digits left over. -/
def appendDigits : Nat → List Char → Nat × List Char
  | number, [] => (number, [])
  | number, digit :: later =>
      let next := 10 * number + digitValue digit
      if next < Nat.pow 2 64 then appendDigits next later else (number, digit :: later)

/-! ### Double precision -/

/-- The double nearest to a natural number; of two equally near ones the even one. -/
def nearestDouble (number : Nat) : Nat :=
  let spacing := Nat.pow 2 (number.log2 - 52)
  let below := number / spacing
  let beyond := number % spacing
  if spacing < 2 * beyond ∨ (spacing = 2 * beyond ∧ below % 2 = 1) then (below + 1) * spacing
  else below * spacing

/-- The least number that rounds beyond the greatest double. -/
def doubleLimit : Nat := Nat.pow 2 1024 - Nat.pow 2 970

namespace Numeral

/-! ### Reading -/

/-- The digits behind a decimal point, if there is one; a point needs at least one digit. -/
def readDecimals : List Char → Option (List Char × List Char)
  | '.' :: rest =>
      let digits := rest.takeWhile Char.isDigit
      if digits.isEmpty then none else some (digits, rest.dropWhile Char.isDigit)
  | input => some ([], input)

/-- The sign and the digits of an exponent, if there is one. -/
def readPower : List Char → Option (Option (Bool × List Char) × List Char)
  | mark :: rest =>
      if mark = 'e' ∨ mark = 'E' then
        let (negative, body) := match rest with
          | '-' :: body => (true, body)
          | '+' :: body => (false, body)
          | _ => (false, rest)
        let digits := body.takeWhile Char.isDigit
        if digits.isEmpty then none else some (some (negative, digits), body.dropWhile Char.isDigit)
      else some (none, mark :: rest)
  | [] => some (none, [])

/-- A numeral whose sign has been read. -/
def readUnsigned (negative : Bool) (input : List Char) : Option (Numeral × List Char) := do
  let whole := input.takeWhile Char.isDigit
  if whole.isEmpty ∨ (whole.head? = some '0' ∧ whole.length ≠ 1) then none
  else
    let (decimals, afterDecimals) ← readDecimals (input.dropWhile Char.isDigit)
    let (power, rest) ← readPower afterDecimals
    return ({ negative, whole, decimals, power }, rest)

def read : List Char → Option (Numeral × List Char)
  | '-' :: rest => readUnsigned true rest
  | input => readUnsigned false input

/-! ### Meaning -/

/-- The leading digits that fit in 64 bits, and the power of ten that the fraction and the further digits
    before the point leave them with. -/
def leading (numeral : Numeral) : Nat × Int :=
  let (whole, beyond) := appendDigits 0 numeral.whole
  let (number, dropped) := appendDigits whole numeral.decimals
  (number, (beyond.length + dropped.length : Int) - numeral.decimals.length)

def writtenPower (numeral : Numeral) : Int :=
  match numeral.power with
  | none => 0
  | some (negative, digits) => if negative then -(decimal digits : Int) else decimal digits

/-- The numeral lies in the range of double precision. -/
def isFinite (numeral : Numeral) : Bool :=
  let (number, scale) := numeral.leading
  let power := scale + numeral.writtenPower
  number = 0 || power < 0
    || power ≤ 308 && nearestDouble number * nearestDouble (Nat.pow 10 power.toNat) < doubleLimit

/-- The integer that the numeral stands for, if it has neither fraction nor exponent and fits in 64 bits.
    Minus zero is none. -/
def integer? (numeral : Numeral) : Option Int :=
  if numeral.decimals.isEmpty && numeral.power.isNone then
    let magnitude := decimal numeral.whole
    if numeral.negative then
      if 0 < magnitude ∧ magnitude ≤ Nat.pow 2 63 then some (-(magnitude : Int)) else none
    else if magnitude < Nat.pow 2 64 then some magnitude else none
  else none

def render (numeral : Numeral) : String :=
  let fraction := if numeral.decimals.isEmpty then [] else '.' :: numeral.decimals
  let exponent := match numeral.power with
    | none => []
    | some (negative, digits) => if negative then 'e' :: '-' :: digits else 'e' :: digits
  String.ofList ((if numeral.negative then ['-'] else []) ++ numeral.whole ++ fraction ++ exponent)

/-- The value of a numeral, if it is in range. -/
def toJson? (numeral : Numeral) : Option Json :=
  match numeral.integer? with
  | some value => some (.integer value)
  | none => if numeral.isFinite then some (.real numeral.render) else none

end Numeral


namespace Quoted

/-! ### Escapes -/

def hexValue (c : Char) : Option Nat :=
  if '0' ≤ c ∧ c ≤ '9' then some (c.toNat - '0'.toNat)
  else if 'a' ≤ c ∧ c ≤ 'f' then some (c.toNat - 'a'.toNat + 10)
  else if 'A' ≤ c ∧ c ≤ 'F' then some (c.toNat - 'A'.toNat + 10)
  else none

def hexQuad : List Char → Option (Nat × List Char)
  | a :: b :: c :: d :: rest => do
      let value := ((← hexValue a) * 16 + (← hexValue b)) * 256 + (← hexValue c) * 16 + (← hexValue d)
      return (value, rest)
  | _ => none

/-- The characters that a backslash and a single character stand for. -/
def shortEscapes : List (Char × Char) :=
  [('"', '"'), ('\\', '\\'), ('/', '/'), ('b', Char.ofNat 8), ('f', Char.ofNat 12), ('n', '\n'), ('r', '\r'),
   ('t', '\t')]

/-- A character behind a backslash and `u`. A code in the upper surrogate range must be followed by one
    in the lower range, and the two stand for one character. -/
def unicodeEscape (input : List Char) : Option (Char × List Char) := do
  let (high, rest) ← hexQuad input
  if 0xDC00 ≤ high ∧ high < 0xE000 then none
  else if 0xD800 ≤ high ∧ high < 0xDC00 then
    match rest with
    | '\\' :: 'u' :: lowInput =>
        let (low, rest) ← hexQuad lowInput
        if 0xDC00 ≤ low ∧ low < 0xE000 then
          return (Char.ofNat (0x10000 + (high - 0xD800) * 0x400 + (low - 0xDC00)), rest)
        else none
    | _ => none
  else return (Char.ofNat high, rest)

/-- The character behind a backslash. -/
def escaped : List Char → Option (Char × List Char)
  | 'u' :: rest => unicodeEscape rest
  | letter :: rest => (shortEscapes.lookup letter).map (·, rest)
  | [] => none

/-- The input behind an escape whose backslash has been read. -/
def skipEscaped : List Char → Option (List Char)
  | 'u' :: rest => (hexQuad rest).map (·.2)
  | letter :: rest => (shortEscapes.lookup letter).map fun _ => rest
  | [] => none

/-! ### Texts

Every step consumes a character, so the length of the input bounds the number of steps. -/

/-- The characters up to the closing quote, collected in reverse. -/
def readTail : Nat → List Char → List Char → Option (String × List Char)
  | 0, _, _ => none
  | _ + 1, _, [] => none
  | steps + 1, reversed, c :: rest =>
      if c = '"' then some (String.ofList reversed.reverse, rest)
      else if c = '\\' then do
        let (character, rest) ← escaped rest
        readTail steps (character :: reversed) rest
      else if c.toNat < 32 then none
      else readTail steps (c :: reversed) rest

def read (input : List Char) : Option (String × List Char) := readTail (input.length + 1) [] input

/-- The input behind the closing quote. -/
def skipTail : Nat → List Char → Option (List Char)
  | 0, _ => none
  | _ + 1, [] => none
  | steps + 1, c :: rest =>
      if c = '"' then some rest
      else if c = '\\' then do
        let rest ← skipEscaped rest
        skipTail steps rest
      else if c.toNat < 32 then none
      else skipTail steps rest

def skip (input : List Char) : Option (List Char) := skipTail (input.length + 1) input

end Quoted


/-- Which parts of a value are wanted. -/
inductive Outline where
  | whole
  /-- No part of it; the value then stands as `null`. -/
  | nothing
  /-- Of an object, the parts that the outlines of its fields tell; any other value is wanted whole. -/
  | fields (outlineOf : String → Outline)

namespace Outline

def ofField (outline : Outline) (name : String) : Outline :=
  match outline with
  | fields outlineOf => outlineOf name
  | _ => outline

/-- The fields of an object that are listed; the others are not wanted. -/
def listed (names : List String) : Outline := fields fun name => if name ∈ names then whole else nothing

end Outline

namespace Reader

/-! Every reader answers what it has read together with the rest of the input. -/

/-- The blanks allowed between two lexical elements. -/
def isBlank (c : Char) : Bool :=
  c = ' ' || c = '\n' || c = '\t' || c = '\r'

/-- The input from its first character on that is no blank. -/
def skipBlanks (input : List Char) : List Char := input.dropWhile isBlank

/-! ### Skipping -/

/-- A container that has been opened and not yet closed. -/
inductive Container where
  | array
  | object
deriving DecidableEq, Repr

/-- The input behind a value that is no container. -/
def skipScalar : List Char → Option (List Char)
  | 'n' :: 'u' :: 'l' :: 'l' :: rest => some rest
  | 't' :: 'r' :: 'u' :: 'e' :: rest => some rest
  | 'f' :: 'a' :: 'l' :: 's' :: 'e' :: rest => some rest
  | '"' :: rest => Quoted.skip rest
  | input => (Numeral.read input).map (·.2)

/-- The input behind the name of a field and its colon. -/
def skipName (input : List Char) : Option (List Char) :=
  match skipBlanks input with
  | '"' :: rest => do
      match skipBlanks (← Quoted.skip rest) with
      | ':' :: rest => some rest
      | _ => none
  | _ => none

/-- The input behind a value and the containers around it, the innermost first. The flag tells whether
    the value is still to come. Every step consumes a character. -/
def skipWithin : Nat → Bool → List Container → List Char → Option (List Char)
  | 0, _, _, _ => none
  | steps + 1, true, containers, input =>
      match skipBlanks input with
      | '[' :: rest =>
          match skipBlanks rest with
          | ']' :: rest => skipWithin steps false containers rest
          | _ => skipWithin steps true (.array :: containers) rest
      | '\x7b' :: rest =>
          match skipBlanks rest with
          | '\x7d' :: rest => skipWithin steps false containers rest
          | _ =>
              match skipName rest with
              | none => none
              | some rest => skipWithin steps true (.object :: containers) rest
      | rest =>
          match skipScalar rest with
          | none => none
          | some rest => skipWithin steps false containers rest
  | _ + 1, false, [], input => some input
  | steps + 1, false, .array :: outer, input =>
      match skipBlanks input with
      | ',' :: rest => skipWithin steps true (.array :: outer) rest
      | ']' :: rest => skipWithin steps false outer rest
      | _ => none
  | steps + 1, false, .object :: outer, input =>
      match skipBlanks input with
      | ',' :: rest =>
          match skipName rest with
          | none => none
          | some rest => skipWithin steps true (.object :: outer) rest
      | '\x7d' :: rest => skipWithin steps false outer rest
      | _ => none

def skip (input : List Char) : Option (List Char) := skipWithin (input.length + 2) true [] input

/-! ### Reading -/

def number (input : List Char) : Option (Json × List Char) := do
  let (numeral, rest) ← Numeral.read input
  return (← numeral.toJson?, rest)

mutual

/-- A value. `depth` counts the containers that may still be opened, plus one; `steps` bounds the number
    of values and separators, each of which consumes a character. -/
def value : Nat → Outline → Nat → List Char → Option (Json × List Char)
  | 0, _, _, _ => none
  | _ + 1, .nothing, _, input => (skip input).map (.null, ·)
  | steps + 1, outline, depth, input =>
      match skipBlanks input with
      | 'n' :: 'u' :: 'l' :: 'l' :: rest => some (.null, rest)
      | 't' :: 'r' :: 'u' :: 'e' :: rest => some (.bool true, rest)
      | 'f' :: 'a' :: 'l' :: 's' :: 'e' :: rest => some (.bool false, rest)
      | '"' :: rest => do
          let (text, rest) ← Quoted.read rest
          return (.string text, rest)
      | '[' :: rest =>
          if depth ≤ 1 then none
          else match skipBlanks rest with
            | ']' :: rest => some (.array [], rest)
            | rest => do
                let (items, rest) ← items steps (depth - 1) rest
                return (.array items, rest)
      | '\x7b' :: rest =>
          if depth ≤ 1 then none
          else match skipBlanks rest with
            | '\x7d' :: rest => some (.object [], rest)
            | rest => do
                let (fields, rest) ← fields steps outline (depth - 1) rest
                return (.object fields, rest)
      | rest => number rest

def items : Nat → Nat → List Char → Option (List Json × List Char)
  | 0, _, _ => none
  | steps + 1, depth, input => do
      let (item, rest) ← value steps .whole depth input
      match skipBlanks rest with
      | ',' :: rest =>
          let (later, rest) ← items steps depth rest
          return (item :: later, rest)
      | ']' :: rest => return ([item], rest)
      | _ => none

def fields : Nat → Outline → Nat → List Char → Option (List (String × Json) × List Char)
  | 0, _, _, _ => none
  | steps + 1, outline, depth, input => do
      match skipBlanks input with
      | '"' :: rest =>
          let (name, rest) ← Quoted.read rest
          match skipBlanks rest with
          | ':' :: rest =>
              let (content, rest) ← value steps (outline.ofField name) depth rest
              match skipBlanks rest with
              | ',' :: rest =>
                  let (later, rest) ← fields steps outline depth rest
                  return ((name, content) :: later, rest)
              | '\x7d' :: rest => return ([(name, content)], rest)
              | _ => none
          | _ => none
      | _ => none

end

end Reader

/-- The containers a text may nest, plus one. -/
def nestingLimit : Nat := 128

/-- Reads the wanted parts of a whole text that holds one value, with blanks allowed around it. -/
def read (outline : Outline) (text : String) : Option Json :=
  let input := text.toList
  match Reader.value (2 * input.length + 2) outline nestingLimit input with
  | some (value, rest) => if (Reader.skipBlanks rest).isEmpty then some value else none
  | none => none

def parse (text : String) : Option Json := read .whole text

end Json

end AffineSchedule
