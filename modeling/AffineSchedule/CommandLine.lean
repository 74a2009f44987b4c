import AffineSchedule.Layout
import AffineSchedule.Text.Visible

namespace AffineSchedule

/-- What is printed of a schedule. -/
inductive Emission where
  /-- One padded map per statement. -/
  | schedule
  /-- The same maps read off the band forest. -/
  | map
  | forest
  /-- Schedule and band forest in the exchange format. -/
  | json
deriving DecidableEq, Repr

def Emission.named : List (String × Emission) :=
  [("schedule", schedule), ("map", map), ("forest", forest), ("json", json)]

structure Invocation where
  input : String := ""
  output : Option String := none
  maxCoefficient : Option Nat := none
  maxConstantTerm : Option Nat := none
  noSplitScaled : Bool := false
  algorithm : Option Algorithm := none
  fuse : Option Fusion := none
  maximizeBandDepth : Bool := false
  outerCoincidence : Bool := false
  separateComponents : Bool := false
  emit : Emission := .schedule
deriving DecidableEq, Repr

/-- Why a command line asks for no schedule. -/
inductive Stop where
  | usage
  | version
  | help
deriving DecidableEq, Repr

inductive Setting where
  | output
  | maxCoefficient
  | maxConstantTerm
  | noSplitScaled
  | algorithm
  | fuse
  | maximizeBandDepth
  | outerCoincidence
  | separateComponents
  | emit
  | verbose
  | quiet
  | version
  | help
deriving DecidableEq, Repr

namespace Setting

/-- The options by long name. -/
def named : List (String × Setting) :=
  [("output", output), ("max-coefficient", maxCoefficient), ("max-constant-term", maxConstantTerm),
    ("no-split-scaled", noSplitScaled), ("algorithm", algorithm), ("fuse", fuse),
    ("maximize-band-depth", maximizeBandDepth), ("outer-coincidence", outerCoincidence),
    ("separate-components", separateComponents), ("emit", emit), ("verbose", verbose), ("quiet", quiet),
    ("version", version), ("help", help)]

def lettered : List (Char × Setting) :=
  [('o', output), ('v', verbose), ('q', quiet), ('V', version), ('h', help)]

def takesValue : Setting → Bool
  | output | maxCoefficient | maxConstantTerm | algorithm | fuse | emit => true
  | _ => false

end Setting

/-! ### Values -/

/-- The value of a run of decimal digits, which must not be empty. -/
def digitsValue? (digits : List Char) : Option Nat :=
  if digits.isEmpty ∨ !digits.all Char.isDigit then none
  else some (digits.foldl (fun value digit => 10 * value + (digit.toNat - '0'.toNat)) 0)

/-- A bound: decimal digits behind an optional sign, for a number that fits in 32 bits. -/
def boundValue? (text : String) : Option Nat := do
  let value ← match text.toList with
    | '+' :: digits => digitsValue? digits
    | '-' :: digits => do
        let size ← digitsValue? digits
        if size = 0 then some 0 else none
    | digits => digitsValue? digits
  if value < Nat.pow 2 32 then some value else none

/-- A path, which must not be empty. -/
def pathValue? (text : String) : Option String := if text.isEmpty then none else some text

/-- An argument that can be the value of an option before it. -/
def looksLikeValue (argument : String) : Bool := argument = "-" || !argument.startsWith "-"

/-! ### Reading -/

/-- A command line read in part. -/
structure Draft where
  invocation : Invocation := {}
  given : List Setting := []
  hasInput : Bool := false
deriving DecidableEq, Repr

namespace Draft

def note (draft : Draft) (setting : Setting) : Except Stop Draft :=
  if setting ≠ .verbose ∧ setting ∈ draft.given then .error .usage
  else .ok { draft with given := setting :: draft.given }

/-- The command line with the value of an option. -/
def assign? (invocation : Invocation) (setting : Setting) (value : String) : Option Invocation := do
  match setting with
  | .output => return { invocation with output := some (← pathValue? value) }
  | .maxCoefficient => return { invocation with maxCoefficient := some (← boundValue? value) }
  | .maxConstantTerm => return { invocation with maxConstantTerm := some (← boundValue? value) }
  | .algorithm => return { invocation with algorithm := some (← Algorithm.named.lookup value) }
  | .fuse => return { invocation with fuse := some (← Fusion.named.lookup value) }
  | .emit => return { invocation with emit := ← Emission.named.lookup value }
  | _ => none

def setValue (draft : Draft) (setting : Setting) (value : String) : Except Stop Draft := do
  let noted ← draft.note setting
  match assign? noted.invocation setting value with
  | some invocation => return { noted with invocation := invocation }
  | none => throw .usage

def setFlag (draft : Draft) (setting : Setting) : Except Stop Draft := do
  let noted ← draft.note setting
  let change (invocation : Invocation) : Except Stop Draft := .ok { noted with invocation := invocation }
  match setting with
  | .version => throw .version
  | .help => throw .help
  | .noSplitScaled => change { noted.invocation with noSplitScaled := true }
  | .maximizeBandDepth => change { noted.invocation with maximizeBandDepth := true }
  | .outerCoincidence => change { noted.invocation with outerCoincidence := true }
  | .separateComponents => change { noted.invocation with separateComponents := true }
  | _ => return noted

def setInput (draft : Draft) (argument : String) : Except Stop Draft :=
  if draft.hasInput then .error .usage
  else match pathValue? argument with
    | none => .error .usage
    | some path =>
        .ok { draft with invocation := { draft.invocation with input := path }, hasInput := true }

/-- Reads a long option. Tells the option if its value has to follow. -/
def readLong (draft : Draft) (body : List Char) : Except Stop (Draft × Option Setting) := do
  let name := String.ofList (body.takeWhile (· ≠ '='))
  match Setting.named.lookup name, body.dropWhile (· ≠ '=') with
  | none, _ => throw .usage
  | some setting, [] =>
      if setting.takesValue then return (draft, some setting) else return (← draft.setFlag setting, none)
  | some setting, _ :: value =>
      if setting.takesValue then return (← draft.setValue setting (String.ofList value), none)
      else throw .usage

/-- Reads joined short options. Tells the option if its value has to follow. -/
def readLetters (draft : Draft) : List Char → Except Stop (Draft × Option Setting)
  | [] => .ok (draft, none)
  | letter :: later => do
      match Setting.lettered.lookup letter with
      | none => throw .usage
      | some setting =>
          if setting.takesValue then
            match later with
            | [] => return (draft, some setting)
            | '=' :: value => return (← draft.setValue setting (String.ofList value), none)
            | value => return (← draft.setValue setting (String.ofList value), none)
          else (← draft.setFlag setting).readLetters later

/-- Reads an argument. Tells the option if its value has to follow. -/
def readArgument (draft : Draft) (argument : String) : Except Stop (Draft × Option Setting) :=
  match argument.toList with
  | '-' :: '-' :: body => draft.readLong body
  | '-' :: letter :: letters => draft.readLetters (letter :: letters)
  | _ => do return (← draft.setInput argument, none)

/-- Reads the arguments in turn. `pending` is an option that waits for its value. -/
def readAll (draft : Draft) (pending : Option Setting) : List String → Except Stop Draft
  | [] => if pending.isSome then .error .usage else .ok draft
  | argument :: later => do
      match pending with
      | some setting =>
          if looksLikeValue argument then (← draft.setValue setting argument).readAll none later
          else throw .usage
      | none =>
          if argument = "--" then later.foldlM setInput draft
          else
            let (next, waiting) ← draft.readArgument argument
            next.readAll waiting later

end Draft

def Invocation.parse (arguments : List String) : Except Stop Invocation := do
  let draft ← ({} : Draft).readAll none arguments
  if draft.hasInput then return draft.invocation else throw .usage

/-- The options of a problem with those of the command line laid over them. -/
def Invocation.override (invocation : Invocation) (options : Options) : Options :=
  { options with
    maxCoefficient := invocation.maxCoefficient <|> options.maxCoefficient
    maxConstantTerm := invocation.maxConstantTerm <|> options.maxConstantTerm
    splitScaled := options.splitScaled && !invocation.noSplitScaled
    algorithm := invocation.algorithm.getD options.algorithm
    fuse := invocation.fuse.getD options.fuse
    maximizeBandDepth := options.maximizeBandDepth || invocation.maximizeBandDepth
    outerCoincidence := options.outerCoincidence || invocation.outerCoincidence
    separateComponents := options.separateComponents || invocation.separateComponents }

/-! ### Texts -/

/-- A character of a quoted path. Quotes and backslashes are escaped, and so is every character that is
    not visible. -/
def escapePathChar (c : Char) : String :=
  if c = '"' then "\\\""
  else if c = '\\' then "\\\\"
  else if c = '\n' then "\\n"
  else if c = '\r' then "\\r"
  else if c = '\t' then "\\t"
  else if c.toNat = 0 then "\\0"
  else if Text.isVisible c then c.toString
  else "\\u\x7b" ++ String.ofList (Nat.toDigits 16 c.toNat) ++ "\x7d"

def quotePath (path : String) : String := "\"" ++ String.join (path.toList.map escapePathChar) ++ "\""

def Emission.render (emission : Emission) (schedule : Schedule) : Checked String := do
  match emission with
  | .schedule => schedule.render
  | .map =>
      let maps ← schedule.forestMaps (← schedule.forest)
      return "\n".intercalate (← maps.mapM (·.render))
  | .forest => Band.renderAll 0 (← schedule.forest)
  | .json =>
      let bands := Json.array (Band.toJsonAll (← schedule.forest))
      return (Json.object [("schedule", schedule.toJson), ("bands", bands)]).sorted.pretty

/-! ### Outcomes -/

/-- What an invocation leads to. -/
inductive Outcome where
  | print (text : String)
  | save (path text : String)
  | fail (message : String)
  | crash
deriving DecidableEq, Repr

def Fault.outcome : Fault → Outcome
  | .overflow => .crash
  | .precondition => .crash
  | .unfinished _ => .crash
  | fault => .fail fault.message

namespace Invocation

/-- The outcome of an invocation. `source` is the text of the input file, if it can be read. -/
def respond (invocation : Invocation) (source : Option String) : Outcome :=
  match source with
  | none => .fail ("Failed to read input file: " ++ quotePath invocation.input)
  | some text =>
      match ProblemFile.parse? text with
      | none => .fail ("Failed to parse schedule constraints: " ++ quotePath invocation.input)
      | some file =>
          let rendered : Checked String := do
            let schedule ← file.problem.schedule (invocation.override file.options)
            invocation.emit.render schedule
          match rendered with
          | .error fault => fault.outcome
          | .ok text =>
              match invocation.output with
              | none => .print text
              | some path => .save path text

end Invocation

/-- What can be seen of a finished run. -/
structure Report where
  exitCode : Nat
  output : String
  message : Option String
deriving DecidableEq, Repr

/-- The report of an outcome. `saved` tells whether a file could be written. -/
def Outcome.report (saved : Bool) : Outcome → Report
  | print text => { exitCode := 0, output := text ++ "\n", message := none }
  | save path _ =>
      if saved then { exitCode := 0, output := "", message := none }
      else { exitCode := 1, output := "", message := some ("Failed to write output file: " ++ quotePath path) }
  | fail message => { exitCode := 1, output := "", message := some message }
  | crash => { exitCode := 101, output := "", message := none }

def Stop.report : Stop → Report
  | usage => { exitCode := 2, output := "", message := none }
  | version => { exitCode := 0, output := "polysched 0.1.0\n", message := none }
  | help => { exitCode := 0, output := "Usage: polysched [OPTIONS] <FILE>\n", message := none }

end AffineSchedule
