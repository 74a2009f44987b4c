import AffineSchedule.CommandLine

namespace AffineSchedule

/-- A device that a path can name in place of a file. All of them take every text. -/
inductive Device where
  /-- Empty, and keeps nothing. -/
  | null
  /-- Keeps nothing, and has no text that ends. -/
  | sink
  | standardOutput
deriving DecidableEq, Repr

namespace Device

/-- The device of a name. The standard input is empty, and nothing is read back from the standard
    error. -/
def ofName? (name : String) : Option Device :=
  [("null", null), ("stdin", null), ("stdout", standardOutput), ("stderr", sink), ("zero", sink),
    ("random", sink), ("urandom", sink)].lookup name

def text? : Device → Option String
  | null => some ""
  | sink => none
  | standardOutput => none

/-- What the standard output shows of a text that has been written to the device. -/
def shown : Device → String → String
  | standardOutput, text => text
  | _, _ => ""

end Device

/-! ### Paths -/

/-- A directory that a path has led to. -/
inductive Place where
  | here
  | root
  | devices
deriving DecidableEq, Repr

/-- The directory that the next part of a path leads to. -/
def Place.enter : Place → String → Option Place
  | here, part => if part ∈ ["", "."] then some here else none
  | root, part =>
      if part ∈ ["", ".", ".."] then some root else if part = "dev" then some devices else none
  | devices, part =>
      if part ∈ ["", "."] then some devices else if part = ".." then some root else none

/-- What a path leads to. -/
inductive Target where
  | file (name : String)
  | device (device : Device)
deriving DecidableEq, Repr

namespace Target

def nameLimit : Nat := 255

def pathLimit : Nat := 4095

/-- What a name in a directory stands for. -/
def ofName? (place : Place) (name : String) : Option Target :=
  match place with
  | .here =>
      if name ∉ ["", ".", ".."] ∧ name.utf8ByteSize ≤ nameLimit then some (file name) else none
  | .root => none
  | .devices => (Device.ofName? name).map device

/-- What a path leads to, if it leads anywhere. -/
def ofPath? (path : String) : Option Target := do
  let parts := path.splitOn "/"
  let start : Place := if path.startsWith "/" then .root else .here
  let place ← parts.dropLast.foldlM Place.enter start
  if path.utf8ByteSize ≤ pathLimit then ofName? place (parts.getLastD "") else none

end Target

/-- A directory as the texts of its files, by name. -/
structure Directory where
  files : List (String × String)
deriving DecidableEq, Repr

namespace Directory

def read? (directory : Directory) (path : String) : Option String := do
  match ← Target.ofPath? path with
  | .device device => device.text?
  | .file name => directory.files.lookup name

/-- The directory after a text has been written to a path. -/
def write? (directory : Directory) (path text : String) : Option Directory := do
  match ← Target.ofPath? path with
  | .device _ => return directory
  | .file name => return { files := (name, text) :: directory.files.filter (·.1 ≠ name) }

/-- What the standard output shows after a text has been written to a path. -/
def shown (path text : String) : String :=
  match Target.ofPath? path with
  | some (.device device) => device.shown text
  | _ => ""

/-- What a command line reports, and the directory after its run. -/
def run (directory : Directory) (arguments : List String) : Report × Directory :=
  match Invocation.parse arguments with
  | .error stop => (stop.report, directory)
  | .ok invocation =>
      let outcome := invocation.respond (directory.read? invocation.input)
      match outcome with
      | .save path text =>
          match directory.write? path text with
          | none => (outcome.report false, directory)
          | some changed => ({ outcome.report true with output := shown path text }, changed)
      | _ => (outcome.report true, directory)

theorem read?_of_write? {directory changed : Directory} {path name text : String}
    (named : Target.ofPath? path = some (.file name)) (written : directory.write? path text = some changed) :
    changed.read? path = some text := by
  simp only [write?, named, Option.bind_eq_bind, Option.bind_some, Option.pure_def, Option.some.injEq] at written
  subst written
  simp [read?, named]

end Directory

end AffineSchedule
