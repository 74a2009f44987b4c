import AffineSchedule.CommandLine

namespace AffineSchedule

def readText (path : String) : IO (Option String) := do
  try return some (← IO.FS.readFile path)
  catch _ => return none

def writeText (path text : String) : IO Bool := do
  try
    IO.FS.writeFile path text
    return true
  catch _ => return false

def printReport (report : Report) : IO UInt32 := do
  IO.print report.output
  if let some message := report.message then IO.eprintln ("Error: " ++ message)
  return UInt32.ofNat report.exitCode

end AffineSchedule

open AffineSchedule in
def main (arguments : List String) : IO UInt32 := do
  match Invocation.parse arguments with
  | .error stop => printReport stop.report
  | .ok invocation =>
      let outcome := invocation.respond (← readText invocation.input)
      let saved ← match outcome with
        | .save path text => writeText path text
        | _ => pure true
      printReport (outcome.report saved)
