import JsonSelect.CommandLine

/-!
# The program

The outermost layer: it hands the arguments and the standard input to `JsonSelect.runProgram` and
writes out what comes back. The standard input is read only for a command that needs it, and only
if it is not a terminal.
-/

/-- What can be read from the standard input, unless it is a terminal. -/
def readStandardInput : IO (Option JsonSelect.InputStream) := do
  let stdin ← IO.getStdin
  if ← stdin.isTty then return none
  try
    return some (.bytes (← stdin.readBinToEnd))
  catch error =>
    return some (.failing (toString error))

/-- Runs the program. -/
def main (arguments : List String) : IO UInt32 := do
  let input ←
    match JsonSelect.parseArguments arguments with
    | .ok command => if command.readsInput then readStandardInput else pure none
    | .error _ => pure none
  let outcome := JsonSelect.runProgram arguments input
  IO.print outcome.stdout
  match outcome with
  | .misused => IO.eprintln "Usage: jpath <COMMAND>"
  | _ => outcome.message?.forM IO.eprintln
  return UInt32.ofNat outcome.code
