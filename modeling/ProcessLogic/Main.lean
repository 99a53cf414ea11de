import ProcessLogic.CommandLine.Run

/-!
# The program

Reads the files that the command line names, runs it, prints its text and exits with its
status.
-/

open ProcessLogic

/-- The files of a command line with their content; a file that cannot be read is left out. -/
def readNamed (args : List String) : IO (List (String × String)) := do
  let paths := match CommandLine.parse args with
    | .ok command => command.files
    | .error _ => []
  paths.filterMapM fun (path : String) =>
    try
      let content ← IO.FS.readFile path
      return some (path, content)
    catch _ => return none

/-- Runs the command line. -/
def main (args : List String) : IO UInt32 := do
  let files ← readNamed args
  let outcome := CommandLine.run (fun path => files.lookup path) args
  IO.print outcome.output
  return outcome.code.toUInt32
