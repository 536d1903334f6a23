import Pinning.CommandLine.Program

/-!
The command line.
-/

namespace Pinning.CommandLine

/-- The text of a file, if it can be read. -/
def readText? (name : String) : IO (Option String) := do
  try
    return some (← IO.FS.readFile name)
  catch _ => return none

/-- The files that a command line names, with their texts. -/
def namedFiles (o : Options) : IO (List (String × Option String)) :=
  (o.config.toList ++ o.input.toList).mapM fun name => do return (name, ← readText? name)

/-- The text of standard input, if it can be read. -/
def readStdin? : IO (Option String) := do
  try
    return some (← (← IO.getStdin).readToEnd)
  catch _ => return none

/-- Runs the program on its arguments and the files they name. -/
def execute (args : List String) : IO UInt32 := do
  let o? := Options.ofArgs? args
  let files ← namedFiles (o?.getD {})
  let stdin ← if o?.map Options.input = some none then readStdin? else pure none
  let effects := run args stdin fun name => (files.lookup name).join
  effects.log.forM IO.eprintln
  effects.complaint.forM IO.eprintln
  IO.print effects.stdout
  return effects.exitCode.toUInt32

end Pinning.CommandLine

def main (args : List String) : IO UInt32 := Pinning.CommandLine.execute args
