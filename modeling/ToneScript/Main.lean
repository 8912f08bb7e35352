import ToneScript.CommandLine.Run

/-!
# The command

Runs the command on the files of the system.
-/

namespace ToneScript

/-- What is found under a path. -/
def readFile (path : String) : IO File := do
  try
    return .content (← IO.FS.readBinFile path)
  catch
    -- a path that leads through a file is reported by name, a directory is not
    | e@(.noFileOrDirectory ..) | e@(.inappropriateType (some _) ..) => return .missing (toString e)
    | e => return .unreadable (toString e)

/-- The standard input. -/
def readInput : IO File := do
  try
    return .content (← (← IO.getStdin).readBinToEnd)
  catch e => return .unreadable (toString e)

end ToneScript

/-- Runs the command and prints what it has to say. -/
def main (arguments : List String) : IO UInt32 := do
  let home := (← IO.getEnv "HOME").filter (· ≠ "")
  let around := { file := ToneScript.readFile, input := ToneScript.readInput, home }
  let output ← ToneScript.CommandLine.run around arguments
  IO.print output.stdout
  IO.eprint output.stderr
  return output.exitCode.toUInt32
