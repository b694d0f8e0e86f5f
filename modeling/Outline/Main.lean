import Outline.CommandLine.Basic
import Outline.CommandLine.Snapshot

/-!
# The program

Reads the arguments, the environment and the files, and hands them to the commands.
-/

namespace Outline.CommandLine

/-- The names of the variables that matter to the settings. -/
def variableNames : List String :=
  ["CODESIG_MAX_GENERIC_DEPTH", "CODESIG_MAX_FILE_SIZE", "CODESIG_MALFORMED_TYPES",
    "CODESIG_THREADS", "CODESIG_TIMEOUT_SECS", "CODESIG_FAIL_FAST", "CODESIG_FORMAT",
    Settings.userDirectoryVariable]

/-- The variables of the environment that matter to the settings. -/
def readEnvironment : IO Settings.Environment := do
  let values ← variableNames.mapM fun name => return (name, ← IO.getEnv name)
  return values.filterMap fun (name, value?) => value?.map (name, ·)

/-- The place that an absolute path names. -/
def placeOf (path : String) : Place := (Text.splitAt '/' path).filter (· != "")

/-- The file tree for the given arguments. -/
def readFiles (environment : Settings.Environment) (arguments : List String) : IO FileTree := do
  let workingDirectory := placeOf (← IO.currentDir).toString
  let home? := (← IO.getEnv "HOME").map placeOf
  let empty : FileTree := { workingDirectory, home? }
  match Request.ofArguments arguments with
  | .ok (.run config? command) => takeSnapshot empty environment config? command
  | _ => return empty

end Outline.CommandLine

open Outline.CommandLine in
/-- Does what the arguments ask for. -/
def main (arguments : List String) : IO UInt32 := do
  let start ← IO.monoMsNow
  let environment ← readEnvironment
  let tree ← readFiles environment arguments
  let outcome := run tree environment arguments
  applyChanges tree outcome.tree
  let stop ← IO.monoMsNow
  IO.print (outcome.output (toString (stop - start)))
  for note in outcome.notes do
    IO.eprintln note
  for (message, level) in outcome.errors.zipIdx do
    IO.eprintln ((if level == 0 then "Error: " else "  caused by: ") ++ message)
  return outcome.exitCode.toUInt32
