import Outline.CommandLine.Arguments
import Outline.FileTree.Changes
import Outline.Output.Destination
import Outline.Settings.Document

/-!
# Snapshots of the file system

A command works on a file tree, and this module connects that tree with the files of the system.
Only what the command may look at is read: what its paths name, the ignore files around that, and
the configuration files.  Symbolic links are passed over inside directories.
-/

namespace Outline.CommandLine

/-! ## What is read -/

/-- The paths of the files that a command reads, apart from those below its roots. -/
def Command.files : Command → List Path
  | .tokens file _ => [file]
  | .parse file => [file]
  | .resolve _ destinations _ _ _ =>
    destinations.filterMap fun d => (Destination.parse d).toOption.map (·.path)
  | .stats .. => []
  | .config => []

/-- The paths below which a command looks for source files. -/
def Command.roots : Command → List Path
  | .resolve sources .. => sources
  | .stats paths .. => paths
  | _ => []

/-- The names of the files that control a walk, as they are found in a directory. -/
def controlFiles : List (List String) :=
  [[".ignore"], [".gitignore"], [".git"], [".git", "info"], [".git", "info", "exclude"]]

/-- The places of the files that control a walk from a place. -/
def controlPlaces (place : Place) : List Place :=
  (List.range (place.length + 1)).flatMap fun n => controlFiles.map (place.take n ++ ·)

/-! ## Reading and writing -/

/-- The path of a place in the file system. -/
def systemPath (place : Place) : String := "/" ++ "/".intercalate place

/-- Adds the entry at a place, if there is one. -/
def addPlace (t : FileTree) (place : Place) : IO FileTree := do
  if place.isEmpty || (t.entry? place).isSome then return t
  let path ← (IO.FS.realPath (systemPath place)).toBaseIO
  match path with
  | .error _ => return t
  | .ok path =>
    if ← path.isDir then return t.addEntry place .directory
    match ← (IO.FS.readBinFile path).toBaseIO with
    | .ok bytes => return t.addEntry place (.file bytes)
    | .error _ => return t

/-- Adds the entry at a place with everything below it. -/
partial def addBelow (t : FileTree) (place : Place) : IO FileTree := do
  let mut t ← addPlace t place
  match ← (IO.FS.realPath (systemPath place)).toBaseIO with
  | .error _ => return t
  | .ok path =>
    if ← path.isDir then
      for entry in ← path.readDir do
        if (← entry.path.symlinkMetadata).type != .symlink then
          t ← addBelow t (place ++ [entry.fileName])
    return t

/-- The file tree that a command works on, where `empty` has no entries. -/
def takeSnapshot (empty : FileTree) (environment : Settings.Environment) (config? : Option Path)
    (command : Command) : IO FileTree := do
  let fixed :=
    [Settings.projectFile] ++ (Settings.userPath? empty environment).toList ++ config?.toList
  let paths := fixed ++ command.files ++ command.roots
  let places := empty.workingDirectory :: paths.flatMap empty.passed
  let mut t := empty
  for place in places.flatMap fun p => (List.range (p.length + 1)).map p.take do
    t ← addPlace t place
  for root in command.roots do
    if let .ok place := t.locate root then
      t ← addBelow t place
      for control in controlPlaces place do
        t ← addPlace t control
  return t

/-- Carries the changes of a file tree out in the file system. -/
def applyChanges (before after : FileTree) : IO Unit := do
  for (place, entry) in before.changes after do
    match entry with
    | .directory => IO.FS.createDirAll (systemPath place)
    | .file bytes => IO.FS.writeBinFile (systemPath place) bytes

end Outline.CommandLine
