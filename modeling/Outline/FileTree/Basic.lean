import Outline.FileTree.Path

/-!
# Trees of files

A file tree is a snapshot of the files and directories that a program can see.  The place of an
entry is the list of names on the way from the top directory down to it.

* `FileTree.locate` follows a path, step by step, to a place.
* `FileTree.readText`, `FileTree.createDirectories` and `FileTree.write` fail for the reasons for
  which an operating system refuses them.
-/

namespace Outline

/-! ## Errors -/

/-- Why a file cannot be used. -/
inductive FileError where
  /-- There is no such entry. -/
  | missing
  /-- There is a file where a directory is to be created. -/
  | alreadyExists
  /-- A file is used as a directory. -/
  | notDirectory
  /-- A directory is used as a file. -/
  | isDirectory
  /-- The bytes are not the encoding of a text. -/
  | notText
  deriving DecidableEq, Repr

namespace FileError

/-- How the error reads. -/
def message : FileError → String
  | missing => "No such file or directory (os error 2)"
  | alreadyExists => "File exists (os error 17)"
  | notDirectory => "Not a directory (os error 20)"
  | isDirectory => "Is a directory (os error 21)"
  | notText => "stream did not contain valid UTF-8"

end FileError

/-! ## Trees -/

/-- The names on the way from the top directory to an entry. -/
abbrev Place := List String

/-- A file or a directory. -/
inductive FileEntry where
  /-- A file with its bytes. -/
  | file (bytes : ByteArray)
  /-- A directory. -/
  | directory

/-- The files and directories that are known, with the directories in which paths start. -/
structure FileTree where
  /-- The entries below the top directory with their places. -/
  entries : List (Place × FileEntry) := []
  /-- The directory in which relative paths start. -/
  workingDirectory : Place := []
  /-- The directory of the user. -/
  home? : Option Place := none

namespace FileTree

/-! ## Entries -/

/-- The entry at a place. -/
def entry? (t : FileTree) (place : Place) : Option FileEntry :=
  if place.isEmpty then some .directory else t.entries.lookup place

/-- Whether there is a directory at a place. -/
def isDirectoryAt (t : FileTree) (place : Place) : Bool :=
  match t.entry? place with
  | some .directory => true
  | _ => false

/-- Sets the entry at a place. -/
def setEntry (t : FileTree) (place : Place) (entry : FileEntry) : FileTree :=
  { t with entries := t.entries.filter (·.1 != place) ++ [(place, entry)] }

/-- Adds the directories on the way to a place. -/
def addAbove (t : FileTree) (place : Place) : FileTree :=
  (List.range place.length).foldl (fun t n =>
    if (t.entry? (place.take n)).isSome then t else t.setEntry (place.take n) .directory) t

/-- Adds an entry with the directories on the way to it. -/
def addEntry (t : FileTree) (place : Place) (entry : FileEntry) : FileTree :=
  (t.addAbove place).setEntry place entry

/-! ## Following paths -/

/-- Checks that there is a directory at a place. -/
def requireDirectory (t : FileTree) (place : Place) : Except FileError Unit :=
  match t.entry? place with
  | some .directory => .ok ()
  | some (.file _) => .error .notDirectory
  | none => .error .missing

/-- Follows the steps of a path.  All places on the way are directories; the last one may be
free. -/
def follow (t : FileTree) (place : Place) : List PathComponent → Except FileError Place
  | [] => .ok place
  | step :: steps => do
    match step with
    | .root => t.follow [] steps
    | .current => t.requireDirectory place; t.follow place steps
    | .parent => t.requireDirectory place; t.follow place.dropLast steps
    | .name s => t.requireDirectory place; t.follow (place ++ [s]) steps

/-- The place to which a path leads.  A path that goes on behind its last component leads to a
directory. -/
def locate (t : FileTree) (p : Path) : Except FileError Place := do
  if p.text == "" then throw .missing
  let place ← t.follow t.workingDirectory p.components
  if p.trimmed != p then t.requireDirectory place
  pure place

/-- The entry to which a path leads. -/
def lookup (t : FileTree) (p : Path) : Except FileError FileEntry := do
  let place ← t.locate p
  match t.entry? place with
  | some entry => pure entry
  | none => throw .missing

/-- Whether a path leads to an entry. -/
def pathExists (t : FileTree) (p : Path) : Bool := (t.lookup p).toOption.isSome

/-! ## Reading -/

/-- The bytes of a file. -/
def readBytes (t : FileTree) (p : Path) : Except FileError ByteArray := do
  match ← t.lookup p with
  | .file bytes => pure bytes
  | .directory => throw .isDirectory

/-- The text in a file. -/
def readText (t : FileTree) (p : Path) : Except FileError String := do
  match String.fromUTF8? (← t.readBytes p) with
  | some text => pure text
  | none => throw .notText

/-! ## Writing -/

/-- Creates a directory, unless it exists. -/
def createDirectory (t : FileTree) (p : Path) : Except FileError FileTree := do
  let place ← t.locate p.trimmed
  match t.entry? place with
  | some .directory => pure t
  | some (.file _) => throw .alreadyExists
  | none => pure (t.setEntry place .directory)

/-- Creates a directory and, where they are missing, the directories above it, of which at most
`levels` are tried. -/
def createUpTo (t : FileTree) (levels : Nat) (p : Path) : Except FileError FileTree :=
  if p.text == "" then .ok t
  else match t.createDirectory p, levels, p.parent? with
    | .error .missing, levels + 1, some above => do
      let t ← t.createUpTo levels above
      t.createDirectory p
    | result, _, _ => result

/-- Creates a directory and the directories above it. -/
def createDirectories (t : FileTree) (p : Path) : Except FileError FileTree :=
  t.createUpTo p.components.length p

/-- Writes a file; the directory in which it lies must exist.  A path with a slash at its end
names a directory. -/
def write (t : FileTree) (p : Path) (bytes : ByteArray) : Except FileError FileTree := do
  if p.text.toList.getLast? == some '/' then throw .isDirectory
  let place ← t.locate p
  match t.entry? place with
  | some .directory => throw .isDirectory
  | _ => pure (t.setEntry place (.file bytes))

end FileTree

end Outline
