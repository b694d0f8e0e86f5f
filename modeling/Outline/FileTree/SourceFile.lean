import Outline.FileTree.Basic

/-!
# Source files

`SourceFile.collectWith` finds the source files of a project.  A root is a file, which is taken as
it is, or a directory, of which the files with one of the given extensions are taken.  A file is
known by its path from the root.

The entries below a directory come from a `Walker`.  Which of them are hidden or ignored, and in
which order they come, is up to the walker; it is told which directories it is not to enter.
-/

namespace Outline

/-- A file that cannot be used. -/
inductive AccessError where
  /-- The file system refuses it. -/
  | io (path : Path) (cause : FileError)
  /-- Its document cannot be written in the format, for the reason in the message. -/
  | serialize (path : Path) (message : String)
  deriving DecidableEq, Repr

namespace AccessError

/-- How the error reads. -/
def message : AccessError → String
  | io path cause => "IO error at " ++ path.text ++ ": " ++ cause.message
  | serialize path message => "Failed to serialize " ++ path.text ++ ": " ++ message

/-- The message of the error behind this one. -/
def cause? : AccessError → Option String
  | io _ cause => some cause.message
  | serialize _ _ => none

end AccessError

/-! ## Walks -/

/-- What an entry is. -/
inductive EntryKind where
  /-- A file. -/
  | file
  /-- A directory. -/
  | directory
  /-- Anything else. -/
  | other
  deriving DecidableEq, Repr

/-- An entry that a walk comes across. -/
structure WalkEntry where
  /-- The path, which goes on from that of the root. -/
  path : Path
  /-- The name. -/
  name : String
  /-- The number of steps from the root. -/
  depth : Nat
  /-- What the entry is, if that is known. -/
  kind? : Option EntryKind
  deriving DecidableEq, Repr

/-- A walk from a directory over the entries below it that are neither hidden nor ignored.  It
leaves out an entry that `enters` does not hold of, with everything below.  An entry that cannot be
read comes as a message. -/
abbrev Walker :=
  FileTree → (root : Path) → (enters : WalkEntry → Bool) → List (Except String WalkEntry)

/-- Which files below a directory are source files. -/
structure SourceFilter where
  /-- The extensions without dots; capitals do not matter. -/
  extensions : List String
  /-- The names of directories that are passed over. -/
  excluded : List String
  deriving DecidableEq, Repr

namespace SourceFilter

/-- Whether files with the given extension are source files. -/
def hasExtension (f : SourceFilter) (extension : String) : Bool :=
  f.extensions.any (·.toLower == extension.toLower)

/-- Whether a walk goes on with an entry. -/
def enters (f : SourceFilter) (e : WalkEntry) : Bool :=
  !(e.kind? == some .directory && decide (0 < e.depth) && f.excluded.contains e.name)

/-- The path of a source file that a walk comes across.  Entries that cannot be read are passed
over. -/
def sourcePath? (f : SourceFilter) : Except String WalkEntry → Option Path
  | .ok e =>
    if e.kind? == some .file && f.hasExtension (e.path.extension?.getD "") then some e.path
    else none
  | .error _ => none

/-- Adds an extension, unless it is there; dots in front of it do not count. -/
def addExtension (f : SourceFilter) (extension : String) : SourceFilter :=
  let bare := String.ofList (extension.toList.dropWhile (· == '.'))
  if f.hasExtension bare then f else { f with extensions := f.extensions ++ [bare] }

end SourceFilter

/-- A source file. -/
structure SourceFile where
  /-- The name under which it is reported. -/
  sourceId : String
  /-- Its path. -/
  path : Path
  deriving DecidableEq, Repr

namespace SourceFile

/-- The source file at a path, named by its path from a directory. -/
def below (directory path : Path) : SourceFile :=
  let id := "/".intercalate ((path.relativeTo directory).map (·.text))
  ⟨if id == "" then path.text else id, path⟩

/-- Whether two source files have the same name and the same path. -/
def same (a b : SourceFile) : Bool := a.sourceId == b.sourceId && a.path.same b.path

/-- Whether a source file may stand before another one in an ordered list. -/
def le (a b : SourceFile) : Bool :=
  ((Ord.compare a.sourceId b.sourceId).then (a.path.compare b.path)) != .gt

/-- Sorts source files. -/
def sort (files : List SourceFile) : List SourceFile := files.mergeSort le

/-- Drops the files of a list that are the same as the one before. -/
def dropRepeats : List SourceFile → List SourceFile
  | a :: b :: rest => if a.same b then dropRepeats (a :: rest) else a :: dropRepeats (b :: rest)
  | files => files

/-- The source files of one root. -/
def ofRoot (walk : Walker) (t : FileTree) (filter : SourceFilter) (root : Path) :
    Except AccessError (List SourceFile) :=
  match t.lookup root with
  | .error e => .error (.io root e)
  | .ok (.file _) => .ok [below (root.parent?.getD root) root]
  | .ok .directory =>
    .ok (sort (((walk t root filter.enters).filterMap filter.sourcePath?).map (below root)))

/-- The source files of a list of roots, in order and each once. -/
def collectWith (walk : Walker) (t : FileTree) (filter : SourceFilter) (roots : List Path) :
    Except AccessError (List SourceFile) := do
  let found ← roots.mapM (ofRoot walk t filter)
  pure (dropRepeats (sort found.flatten))

end SourceFile

end Outline
