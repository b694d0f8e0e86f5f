import Outline.FileTree.SourceFile
import Outline.Output.Destination
import Outline.Unit.Basic

/-!
# Reading the files of a project

The unit of a source file, and the report on the reading of a list of source files.  A file
without a unit does not keep the others from being read.
-/

namespace Outline

/-- Why a run over a project fails, or a file of the project is left out. -/
inductive RunError where
  /-- A source file has no unit. -/
  | unit (e : UnitError)
  /-- The names of the project have no meaning. -/
  | resolve (e : ResolveError)
  /-- A file cannot be used. -/
  | access (e : AccessError)
  /-- A destination is malformed. -/
  | destination (e : DestinationError)
  deriving DecidableEq, Repr

namespace RunError

/-- How the error reads. -/
def message : RunError → String
  | unit e => e.message
  | resolve e => e.message
  | access e => e.message
  | destination e => e.message

/-- The message of the error behind this one. -/
def cause? : RunError → Option String
  | unit e => e.cause?
  | access e => e.cause?
  | resolve _ | destination _ => none

/-- The messages of the error and of the one behind it. -/
def messages (e : RunError) : List String := e.message :: e.cause?.toList

end RunError

/-! ## Files -/

/-- The number of bytes of an entry; that of a directory does not matter. -/
def FileEntry.size : FileEntry → Nat
  | .file bytes => bytes.size
  | .directory => 0

namespace SourceFile

/-- Reads a source file.  Its extension decides the language. -/
def read (t : FileTree) (options : ReadingOptions) (maxFileSize : Nat) (f : SourceFile) :
    Except RunError SourceUnit := do
  match f.path.extension?.bind Language.ofExtension? with
  | none => throw (.unit (.unsupported f.sourceId))
  | some l =>
    let entry ← (t.lookup f.path).mapError fun e => .access (.io f.path e)
    if maxFileSize < entry.size then
      throw (.unit (.tooLarge f.sourceId entry.size maxFileSize))
    let text ← (t.readText f.path).mapError fun e => .access (.io f.path e)
    (l.readUnit options f.sourceId text).mapError .unit

end SourceFile

/-! ## Reports -/

/-- A source file that has no unit. -/
structure FileFailure where
  /-- The name of the file. -/
  sourceId : String
  /-- Why it has none. -/
  error : RunError
  deriving DecidableEq, Repr

/-- The result of reading a list of source files. -/
structure ReadingReport where
  /-- The units, in the order of the files. -/
  units : List SourceUnit := []
  /-- The files without a unit, in order. -/
  failures : List FileFailure := []
  deriving Repr

namespace ReadingReport

/-- Puts the result of one more file in front of a report. -/
def cons (f : SourceFile) (result : Except RunError SourceUnit) (r : ReadingReport) :
    ReadingReport :=
  match result with
  | .ok u => { r with units := u :: r.units }
  | .error e => { r with failures := ⟨f.sourceId, e⟩ :: r.failures }

/-- Reads a list of source files. -/
def ofFiles (read : SourceFile → Except RunError SourceUnit) (files : List SourceFile) :
    ReadingReport :=
  files.foldr (fun f r => r.cons f (read f)) {}

/-- The work done for all units. -/
def metrics (r : ReadingReport) : Metrics := Metrics.total (r.units.map (·.metrics))

/-- The warnings with the names of the files that they are about. -/
def warnings (r : ReadingReport) : List (String × String) :=
  r.units.flatMap fun u => u.warnings.map (u.sourceId, ·)

end ReadingReport

end Outline
