import Outline.Output.File
import Outline.Run.Reading
import Outline.Settings.Basic

/-!
# Runs over a project

A run finds the source files below its roots, reads them, resolves the project and writes its
destinations.  It may leave files behind even if it fails, so that its result always comes with
the file tree after the run.  Who walks over directories and who writes documents is left open.
-/

namespace Outline

/-- A file that has been written. -/
structure WrittenFile where
  /-- The path of the file. -/
  path : Path
  /-- The number of declarations in it. -/
  count : Nat
  deriving DecidableEq, Repr

/-- The result of a run. -/
structure RunResult where
  /-- What became of the source files. -/
  report : ReadingReport
  /-- The project. -/
  project : Project
  /-- The files that have been written, in order. -/
  written : List WrittenFile

namespace OutputFile

/-- Writes a file, with the directories above it. -/
def write (t : FileTree) (printer : Printer) (style : OutputStyle) (f : OutputFile) :
    FileTree × Except AccessError Unit :=
  match f.printed printer style with
  | .error message => (t, .error (.serialize f.path message))
  | .ok text =>
    let directory := f.path.parent?.getD ⟨""⟩
    match t.createDirectories directory with
    | .error e => (t, .error (.io directory e))
    | .ok t =>
      match t.write f.path text.toUTF8 with
      | .error e => (t, .error (.io f.path e))
      | .ok t => (t, .ok ())

/-- Writes files in order, up to the first that cannot be written. -/
def writeAll (t : FileTree) (printer : Printer) (style : OutputStyle) :
    List OutputFile → FileTree × Except AccessError (List WrittenFile)
  | [] => (t, .ok [])
  | f :: fs =>
    match f.write t printer style with
    | (t, .error e) => (t, .error e)
    | (t, .ok ()) =>
      let (t, result) := writeAll t printer style fs
      (t, result.map (⟨f.path, f.declarations.size⟩ :: ·))

end OutputFile

namespace Settings

/-- Reads the source files below the given roots.  If so set, the first failure ends the run. -/
def readRoots (s : Settings) (walk : Walker) (t : FileTree) (roots : List Path) :
    Except RunError ReadingReport := do
  let files ← (SourceFile.collectWith walk t s.workflow.filter roots).mapError .access
  let report := ReadingReport.ofFiles (SourceFile.read t s.reading s.maxFileSize) files
  match s.workflow.failFast, report.failures with
  | true, first :: _ => throw first.error
  | _, _ => pure report

/-- Reads and resolves the project below the given roots and writes its destinations. -/
def runWith (s : Settings) (walk : Walker) (printer : Printer) (t : FileTree) (roots : List Path)
    (destinations : List Destination) : FileTree × Except RunError RunResult :=
  let resolved : Except RunError (ReadingReport × Project) := do
    let report ← s.readRoots walk t roots
    pure (report, ← (Project.resolve report.units).mapError .resolve)
  match resolved with
  | .error e => (t, .error e)
  | .ok (report, project) =>
    let files := OutputFile.ofDestinations project s.output.format destinations
    let (t, written) := OutputFile.writeAll t printer s.output files
    (t, (written.map fun written => { report, project, written }).mapError .access)

end Settings

end Outline
