import Outline.FileTree.Walk
import Outline.Output.Json
import Outline.Output.Yaml
import Outline.Run.Basic
import Outline.Statistics.Basic

/-!
# The walk and the printers of the program

Runs with `FileTree.walk` for a walk over directories, and with the texts of `Data.compact`,
`Data.pretty` and `Data.yaml` for documents.
-/

namespace Outline

/-- The printers of the program, which refuse nothing. -/
def Printer.standard : Printer where
  compactJson d := .ok d.compact
  prettyJson d := .ok d.pretty
  yaml d := .ok d.yaml

/-- The text of a file, or why there is none. -/
def OutputFile.text (f : OutputFile) (style : OutputStyle) : String :=
  match f.printed .standard style with
  | .ok text => text
  | .error message => message

/-- The source files of a list of roots, in order and each once. -/
def SourceFile.collect (t : FileTree) (filter : SourceFilter) (roots : List Path) :
    Except AccessError (List SourceFile) :=
  collectWith FileTree.walk t filter roots

/-- The counts of the files below the given roots, with those of further extensions. -/
def CodeStats.collect (t : FileTree) (filter : SourceFilter) (roots : List Path)
    (furtherExtensions : List String) : Except AccessError CodeStats :=
  collectWith FileTree.walk t filter roots furtherExtensions

/-- Reads and resolves the project below the given roots and writes its destinations. -/
def Settings.run (s : Settings) (t : FileTree) (roots : List Path)
    (destinations : List Destination) : FileTree × Except RunError RunResult :=
  s.runWith FileTree.walk .standard t roots destinations

end Outline
