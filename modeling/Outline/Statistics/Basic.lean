import Outline.FileTree.SourceFile
import Outline.Output.Data
import Outline.Statistics.Lines

/-!
# Line statistics

How many lines the files of a project have, by language, and how many of them are blank or hold
comments only.  A file belongs to the language of the extension in its name; the other files form
a group of their own.
-/

namespace Outline

/-! ## Counts -/

/-- Counts of characters and lines. -/
structure LineCounts where
  /-- Characters. -/
  chars : Nat := 0
  /-- Lines. -/
  total : Nat := 0
  /-- Lines of white space only. -/
  blank : Nat := 0
  /-- Lines of comments only. -/
  comment : Nat := 0
  deriving DecidableEq, Repr, Inhabited

namespace LineCounts

/-- The counts of two texts together. -/
def add (a b : LineCounts) : LineCounts :=
  ⟨a.chars + b.chars, a.total + b.total, a.blank + b.blank, a.comment + b.comment⟩

instance : Add LineCounts := ⟨add⟩

/-- Lines that are neither blank nor comments. -/
def code (c : LineCounts) : Nat := c.total - c.blank - c.comment

/-- The counts of a text of the given language. -/
def ofText (text : String) (language? : Option Language) : LineCounts :=
  let cs := text.toList
  let kinds :=
    (MarkedChar.lines (MarkedChar.markFrom 0 (commentSpans language? text) cs)).map
      LineKind.ofLine
  { chars := cs.length, total := kinds.length, blank := kinds.count .blank,
    comment := kinds.count .comment }

/-- The fields of a record of counts. -/
def fields (c : LineCounts) : List (String × Data) :=
  [("chars", .number c.chars), ("total_lines", .number c.total), ("blank_lines", .number c.blank),
    ("comment_lines", .number c.comment)]

end LineCounts

/-- The counts of one file. -/
structure FileStats where
  /-- The name of the file. -/
  sourceId : String
  /-- The counts. -/
  counts : LineCounts
  deriving DecidableEq, Repr

namespace FileStats

/-- The counts of a file with the given text. -/
def measure (sourceId text : String) (language? : Option Language) : FileStats :=
  ⟨sourceId, .ofText text language?⟩

/-- The language that the extension in the name stands for. -/
def language? (f : FileStats) : Option Language :=
  match (Text.dottedParts f.sourceId).reverse with
  | extension :: _ :: _ => Language.ofExtension? extension
  | _ => none

/-- The record of a file. -/
def record (f : FileStats) : Data := .record (("source_id", .text f.sourceId) :: f.counts.fields)

end FileStats

/-- The counts of a group of files. -/
structure GroupStats where
  /-- The number of files. -/
  files : Nat
  /-- The counts. -/
  counts : LineCounts
  deriving DecidableEq, Repr

namespace GroupStats

/-- The counts of the given files together. -/
def ofFiles (files : List FileStats) : GroupStats :=
  ⟨files.length, files.foldl (fun total f => total + f.counts) {}⟩

/-- The record of a group. -/
def record (g : GroupStats) : Data := .record (("files", .number g.files) :: g.counts.fields)

end GroupStats

/-! ## Projects -/

/-- The counts of the files of a project. -/
structure CodeStats where
  /-- The files, in order. -/
  files : List FileStats
  deriving DecidableEq, Repr

namespace CodeStats

/-- The files of a language, or those of none. -/
def filesOf (s : CodeStats) (language? : Option Language) : List FileStats :=
  s.files.filter (·.language? == language?)

/-- The counts of each language that has files. -/
def perLanguage (s : CodeStats) : List (Language × GroupStats) :=
  (Language.all.filter fun l => !(s.filesOf (some l)).isEmpty).map fun l =>
    (l, .ofFiles (s.filesOf (some l)))

/-- The files of no language. -/
def uncategorized (s : CodeStats) : List FileStats := s.filesOf none

/-- The counts of all files. -/
def total (s : CodeStats) : GroupStats := .ofFiles s.files

/-- The record of the statistics. -/
def record (s : CodeStats) : Data :=
  .record [
    ("files", .list (s.files.map FileStats.record)),
    ("per_language", .record (s.perLanguage.map fun (l, g) => (l.name, g.record))),
    ("uncategorized", .record [
      ("totals", (GroupStats.ofFiles s.uncategorized).record),
      ("files", .texts (s.uncategorized.map (·.sourceId)))])]

/-! ## Text -/

/-- Fills a text up with spaces on its right. -/
def padRight (width : Nat) (s : String) : String := s.pushn ' ' (width - s.length)

/-- Fills a text up with spaces on its left. -/
def padLeft (width : Nat) (s : String) : String := "".pushn ' ' (width - s.length) ++ s

/-- A line of the table. -/
def row (name files total code comment blank : String) : String :=
  padRight 14 name ++ " " ++ padLeft 6 files ++ " " ++ padLeft 9 total ++ " " ++ padLeft 9 code ++
    " " ++ padLeft 9 comment ++ " " ++ padLeft 9 blank ++ "\n"

/-- The line of a group. -/
def groupRow (name : String) (g : GroupStats) : String :=
  row name (toString g.files) (toString g.counts.total) (toString g.counts.code)
    (toString g.counts.comment) (toString g.counts.blank)

/-- The statistics as a table. -/
def text (s : CodeStats) : String :=
  row "Language" "Files" "Lines" "Code" "Comment" "Blank" ++
    String.join (s.perLanguage.map fun (l, g) => groupRow l.name g) ++
    (if s.uncategorized.isEmpty then ""
      else groupRow "uncategorized" (.ofFiles s.uncategorized)) ++
    groupRow "total" s.total

/-! ## Files -/

/-- The counts of a source file, unless it holds no text. -/
def measureFile (t : FileTree) (f : SourceFile) : Except AccessError (Option FileStats) := do
  let bytes ← (t.readBytes f.path).mapError (.io f.path)
  pure ((String.fromUTF8? bytes).map fun text =>
    .measure f.sourceId text (f.path.extension?.bind Language.ofExtension?))

/-- The counts of the files below the given roots, with those of further extensions. -/
def collectWith (walk : Walker) (t : FileTree) (filter : SourceFilter) (roots : List Path)
    (furtherExtensions : List String) : Except AccessError CodeStats := do
  let files ← SourceFile.collectWith walk t (furtherExtensions.foldl .addExtension filter) roots
  pure ⟨(← files.mapM (measureFile t)).filterMap id⟩

end CodeStats

end Outline
