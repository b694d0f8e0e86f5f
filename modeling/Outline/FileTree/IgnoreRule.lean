import Outline.FileTree.Glob
import Outline.Text.Blank
import Outline.Text.Split

/-!
# Ignore files

An ignore file lists patterns of files that are to be left out, one on each line.  A line that
starts with an exclamation mark keeps files instead, a slash at the end restricts the line to
directories, and a pattern with a slash elsewhere counts from the directory of the ignore file.
Of several lines that describe a file the last one decides.

Ignore files are read by the walk of the program, `FileTree.walk`, and by nothing else.
-/

namespace Outline

/-- A line of an ignore file. -/
structure IgnoreRule where
  /-- The patterns, one of which describes the files of the rule. -/
  patterns : List GlobPattern
  /-- Whether the files are kept. -/
  keeps : Bool
  /-- Whether only directories count. -/
  onlyDirectories : Bool
  deriving DecidableEq, Repr

namespace IgnoreRule

/-- A line without the white space at its end, unless the last space is escaped. -/
def trimLine (cs : List Char) : List Char :=
  if ['\\', ' '].isSuffixOf cs then cs else Text.trimEnd cs

/-- The pattern of a rule in full. -/
def fullPattern (anchored : Bool) (cs : List Char) : List Char :=
  let cs := if anchored || cs.contains '/' || cs == ['*', '*'] then cs else "**/".toList ++ cs
  if "/**".toList.isSuffixOf cs then cs ++ "/*".toList else cs

/-- The marks in front of a pattern: whether it keeps files, whether it counts from the directory
of the ignore file, and the pattern without the marks. -/
def splitMarks : List Char → Bool × Bool × List Char
  | '\\' :: c :: cs =>
    if c == '!' || c == '#' then (false, false, c :: cs) else (false, false, '\\' :: c :: cs)
  | '!' :: '/' :: cs => (true, true, cs)
  | '!' :: cs => (true, false, cs)
  | '/' :: cs => (false, true, cs)
  | cs => (false, false, cs)

/-- A pattern without the slash at its end. -/
def splitSlash (cs : List Char) : Bool × List Char :=
  match cs.getLast? with
  | some '/' =>
    let body := cs.dropLast
    (true, if body.getLast? == some '\\' then body.dropLast else body)
  | _ => (false, cs)

/-- The rule on a line, if there is one. -/
def ofLine? (line : String) : Option IgnoreRule :=
  let cs := trimLine line.toList
  if cs.isEmpty || cs.head? == some '#' then none
  else
    let (keeps, anchored, body) := splitMarks cs
    let (onlyDirectories, body) := splitSlash body
    (GlobPattern.readAll (fullPattern anchored body)).map fun patterns =>
      { patterns, keeps, onlyDirectories }

/-- The rules of an ignore file. -/
def ofText (text : String) : List IgnoreRule :=
  let cs := text.toList
  let cs := if cs.head? == some '\uFEFF' then cs.drop 1 else cs
  (Text.splitAt '\n' (String.ofList cs)).filterMap ofLine?

/-- Whether the rule describes an entry, given by its path from the directory of the ignore
file. -/
def describes (r : IgnoreRule) (path : String) (isDirectory : Bool) : Bool :=
  r.patterns.any (·.describes path.toList) && (isDirectory || !r.onlyDirectories)

/-- Whether a list of rules keeps an entry or leaves it out, if any of them describes it. -/
def decide? (rules : List IgnoreRule) (path : String) (isDirectory : Bool) : Option Bool :=
  (rules.reverse.find? (·.describes path isDirectory)).map (·.keeps)

end IgnoreRule

end Outline
