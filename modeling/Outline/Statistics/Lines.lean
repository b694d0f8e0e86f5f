import Outline.Text.Blank
import Outline.Token.Reading

/-!
# Kinds of lines

The lines of a text, cut at line feeds, and what each of them holds: nothing but white space,
nothing but comments, or code.
-/

namespace Outline

/-- What a line holds. -/
inductive LineKind where
  /-- White space only. -/
  | blank
  /-- Comments, and white space around them. -/
  | comment
  /-- Anything else. -/
  | code
  deriving DecidableEq, Repr

/-- A character with the answer to whether it lies inside a comment. -/
abbrev MarkedChar := Char × Bool

namespace LineKind

/-- What a line with the given characters holds. -/
def ofLine (line : List MarkedChar) : LineKind :=
  let visible := line.filter fun c => !Text.isWhiteSpace c.1
  if visible.isEmpty then blank
  else if visible.all (·.2) then comment
  else code

end LineKind

namespace MarkedChar

/-- Marks the characters of a text, the first of which is at the offset `i`; the comments are in
ascending order. -/
def markFrom (i : Nat) (comments : List Span) : List Char → List MarkedChar
  | [] => []
  | c :: cs =>
    let left := comments.dropWhile (·.stop ≤ i)
    (c, left.head?.any (·.offset ≤ i)) :: markFrom (i + 1) left cs

/-- The lines of a text, where `line` are the characters of the first line before the text, in
reverse order.  A text that ends with a line feed has no line behind it. -/
def linesFrom (line : List MarkedChar) : List MarkedChar → List (List MarkedChar)
  | [] => if line.isEmpty then [] else [line.reverse]
  | c :: cs => if c.1 == '\n' then line.reverse :: linesFrom [] cs else linesFrom (c :: line) cs

/-- The lines of a text. -/
def lines (cs : List MarkedChar) : List (List MarkedChar) := linesFrom [] cs

end MarkedChar

namespace TokenTree

/-- The places of the comments in a tree, in ascending order. -/
def commentSpans (t : TokenTree) : List Span :=
  (t.values.filter (·.kind == .comment)).map (·.span)

end TokenTree

/-- The places of the comments in a text.  Nothing is known about a text that is not of the given
language, or of none. -/
def commentSpans (language? : Option Language) (text : String) : List Span :=
  match language?.map fun l => TokenTree.read { language := l } text with
  | some (.ok tree) => tree.commentSpans
  | _ => []

end Outline
