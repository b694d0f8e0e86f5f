import Outline.Text.Blank

/-!
# Quotes and comment marks

The text inside a string literal and inside a comment.
-/

namespace Outline.Text

/-- The text between `quote` at both ends, if the two do not overlap. -/
def between? (quote cs : List Char) : Option (List Char) :=
  if 2 * quote.length ≤ cs.length && quote.isPrefixOf cs && quote.isSuffixOf cs then
    some ((cs.drop quote.length).take (cs.length - 2 * quote.length))
  else none

/-- The marks that may stand around a string literal, in the order in which they are tried. -/
def quoteMarks : List (List Char) :=
  [['\x22', '\x22', '\x22'], ['\x22'], ['\x27'], ['\x60']]

/-- Takes the quotes off a string literal, with the at signs and then the dollar signs before
them.  Text without quotes is kept as it is. -/
def unquote (s : String) : String :=
  let body := (s.toList.dropWhile (· == '@')).dropWhile (· == '$')
  match quoteMarks.findSome? (between? · body) with
  | some inner => String.ofList inner
  | none => s

/-- Drops `start` from the front of a text that starts with it. -/
def stripPrefix? (start cs : List Char) : Option (List Char) :=
  if start.isPrefixOf cs then some (cs.drop start.length) else none

/-- Takes the marks off a comment, and the white space inside them. -/
def commentText (s : String) : String :=
  let cs := trim s.toList
  let body :=
    match stripPrefix? "///".toList cs, stripPrefix? "//".toList cs with
    | some rest, _ => rest
    | none, some rest => rest
    | none, none =>
      if 4 ≤ cs.length && "/*".toList.isPrefixOf cs && "*/".toList.isSuffixOf cs then
        let inner := (cs.drop 2).take (cs.length - 4)
        (stripPrefix? ['*'] inner).getD inner
      else cs
  String.ofList (trim body)

end Outline.Text
