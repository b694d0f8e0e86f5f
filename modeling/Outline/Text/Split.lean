/-!
# Splitting texts at a character
-/

namespace Outline.Text

/-- The pieces of a list of characters between the occurrences of `sep`; there is one more piece
than there are occurrences. -/
def pieces (sep : Char) : List Char → List (List Char)
  | [] => [[]]
  | c :: cs =>
    if c == sep then [] :: pieces sep cs
    else match pieces sep cs with
      | p :: ps => (c :: p) :: ps
      | [] => [[c]]

/-- The pieces of a string between the occurrences of `sep`. -/
def splitAt (sep : Char) (s : String) : List String := (pieces sep s.toList).map String.ofList

/-- The parts of a dotted name. -/
def dottedParts (s : String) : List String := splitAt '.' s

/-- The name with the given parts, with dots between them. -/
def dotted (parts : List String) : String := ".".intercalate parts

/-- The last part of a dotted name. -/
def lastPart (s : String) : String := ((dottedParts s).getLast?).getD ""

end Outline.Text
