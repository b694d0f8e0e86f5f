import Outline.Text.Blank

/-!
# Source texts and positions

A source text is a list of characters together with the offsets at which its lines start.
Offsets, lengths and columns count characters; lines and columns count from zero.  A line ends
after `\n`, `\r\n` or a lone `\r`.

* `Source.position` maps an offset to its line and column, also past the end of the text.
* `Source.span` and `Source.slice` give the location and the text of a range of characters.
-/

namespace Outline

/-! ## Positions and spans -/

/-- The line and column of a character. -/
structure Position where
  /-- Number of line ends before the character. -/
  line : Nat := 0
  /-- Number of characters between the start of the line and the character. -/
  column : Nat := 0
  deriving DecidableEq, Repr, Inhabited, Hashable

namespace Position

/-- Lines and columns are stored in 32 bits. -/
def width : Nat := UInt32.size

/-- How a position reads in a message, where counting starts at one. -/
def text (p : Position) : String := s!"line {p.line + 1}, column {p.column + 1}"

end Position

/-- The location of a piece of text.  The last position is that of its last character. -/
structure Span where
  /-- Offset of the first character. -/
  offset : Nat := 0
  /-- Number of characters. -/
  len : Nat := 0
  /-- Position of the first character. -/
  start : Position := {}
  /-- Position of the last character. -/
  last : Position := {}
  deriving DecidableEq, Repr, Inhabited

namespace Span

/-- The offset just past the last character. -/
def stop (s : Span) : Nat := s.offset + s.len

/-- Whether the span `t` lies fully inside `s`. -/
def contains (s t : Span) : Bool := s.offset ≤ t.offset && t.stop ≤ s.stop

/-- Whether two spans share a character. -/
def overlaps (s t : Span) : Bool := s.offset < t.stop && t.offset < s.stop

end Span

/-! ## Source texts -/

/-- The offsets, counted from `n`, of the characters that follow a line end. -/
def lineStartsFrom (n : Nat) : List Char → List Nat
  | [] => []
  | '\n' :: cs => (n + 1) :: lineStartsFrom (n + 1) cs
  | '\r' :: '\n' :: cs => (n + 2) :: lineStartsFrom (n + 2) cs
  | '\r' :: cs => (n + 1) :: lineStartsFrom (n + 1) cs
  | _ :: cs => lineStartsFrom (n + 1) cs

/-- A text with the offsets at which its lines start. -/
structure Source where
  /-- The characters of the text. -/
  chars : List Char
  /-- Number of characters. -/
  length : Nat
  /-- Offsets of the starts of the lines after the first, in ascending order. -/
  laterLines : List Nat
  deriving Repr

namespace Source

/-- The source text with the given characters. -/
def ofChars (cs : List Char) : Source where
  chars := cs
  length := cs.length
  laterLines := lineStartsFrom 0 cs

/-- The source text of a string. -/
def ofString (s : String) : Source := ofChars s.toList

/-- The number of the line that holds `offset` and the offset at which that line starts, where
line `line` starts at `start` and the lines after it at the listed offsets. -/
def lineAt (offset line start : Nat) : List Nat → Nat × Nat
  | [] => (line, start)
  | next :: later => if next ≤ offset then lineAt offset (line + 1) next later else (line, start)

/-- The position of the character at `offset`, which may lie past the end of the text. -/
def position (s : Source) (offset : Nat) : Position :=
  let (line, start) := lineAt offset 0 0 s.laterLines
  { line := line % Position.width, column := (offset - start) % Position.width }

/-- The location of the `len` characters from `offset` on. -/
def span (s : Source) (offset len : Nat) : Span where
  offset := offset
  len := len
  start := s.position offset
  last := s.position (offset + (len - 1))

/-- The `len` characters from `offset` on, if the text is long enough. -/
def slice? (s : Source) (offset len : Nat) : Option String :=
  if offset + len ≤ s.length then some (String.ofList ((s.chars.drop offset).take len)) else none

end Source

end Outline
