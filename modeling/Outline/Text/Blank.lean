import Outline.Text.CodePoints

/-!
# Blank characters

The 25 characters of the Unicode property `White_Space`, and the trimming of texts by it.
-/

namespace Outline.Text

/-- Switches of the property `White_Space`. -/
def whiteSpaceSwitches : Array Nat := #[
  0x9, 0xe, 0x20, 0x21, 0x85, 0x86, 0xa0, 0xa1, 0x1680, 0x1681, 0x2000, 0x200b, 0x2028, 0x202a,
  0x202f, 0x2030, 0x205f, 0x2060, 0x3000, 0x3001]

/-- The characters of the property `White_Space`. -/
def isWhiteSpace (c : Char) : Bool := switchedOn whiteSpaceSwitches c.toNat

/-- White space, or the byte order mark U+FEFF that editors leave at the start of a file. -/
def isBlank (c : Char) : Bool := isWhiteSpace c || c == '\uFEFF'

/-- The characters at which a line of source text ends. -/
def isLineEnd (c : Char) : Bool := c == '\n' || c == '\r'

/-- Drops the white space at the start. -/
def trimStart (cs : List Char) : List Char := cs.dropWhile isWhiteSpace

/-- Drops the white space at the end. -/
def trimEnd (cs : List Char) : List Char := (cs.reverse.dropWhile isWhiteSpace).reverse

/-- Drops the white space at both ends. -/
def trim (cs : List Char) : List Char := trimEnd (trimStart cs)

theorem length_trimStart_le (cs : List Char) : (trimStart cs).length ≤ cs.length :=
  (List.dropWhile_sublist isWhiteSpace).length_le

theorem length_trimEnd_le (cs : List Char) : (trimEnd cs).length ≤ cs.length := by
  have := (List.dropWhile_sublist (l := cs.reverse) isWhiteSpace).length_le
  simpa [trimEnd] using this

theorem length_trim_le (cs : List Char) : (trim cs).length ≤ cs.length :=
  Nat.le_trans (length_trimEnd_le _) (length_trimStart_le _)

end Outline.Text
