import Outline.Text.Printable

/-!
# Quoted characters

How a single character is shown in a message: between single quotes, with escapes for the
characters that would not show.
-/

namespace Outline.Text

/-- The digits of a number in base sixteen, in lower case. -/
def hexDigits (n : Nat) : List Char := Nat.toDigits 16 n

/-- The escape that shows a character by its code point. -/
def codePointEscape (c : Char) : List Char :=
  ['\\', 'u', '\x7b'] ++ hexDigits c.toNat ++ ['\x7d']

/-- The characters that show `c` between single quotes. -/
def escapedChar (c : Char) : List Char :=
  if c == '\x00' then ['\\', '0']
  else if c == '\t' then ['\\', 't']
  else if c == '\r' then ['\\', 'r']
  else if c == '\n' then ['\\', 'n']
  else if c == '\\' || c == '\x27' then ['\\', c]
  else if isGraphemeExtend c || !isPrintable c then codePointEscape c
  else [c]

/-- A character between single quotes. -/
def quotedChar (c : Char) : String := String.ofList ('\x27' :: escapedChar c ++ ['\x27'])

end Outline.Text
