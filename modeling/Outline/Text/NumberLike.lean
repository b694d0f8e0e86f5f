/-!
# Texts that look like numbers

A plain text in a YAML document may be taken for a number if it is an integer in base sixteen,
eight or two behind `0x`, `0o` or `0b`, a decimal number that a floating point number of 64 bits
can hold, or one of the words for infinity and for no number.
-/

namespace Outline.Text

/-- Takes one plus sign from the front; another sign must not follow it. -/
def dropPlus? (cs : List Char) : Option (List Char) :=
  match cs with
  | '+' :: c :: rest => if c == '+' || c == '-' then none else some (c :: rest)
  | '+' :: [] => some []
  | _ => some cs

/-- Takes one minus sign from the front. -/
def dropMinus : List Char → List Char
  | '-' :: cs => cs
  | cs => cs

/-- The value of a digit of a base up to sixteen. -/
def digitValue? (base : Nat) (c : Char) : Option Nat :=
  let n :=
    if c.isDigit then c.toNat - '0'.toNat
    else if 'a' ≤ c && c ≤ 'f' then c.toNat - 'a'.toNat + 10
    else if 'A' ≤ c && c ≤ 'F' then c.toNat - 'A'.toNat + 10
    else base
  if n < base then some n else none

/-- The number with the given digits. -/
def digitsValue? (base : Nat) (cs : List Char) : Option Nat :=
  if cs.isEmpty then none
  else cs.foldlM (fun n c => (digitValue? base c).map (base * n + ·)) 0

/-- The digits behind the mark of a base, with the base. -/
def markedDigits? : List Char → Option (Nat × List Char)
  | '0' :: 'x' :: cs => some (16, cs)
  | '0' :: 'o' :: cs => some (8, cs)
  | '0' :: 'b' :: cs => some (2, cs)
  | _ => none

/-- An integer of at most 128 bits behind the mark of a base, with a sign in front. -/
def isMarkedInteger (cs : List Char) : Bool :=
  match cs with
  | '-' :: rest =>
    ((markedDigits? rest).bind fun (base, ds) => digitsValue? base ds).any (· ≤ Nat.pow 2 127)
  | _ =>
    ((dropPlus? cs).bind fun rest => (markedDigits? rest).bind fun (base, ds) =>
      digitsValue? base ds).any (· < Nat.pow 2 128)

/-- The digits of a decimal fraction with the number of them after the point, and the rest of the
text. -/
def splitDecimal (cs : List Char) : List Char × Nat × List Char :=
  let whole := cs.takeWhile Char.isDigit
  match cs.dropWhile Char.isDigit with
  | '.' :: rest =>
    let fraction := rest.takeWhile Char.isDigit
    (whole ++ fraction, fraction.length, rest.dropWhile Char.isDigit)
  | rest => (whole, 0, rest)

/-- The power of ten that the rest of a decimal fraction stands for. -/
def exponent? : List Char → Option Int
  | [] => some 0
  | c :: cs =>
    if c == 'e' || c == 'E' then
      match cs with
      | '-' :: ds => (digitsValue? 10 ds).map fun n => -(n : Int)
      | '+' :: ds => (digitsValue? 10 ds).map fun n => (n : Int)
      | ds => (digitsValue? 10 ds).map fun n => (n : Int)
    else none

/-- The least number that rounds to no finite floating point number of 64 bits. -/
def floatBound : Nat := Nat.pow 2 1024 - Nat.pow 2 970

/-- Whether `m` times the given power of ten is below `floatBound`, which lies between the
powers of ten with the exponents 308 and 309. -/
def isFinite (m : Nat) (power : Int) : Bool :=
  let magnitude := (Nat.toDigits 10 m).length + power
  if m == 0 || magnitude < 309 then true
  else if 309 < magnitude then false
  else if 0 ≤ power then m * Nat.pow 10 power.toNat < floatBound
  else m < floatBound * Nat.pow 10 (-power).toNat

/-- Whether a text without a sign is a decimal fraction that a floating point number of 64 bits
can hold. -/
def isDecimal (cs : List Char) : Bool :=
  let (digits, places, rest) := splitDecimal cs
  match digitsValue? 10 digits, exponent? rest with
  | some m, some e => isFinite m (e - places)
  | _, _ => false

/-- Whether a text is a decimal number. -/
def isDecimalNumber (cs : List Char) : Bool :=
  (dropPlus? cs).any fun rest => isDecimal (dropMinus rest)

/-- The words for infinity and for no number. -/
def isFloatWord (s : String) : Bool :=
  [".inf", ".Inf", ".INF", "+.inf", "+.Inf", "+.INF", "-.inf", "-.Inf", "-.INF", ".nan", ".NaN",
    ".NAN"].contains s

/-- Whether a text may be taken for a number. -/
def isNumberLike (s : String) : Bool :=
  isFloatWord s || isMarkedInteger s.toList || isDecimalNumber s.toList

end Outline.Text
