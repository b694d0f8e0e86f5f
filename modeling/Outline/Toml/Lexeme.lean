import Outline.Text.NumberLike

/-!
# Words of a configuration file

The texts, numbers and dates of a configuration file, and the space between them.  A reader takes
the characters that are left and answers what it reads from their front with the rest, or nothing
if the text is malformed.
-/

namespace Outline.Toml

/-! ## Space -/

/-- Spaces and tabs. -/
def isSpace (c : Char) : Bool := c == ' ' || c == '\t'

/-- Whether a character may not stand in a comment or in a text on one line. -/
def isForbidden (c : Char) : Bool := (c.toNat < 0x20 && c != '\t') || c.toNat == 0x7F

/-- Drops the space at the front. -/
def skipSpace (cs : List Char) : List Char := cs.dropWhile isSpace

/-- Drops space, line ends and comments at the front; `inComment` says whether the text starts
inside a comment. -/
def skipLines (inComment : Bool) : List Char → Option (List Char)
  | [] => some []
  | '\n' :: cs => skipLines false cs
  | '\r' :: '\n' :: cs => skipLines false cs
  | c :: cs =>
    if inComment then if isForbidden c then none else skipLines true cs
    else if isSpace c then skipLines false cs
    else if c == '#' then skipLines true cs
    else some (c :: cs)

/-- Drops what is left of a comment, with the end of its line. -/
def endComment : List Char → Option (List Char)
  | [] => some []
  | '\n' :: cs => some cs
  | '\r' :: '\n' :: cs => some cs
  | c :: cs => if isForbidden c then none else endComment cs

/-- Drops space, a comment and the end of the line, which must follow. -/
def endLine (cs : List Char) : Option (List Char) :=
  match skipSpace cs with
  | [] => some []
  | '#' :: cs => endComment cs
  | '\n' :: cs => some cs
  | '\r' :: '\n' :: cs => some cs
  | _ => none

/-! ## Texts -/

/-- The character with the given number of hexadecimal digits at the front of a text. -/
def codePoint? (digits : Nat) (cs : List Char) : Option Char :=
  if cs.length < digits then none
  else
    (Text.digitsValue? 16 (cs.take digits)).bind fun n =>
      if n.isValidChar then some (Char.ofNat n) else none

/-- The character that an escape stands for and the number of further characters that belong to
it, where `c` follows the backslash. -/
def escape? (c : Char) (cs : List Char) : Option (Char × Nat) :=
  match c with
  | 'b' => some ('\x08', 0)
  | 't' => some ('\t', 0)
  | 'n' => some ('\n', 0)
  | 'f' => some ('\x0C', 0)
  | 'r' => some ('\r', 0)
  | '\x22' => some ('\x22', 0)
  | '\\' => some ('\\', 0)
  | 'u' => (codePoint? 4 cs).map (·, 4)
  | 'U' => (codePoint? 8 cs).map (·, 8)
  | _ => none

/-- Reads up to the closing quote of a text with escapes; the characters before are in `before`,
the last one first. -/
def readQuoted (before : List Char) : List Char → Option (String × List Char)
  | [] => none
  | '\x22' :: cs => some (String.ofList before.reverse, cs)
  | '\\' :: c :: cs =>
    match escape? c cs with
    | some (d, used) => readQuoted (d :: before) (cs.drop used)
    | none => none
  | c :: cs => if isForbidden c || c == '\\' then none else readQuoted (c :: before) cs
termination_by cs => cs.length

/-- Reads up to the closing quote of a text without escapes. -/
def readLiteral (cs : List Char) : Option (String × List Char) :=
  let body := cs.takeWhile fun c => c != '\x27' && !isForbidden c
  match cs.drop body.length with
  | '\x27' :: rest => some (String.ofList body, rest)
  | _ => none

/-- The text that ends with three quotes at the front of `cs`, after which up to two more quotes
may follow that belong to the text. -/
def closeBlock (quote : Char) (before cs : List Char) : String × List Char :=
  let further := ((cs.take 2).takeWhile (· == quote)).length
  (String.ofList (before.reverse ++ List.replicate further quote), cs.drop further)

/-- Whether only space stands before the next line end. -/
def endsLine (cs : List Char) : Bool :=
  match skipSpace cs with
  | '\n' :: _ => true
  | '\r' :: '\n' :: _ => true
  | _ => false

/-- Drops space and line ends at the front. -/
def skipBlankLines : List Char → List Char
  | '\r' :: '\n' :: cs => skipBlankLines cs
  | c :: cs => if isSpace c || c == '\n' then skipBlankLines cs else c :: cs
  | [] => []

theorem length_skipBlankLines (cs : List Char) : (skipBlankLines cs).length ≤ cs.length := by
  fun_induction skipBlankLines cs <;> grind

/-- Reads up to the closing quotes of a text over several lines with escapes. -/
def readQuotedBlock (before : List Char) : List Char → Option (String × List Char)
  | [] => none
  | '\x22' :: '\x22' :: '\x22' :: cs => some (closeBlock '\x22' before cs)
  | '\r' :: '\n' :: cs => readQuotedBlock ('\n' :: before) cs
  | '\\' :: cs =>
    if endsLine cs then readQuotedBlock before (skipBlankLines cs)
    else match cs with
      | c :: cs =>
        match escape? c cs with
        | some (d, used) => readQuotedBlock (d :: before) (cs.drop used)
        | none => none
      | [] => none
  | c :: cs =>
    if isForbidden c && c != '\n' then none else readQuotedBlock (c :: before) cs
termination_by cs => cs.length
decreasing_by
  all_goals simp only [List.length_cons, List.length_drop]
  all_goals try omega
  have := length_skipBlankLines cs
  omega

/-- Reads up to the closing quotes of a text over several lines without escapes. -/
def readLiteralBlock (before : List Char) : List Char → Option (String × List Char)
  | [] => none
  | '\x27' :: '\x27' :: '\x27' :: cs => some (closeBlock '\x27' before cs)
  | '\r' :: '\n' :: cs => readLiteralBlock ('\n' :: before) cs
  | c :: cs =>
    if isForbidden c && c != '\n' then none else readLiteralBlock (c :: before) cs

/-- Drops the line end with which a text over several lines may start. -/
def dropFirstLineEnd : List Char → List Char
  | '\n' :: cs => cs
  | '\r' :: '\n' :: cs => cs
  | cs => cs

/-- Reads a text. -/
def readText : List Char → Option (String × List Char)
  | '\x22' :: '\x22' :: '\x22' :: cs => readQuotedBlock [] (dropFirstLineEnd cs)
  | '\x27' :: '\x27' :: '\x27' :: cs => readLiteralBlock [] (dropFirstLineEnd cs)
  | '\x22' :: cs => readQuoted [] cs
  | '\x27' :: cs => readLiteral cs
  | _ => none

/-! ## Keys -/

/-- The characters of a key without quotes. -/
def isKeyChar (c : Char) : Bool := (c.toNat < 0x80 && c.isAlphanum) || c == '_' || c == '-'

/-- Reads one part of a key. -/
def readKeyPart : List Char → Option (String × List Char)
  | '\x22' :: cs => readQuoted [] cs
  | '\x27' :: cs => readLiteral cs
  | cs =>
    let word := cs.takeWhile isKeyChar
    if word.isEmpty then none else some (String.ofList word, cs.drop word.length)

/-- Reads a key with dots between its parts, of which there are at most `parts`.  Space around
the parts does not count. -/
def readKeyUpTo : Nat → List Char → Option (List String × List Char)
  | 0, _ => none
  | parts + 1, cs => do
    let (first, rest) ← readKeyPart (skipSpace cs)
    match skipSpace rest with
    | '.' :: rest =>
      let (later, rest) ← readKeyUpTo parts rest
      pure (first :: later, rest)
    | rest => pure ([first], rest)

/-- Reads a key, and the space around it. -/
def readKey (cs : List Char) : Option (List String × List Char) := readKeyUpTo (cs.length + 1) cs

/-! ## Numbers -/

/-- Takes the underscores from a run of digits; each must stand between two digits. -/
def plainDigits? (isDigit : Char → Bool) : List Char → Option (List Char)
  | [] => some []
  | [c] => if isDigit c then some [c] else none
  | c :: '_' :: d :: cs =>
    if isDigit c && isDigit d then (plainDigits? isDigit (d :: cs)).map (c :: ·) else none
  | c :: cs => if isDigit c then (plainDigits? isDigit cs).map (c :: ·) else none

/-- The number with the given digits, which may have underscores between them. -/
def digits? (base : Nat) (cs : List Char) : Option Nat :=
  (plainDigits? (fun c => (Text.digitValue? base c).isSome) cs).bind (Text.digitsValue? base)

/-- A sign and the text after it. -/
def splitSign : List Char → Bool × List Char
  | '-' :: cs => (true, cs)
  | '+' :: cs => (false, cs)
  | cs => (false, cs)

/-- Whether a decimal number has no needless zero at its start. -/
def isTight (cs : List Char) : Bool := cs.length ≤ 1 || cs.head? != some '0'

/-- The integer that a word stands for, if it fits into 64 bits. -/
def integer? (cs : List Char) : Option Int := do
  let n ← match cs with
    | '0' :: 'x' :: ds => (digits? 16 ds).map Int.ofNat
    | '0' :: 'o' :: ds => (digits? 8 ds).map Int.ofNat
    | '0' :: 'b' :: ds => (digits? 2 ds).map Int.ofNat
    | _ =>
      let (negative, ds) := splitSign cs
      if isTight ds then (digits? 10 ds).map fun n => if negative then -(n : Int) else n else none
  if Int64.minValue.toInt ≤ n && n ≤ Int64.maxValue.toInt then pure n else none

/-- Whether a word is a fraction without a sign. -/
def isFraction (cs : List Char) : Bool :=
  let isExponentMark (c : Char) : Bool := c == 'e' || c == 'E'
  let mantissa := cs.takeWhile (!isExponentMark ·)
  let whole := mantissa.takeWhile (· != '.')
  let places := mantissa.drop whole.length
  let exponent := (splitSign (cs.drop (mantissa.length + 1))).2
  let plain (ds : List Char) : Option (List Char) :=
    if ds.isEmpty then none else plainDigits? Char.isDigit ds
  isTight whole && (plain whole).isSome &&
    (places.isEmpty || (plain (places.drop 1)).isSome) &&
    (mantissa.length == cs.length || (plain exponent).isSome) &&
    !(places.isEmpty && mantissa.length == cs.length) &&
    Text.isDecimal (cs.filter (· != '_'))

/-- Whether a word is a floating point number. -/
def isFloat (cs : List Char) : Bool :=
  let body := (splitSign cs).2
  body == "inf".toList || body == "nan".toList || isFraction body

/-! ## Dates -/

/-- The number with exactly the given count of decimal digits, if it is in range. -/
def field? (count low high : Nat) (cs : List Char) : Option Nat :=
  if cs.length == count && cs.all Char.isDigit then
    (Text.digitsValue? 10 cs).filter fun n => low ≤ n && n ≤ high
  else none

/-- The number of days of a month. -/
def daysOfMonth (year month : Nat) : Nat :=
  if month == 2 then
    if year % 4 == 0 && (year % 100 != 0 || year % 400 == 0) then 29 else 28
  else if [4, 6, 9, 11].contains month then 30
  else 31

/-- Whether a word is a date. -/
def isDate (cs : List Char) : Bool :=
  match field? 4 0 9999 (cs.take 4), field? 2 1 12 ((cs.drop 5).take 2) with
  | some year, some month =>
    cs[4]? == some '-' && cs[7]? == some '-' &&
      (field? 2 1 (daysOfMonth year month) (cs.drop 8)).isSome
  | _, _ => false

/-- Whether a word is a time of day, with a fraction of a second behind it. -/
def isTime (cs : List Char) : Bool :=
  (field? 2 0 23 (cs.take 2)).isSome && cs[2]? == some ':' &&
    (field? 2 0 59 ((cs.drop 3).take 2)).isSome && cs[5]? == some ':' &&
    (field? 2 0 60 ((cs.drop 6).take 2)).isSome &&
    match cs.drop 8 with
    | [] => true
    | '.' :: ds => !ds.isEmpty && ds.all Char.isDigit
    | _ => false

/-- Whether a word is the distance of a time zone. -/
def isOffset (cs : List Char) : Bool :=
  cs == ['Z'] || cs == ['z'] ||
    ((cs.head? == some '+' || cs.head? == some '-') &&
      (field? 2 0 23 ((cs.drop 1).take 2)).isSome && cs[3]? == some ':' &&
      (field? 2 0 59 (cs.drop 4)).isSome)

/-- Whether a word is a time of day, with a time zone or without. -/
def isZonedTime (cs : List Char) : Bool :=
  let time := cs.takeWhile fun c => c.isDigit || c == ':' || c == '.'
  isTime time && (time.length == cs.length || isOffset (cs.drop time.length))

/-- Whether a word is a date, a time or both. -/
def isDateTime (cs : List Char) : Bool :=
  isDate cs || isTime cs ||
    (isDate (cs.take 10) && ['T', 't', ' '].contains (cs[10]?.getD '.') &&
      isZonedTime (cs.drop 11))

/-- The characters of numbers, dates and other words. -/
def isWordChar (c : Char) : Bool :=
  isKeyChar c || c == '+' || c == '.' || c == ':'

/-- Splits a word from the front of a text.  A date may go on with a time behind a space. -/
def splitWord (cs : List Char) : List Char × List Char :=
  let word := cs.takeWhile isWordChar
  let rest := cs.drop word.length
  match isDate word, rest with
  | true, ' ' :: c :: later =>
    if c.isDigit then
      let time := (c :: later).takeWhile isWordChar
      (word ++ ' ' :: time, (c :: later).drop time.length)
    else (word, rest)
  | _, _ => (word, rest)

end Outline.Toml
