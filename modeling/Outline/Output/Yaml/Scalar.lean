import Outline.Text.NumberLike
import Outline.Text.Quoted

/-!
# YAML scalars

How a text is written in a YAML document: plain, between single or double quotes, or as a block
of lines.  A text that would be taken for another kind of value is quoted; a text with line feeds
becomes a block if a block can hold it.
-/

namespace Outline.Yaml

/-! ## Classes of characters -/

/-- The characters that break a line in YAML. -/
def isBreak (c : Char) : Bool :=
  c == '\n' || c == '\r' || c == '\u0085' || c == '\u2028' || c == '\u2029'

/-- Spaces, tabs, line breaks and the null character. -/
def isSpacing (c : Char) : Bool := c == ' ' || c == '\t' || c == '\x00' || isBreak c

/-- The characters that may be written as they are. -/
def isShown (c : Char) : Bool :=
  let n := c.toNat
  c == '\n' || (0x20 ≤ n && n ≤ 0x7E) || (0xA0 ≤ n && n ≤ 0xFFFD && n != 0xFEFF) || 0x10000 ≤ n

/-- The characters that must not start a plain text. -/
def startMarks : List Char :=
  ['#', ',', '[', ']', '\x7b', '\x7d', '&', '*', '!', '|', '>', '\x27', '\x22', '%', '@', '\x60']

/-! ## Properties of a text -/

/-- Whether the text holds a character that satisfies `p` and after it one that satisfies `q`. -/
def hasPair (p q : Char → Bool) : List Char → Bool
  | a :: b :: cs => (p a && q b) || hasPair p q (b :: cs)
  | _ => false

/-- Whether the start of the text has a meaning of its own. -/
def hasStartMark : List Char → Bool
  | '-' :: '-' :: '-' :: _ | '.' :: '.' :: '.' :: _ => true
  | c :: cs =>
    startMarks.contains c ||
      ((c == '?' || c == ':' || c == '-') && (cs.head?.map isSpacing).getD true)
  | [] => false

/-- Whether a colon ends a word, or a hash sign starts one, after the first character. -/
def hasInnerMark (cs : List Char) : Bool :=
  hasPair (· == ':') isSpacing cs || hasPair isSpacing (· == '#') cs ||
    (1 < cs.length && cs.getLast? == some ':')

/-- Whether a character satisfies `p` at the start or at the end. -/
def atEnds (p : Char → Bool) (cs : List Char) : Bool := cs.head?.any p || cs.getLast?.any p

/-- Whether the text may stand in a block without quotes on one line. -/
def allowsPlain (cs : List Char) : Bool :=
  !hasStartMark cs && !hasInnerMark cs && !atEnds (· == ' ') cs && !cs.any isBreak &&
    cs.all isShown

/-- Whether the text may stand between single quotes. -/
def allowsSingleQuotes (cs : List Char) : Bool :=
  cs.all isShown && !hasPair (· == ' ') isBreak cs && !hasPair isBreak (· == ' ') cs

/-- Whether the text may be written as a block of lines. -/
def allowsLines (cs : List Char) : Bool :=
  !cs.isEmpty && cs.all isShown && !hasPair (· == ' ') isBreak cs && cs.getLast? != some ' '

/-- Whether a plain text would be taken for a value of another kind. -/
def isAmbiguous (s : String) : Bool :=
  ["", "null", "Null", "NULL", "~", "true", "True", "TRUE", "false", "False", "FALSE"].contains s ||
    Text.isNumberLike s || hasLeadingZero s.toList
where
  /-- A zero and further digits behind an optional sign. -/
  hasLeadingZero : List Char → Bool
    | '+' :: '0' :: c :: cs | '-' :: '0' :: c :: cs | '0' :: c :: cs => (c :: cs).all Char.isDigit
    | _ => false

/-! ## Styles -/

/-- How a text is written. -/
inductive ScalarStyle where
  /-- Without quotes. -/
  | plain
  /-- Between single quotes. -/
  | single
  /-- Between double quotes. -/
  | double
  /-- As a block of lines. -/
  | lines
  deriving DecidableEq, Repr

/-- The style of a text. -/
def style (s : String) : ScalarStyle :=
  let cs := s.toList
  let quoted := if allowsSingleQuotes cs then .single else .double
  if cs.contains '\n' then if allowsLines cs then .lines else .double
  else if isAmbiguous s then quoted
  else if allowsPlain cs then .plain
  else quoted

/-! ## Written forms -/

/-- Spaces up to the given column. -/
def spaces (n : Nat) : List Char := List.replicate n ' '

/-- A text between single quotes, where each line after a break starts at the given column. -/
def singleQuoted (column : Nat) (cs : List Char) : List Char :=
  '\x27' :: go false cs ++ ['\x27']
where
  /-- The characters of the text, where `broken` tells whether a break comes before them. -/
  go (broken : Bool) : List Char → List Char
    | [] => if broken then spaces column else []
    | c :: cs =>
      if isBreak c then c :: go true cs
      else (if broken then spaces column else []) ++
        (if c == '\x27' then ['\x27', c] else [c]) ++ go false cs

/-- The digits of a number in base sixteen, in capitals, at least `width` of them. -/
def capitalHex (width n : Nat) : List Char :=
  let digits := (Nat.toDigits 16 n).map Char.toUpper
  List.replicate (width - digits.length) '0' ++ digits

/-- The escape of a character between double quotes. -/
def escape (c : Char) : List Char :=
  let named := [('\x00', '0'), ('\x07', 'a'), ('\x08', 'b'), ('\t', 't'), ('\n', 'n'),
    ('\x0B', 'v'), ('\x0C', 'f'), ('\r', 'r'), ('\x1B', 'e'), ('\x22', '\x22'),
    ('\\', '\\'), ('\u0085', 'N'), ('\u00A0', '_'), ('\u2028', 'L'), ('\u2029', 'P')]
  '\\' :: match named.lookup c with
    | some letter => [letter]
    | none =>
      let n := c.toNat
      if n ≤ 0xFF then 'x' :: capitalHex 2 n
      else if n ≤ 0xFFFF then 'u' :: capitalHex 4 n
      else 'U' :: capitalHex 8 n

/-- A text between double quotes. -/
def doubleQuoted (cs : List Char) : List Char :=
  '\x22' :: (cs.flatMap fun c =>
    if !isShown c || isBreak c || c == '\x22' || c == '\\' then escape c else [c]) ++ ['\x22']

/-- The marks in front of a block of lines: the indent, if the text starts with spacing, and
whether the breaks at the end are dropped or kept. -/
def lineMarks (cs : List Char) : List Char :=
  let indent := if cs.head?.any (fun c => c == ' ' || isBreak c) then ['2'] else []
  let ending := match cs.reverse with
    | c :: rest =>
      if !isBreak c then ['-'] else if rest.isEmpty || rest.head?.any isBreak then ['+'] else []
    | [] => ['-']
  '|' :: indent ++ ending

/-- A text as a block of lines that start at the given column. -/
def lineBlock (column : Nat) (cs : List Char) : List Char := lineMarks cs ++ '\n' :: go true cs
where
  /-- The characters of the text, where `broken` tells whether a line starts with them. -/
  go (broken : Bool) : List Char → List Char
    | [] => []
    | c :: cs =>
      if isBreak c then c :: go true cs
      else (if broken then spaces column else []) ++ c :: go false cs

/-- The written form of a text; further lines start at the given column. -/
def scalar (column : Nat) (s : String) : String :=
  let cs := s.toList
  match style s with
  | .plain => s
  | .single => String.ofList (singleQuoted column cs)
  | .double => String.ofList (doubleQuoted cs)
  | .lines => String.ofList (lineBlock column cs)

/-- Whether a key can be written in front of its value on one line. -/
def isSimpleKey (s : String) : Bool := s.utf8ByteSize ≤ 128 && !s.toList.any isBreak

end Outline.Yaml
