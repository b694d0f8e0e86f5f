import Outline.Text.Blank
import Outline.Token.Basic
import Outline.Token.Identifier

/-!
# Recognizers

A recognizer says which texts form one token.  `Recognizer.scan` takes the text that is left and
answers how many characters the recognizer reads from its front; a match has at least one
character.  Bracket pairs are recognizers too, but they own other tokens and are left to the
tokenizer.

A `RuleSet` holds the recognizers of a language in order of priority, with an index by the
first character of a match.
-/

namespace Outline

/-! ## String literals -/

/-- The flavours of string literals that a language accepts. -/
structure StringStyle where
  /-- Quotes of literals on one line, in which a backslash escapes a character. -/
  quotes : List Char
  /-- Literals `@"..."` over several lines, in which a quote is doubled. -/
  verbatim : Bool
  /-- Literals `$"..."`, and `$@"..."` where verbatim literals are accepted. -/
  interpolated : Bool
  /-- Literals between three double quotes, over several lines. -/
  textBlocks : Bool
  /-- Literals between backticks, over several lines. -/
  templates : Bool
  deriving DecidableEq, Repr

namespace StringStyle

/-- Reads up to and with the closing `quote`; a backslash escapes the character after it.  A
line end stops the reading unless `multiline`. -/
def scanQuoted (quote : Char) (multiline : Bool) : List Char → Option Nat
  | [] => none
  | ['\\'] => none
  | '\\' :: _ :: cs => (scanQuoted quote multiline cs).map (· + 2)
  | c :: cs =>
    if c == quote then some 1
    else if Text.isLineEnd c && !multiline then none
    else (scanQuoted quote multiline cs).map (· + 1)

/-- Reads up to and with the closing quote of a verbatim literal, where a doubled quote stands
for one. -/
def scanVerbatim : List Char → Option Nat
  | [] => none
  | '"' :: '"' :: cs => (scanVerbatim cs).map (· + 2)
  | '"' :: _ => some 1
  | _ :: cs => (scanVerbatim cs).map (· + 1)

/-- Reads up to and with the three quotes that close a text block. -/
def scanTextBlock : List Char → Option Nat
  | [] => none
  | ['\\'] => none
  | '\\' :: _ :: cs => (scanTextBlock cs).map (· + 2)
  | '"' :: '"' :: '"' :: _ => some 3
  | _ :: cs => (scanTextBlock cs).map (· + 1)

/-- Reads a verbatim or interpolated literal with its opening marks. -/
def scanMarked (style : StringStyle) : List Char → Option (Option Nat)
  | '@' :: '"' :: cs => if style.verbatim then some ((scanVerbatim cs).map (· + 2)) else none
  | '$' :: '@' :: '"' :: cs => if style.verbatim then some ((scanVerbatim cs).map (· + 3)) else none
  | '@' :: '$' :: '"' :: cs => if style.verbatim then some ((scanVerbatim cs).map (· + 3)) else none
  | '$' :: '"' :: cs =>
    if style.interpolated then some ((scanQuoted '"' false cs).map (· + 2)) else none
  | _ => none

/-- Reads a string literal.  The first flavour whose opening fits decides. -/
def scan (style : StringStyle) (cs : List Char) : Option Nat :=
  match style.textBlocks, cs with
  | true, '"' :: '"' :: '"' :: rest => (scanTextBlock rest).map (· + 3)
  | _, [] => none
  | _, c :: rest =>
    if style.templates && c == '`' then (scanQuoted '`' true rest).map (· + 1)
    else match style.scanMarked cs with
      | some result => result
      | none =>
        if style.quotes.contains c then (scanQuoted c false rest).map (· + 1) else none

end StringStyle

/-! ## Numbers -/

namespace NumberLiteral

/-- Number of characters at the front that are digits, of the class `digit`, or underscores. -/
def digitRun (digit : Char → Bool) (cs : List Char) : Nat :=
  (cs.takeWhile (fun c => digit c || c == '_')).length

/-- Whether `c` is a hexadecimal digit. -/
def isHexDigit (c : Char) : Bool :=
  c.isDigit || ('a' ≤ c && c ≤ 'f') || ('A' ≤ c && c ≤ 'F')

/-- The letters that may end a number. -/
def suffixes : List Char := ['f', 'F', 'd', 'D', 'm', 'M', 'l', 'L', 'u', 'U', 'n']

/-- Whether the text starts with a decimal digit. -/
def startsWithDigit (cs : List Char) : Bool := cs.head?.any Char.isDigit

/-- Reads a fraction: a dot and a digit, then further digits. -/
def scanFraction : List Char → Nat
  | '.' :: cs => if startsWithDigit cs then 1 + digitRun Char.isDigit cs else 0
  | _ => 0

/-- Reads an exponent: its letter, a sign if there is one, and digits. -/
def scanExponent : List Char → Nat
  | c :: cs =>
    if c == 'e' || c == 'E' then
      let sign := if cs.head? == some '+' || cs.head? == some '-' then 1 else 0
      let digits := cs.drop sign
      if startsWithDigit digits then 1 + sign + digitRun Char.isDigit digits else 0
    else 0
  | [] => 0

/-- Reads the digits of a number without its suffix. -/
def scanDigits : List Char → Nat
  | '0' :: c :: cs =>
    if c == 'x' || c == 'X' then 2 + digitRun isHexDigit cs
    else if c == 'b' || c == 'B' then 2 + digitRun (fun d => d == '0' || d == '1') cs
    else decimal ('0' :: c :: cs)
  | cs => decimal cs
where
  /-- Reads a decimal number with its fraction and its exponent. -/
  decimal (cs : List Char) : Nat :=
    let n := digitRun Char.isDigit cs
    let n := n + scanFraction (cs.drop n)
    n + scanExponent (cs.drop n)

/-- Reads a number. -/
def scan (cs : List Char) : Option Nat :=
  if startsWithDigit cs then
    let n := scanDigits cs
    some (n + ((cs.drop n).takeWhile suffixes.contains).length)
  else none

end NumberLiteral

/-! ## Recognizers -/

/-- A class of texts that form one token. -/
inductive Recognizer where
  /-- A run of blank characters. -/
  | whitespace
  /-- A comment from its opening up to the end of the line. -/
  | lineComment (opening : String)
  /-- A comment from its opening to its closing. -/
  | blockComment (opening closing : String)
  /-- A string literal. -/
  | string (style : StringStyle)
  /-- A bracket pair, which owns the tokens inside it. -/
  | block (opening closing : Char)
  /-- An identifier, possibly a whole type. -/
  | identifier (style : IdentifierStyle)
  /-- The longest of the given operators. -/
  | operators (words : List String)
  /-- The longest of the given separators. -/
  | separators (words : List String)
  /-- A number. -/
  | number
  /-- The rest of a line from the given character on. -/
  | directive (mark : Char)
  deriving DecidableEq, Repr

namespace Recognizer

/-- The letters of ASCII. -/
def asciiLetters : List Char :=
  ((List.range 26).map fun n => Char.ofNat ('a'.toNat + n)) ++
    ((List.range 26).map fun n => Char.ofNat ('A'.toNat + n))

/-- The ASCII characters at which a match may start. -/
def firstChars : Recognizer → List Char
  | whitespace => [' ', '\t', '\n', '\r', '\x0B', '\x0C']
  | lineComment opening | blockComment opening _ => opening.toList.take 1
  | string style =>
    style.quotes ++ (if style.verbatim then ['@'] else []) ++
      (if style.interpolated then ['$'] else []) ++
      (if style.textBlocks then ['"'] else []) ++ (if style.templates then ['`'] else [])
  | block opening _ => [opening]
  | identifier style => asciiLetters ++ '_' :: style.extraStart
  | operators words | separators words => words.filterMap (·.toList.head?)
  | number => (List.range 10).map fun n => Char.ofNat ('0'.toNat + n)
  | directive mark => [mark]

/-- Whether a match may start at a character beyond ASCII. -/
def acceptsUnicode : Recognizer → Bool
  | whitespace | identifier _ => true
  | _ => false

/-- Number of characters up to the end of the line. -/
def restOfLine (cs : List Char) : Nat := (cs.takeWhile (fun c => !Text.isLineEnd c)).length

/-- Reads up to and with the first occurrence of `closing`. -/
def scanThrough (closing : List Char) : List Char → Option Nat
  | [] => none
  | c :: cs =>
    if closing.isPrefixOf (c :: cs) then some closing.length
    else (scanThrough closing cs).map (· + 1)

/-- The length of the longest of the words that the text starts with. -/
def longestWord (words : List String) (cs : List Char) : Option Nat :=
  ((words.filter (fun w => w.toList.isPrefixOf cs)).map (·.length)).max?

/-- Reads from the front of the text what the recognizer asks for, possibly nothing. -/
def read : Recognizer → List Char → Option Nat
  | whitespace, cs => some (cs.takeWhile Text.isBlank).length
  | lineComment opening, cs =>
    if opening.toList.isPrefixOf cs then
      some (opening.length + restOfLine (cs.drop opening.length))
    else none
  | blockComment opening closing, cs =>
    if opening.toList.isPrefixOf cs then
      (scanThrough closing.toList (cs.drop opening.length)).map (opening.length + ·)
    else none
  | string style, cs => style.scan cs
  | block _ _, _ => none
  | identifier style, cs => style.scan cs
  | operators words, cs | separators words, cs => longestWord words cs
  | number, cs => NumberLiteral.scan cs
  | directive mark, cs => if cs.head? == some mark then some (restOfLine cs) else none

/-- The number of characters of the match at the front of the text.  A match is not empty, and a
bracket pair has none here. -/
def scan (r : Recognizer) (cs : List Char) : Option Nat := (r.read cs).filter (0 < ·)

end Recognizer

/-! ## Rules -/

/-- What becomes of the text that a recognizer reads. -/
inductive Classifier where
  /-- It is a token of the given kind. -/
  | ofKind (kind : TokenKind)
  /-- It is a keyword if the language has it as one, and else an identifier. -/
  | keywordOrIdentifier
  /-- It is left out. -/
  | discard
  deriving DecidableEq, Repr

/-- A recognizer with the use of what it reads. -/
structure Rule where
  /-- Which texts the rule is about. -/
  recognizer : Recognizer
  /-- What becomes of them. -/
  classifier : Classifier
  deriving DecidableEq, Repr

namespace Rule

/-- Whether the index lists the rule at the character `c`. -/
def mayStart (r : Rule) (c : Char) : Bool :=
  if c.toNat < 0x80 then r.recognizer.firstChars.contains c else r.recognizer.acceptsUnicode

/-- The closing bracket of a bracket pair. -/
def closer? (r : Rule) : Option Char :=
  match r.recognizer with
  | .block _ closing => some closing
  | _ => none

end Rule

/-- The rules of a language in order of priority, with an index by first character. -/
structure RuleSet where
  /-- The rules, the first one that matches wins. -/
  rules : List Rule
  /-- For each ASCII character the places of the rules that may start there. -/
  ascii : Array (List Nat)
  /-- The places of the rules that may start at a character beyond ASCII. -/
  unicode : List Nat
  /-- The closing brackets. -/
  closers : List Char
  deriving Repr

namespace RuleSet

/-- The places, in order, of the rules that may start at `c`. -/
def startingAt (rules : List Rule) (c : Char) : List Nat :=
  (rules.zipIdx.filter (fun r => r.1.mayStart c)).map (·.2)

/-- Builds the index of a list of rules. -/
def ofRules (rules : List Rule) : RuleSet where
  rules := rules
  ascii := Array.ofFn (fun n : Fin 128 => startingAt rules (Char.ofNat n))
  unicode := startingAt rules (Char.ofNat 0x80)
  closers := rules.filterMap Rule.closer?

/-- The places, in order, of the rules that the index lists at `c`. -/
def candidates (s : RuleSet) (c : Char) : List Nat :=
  if c.toNat < 0x80 then (s.ascii[c.toNat]?).getD [] else s.unicode

/-- The rules that the index lists at `c`, in order. -/
def candidateRules (s : RuleSet) (c : Char) : List Rule :=
  (s.candidates c).filterMap (s.rules[·]?)

/-- Whether `c` closes some bracket pair. -/
def isCloser (s : RuleSet) (c : Char) : Bool := s.closers.contains c

end RuleSet

end Outline
