import Outline.Text.Alphabetic

/-!
# Scanning identifiers

An identifier token may be a whole type: a dotted name, an argument list in angle brackets and
array brackets, so that `Map<String, List<int>>[]` is one token.  The grammar is

    type = name ('.' name)* ['<' ' '* arg ' '* (',' ' '* arg ' '*)* '>'] ['?'] ('[' ']')*

where the question mark is read inside angle brackets only, and an argument is a type or, where
wildcards are accepted, `?`, `? extends type` or `? super type`.

Every function here takes the text that is left and answers the number of characters it reads
from the front, or `none`.
-/

namespace Outline

/-- The flavour of the identifiers of a language. -/
structure IdentifierStyle where
  /-- Characters besides letters and `_` that may start a name. -/
  extraStart : List Char
  /-- Characters besides letters, digits and `_` that may follow. -/
  extraPart : List Char
  /-- Whether a name may carry a list of type arguments. -/
  generics : Bool
  /-- Whether a type argument may be a wildcard. -/
  wildcards : Bool
  /-- The deepest nesting of angle brackets that is read. -/
  maxDepth : Nat
  deriving DecidableEq, Repr

namespace IdentifierStyle

/-- Whether `c` may start a name. -/
def starts (style : IdentifierStyle) (c : Char) : Bool :=
  Text.isAlphabetic c || c == '_' || style.extraStart.contains c

/-- Whether `c` may stand in a name after its first character. -/
def continues (style : IdentifierStyle) (c : Char) : Bool :=
  Text.isAlphanumeric c || c == '_' || style.extraPart.contains c

/-- Number of spaces at the front. -/
def spaces (cs : List Char) : Nat := (cs.takeWhile (· == ' ')).length

/-- Reads a name.  A character that may only start a name is no name on its own. -/
def scanName (style : IdentifierStyle) : List Char → Option Nat
  | [] => none
  | c :: cs =>
    if style.starts c then
      let n := (cs.takeWhile style.continues).length
      if n == 0 && style.extraStart.contains c && !style.extraPart.contains c then none
      else some (n + 1)
    else none

/-- Reads the names that follow a name, each after a dot. -/
def scanDots (style : IdentifierStyle) : List Char → Nat
  | '.' :: cs =>
    match style.scanName cs with
    | some n => n + 1 + style.scanDots (cs.drop n)
    | none => 0
  | _ => 0
termination_by cs => cs.length
decreasing_by simp only [List.length_cons, List.length_drop]; omega

/-- Reads a dotted name. -/
def scanDotted (style : IdentifierStyle) (cs : List Char) : Option Nat :=
  (style.scanName cs).map fun n => n + style.scanDots (cs.drop n)

/-- Reads array brackets. -/
def scanArrays : List Char → Nat
  | '[' :: ']' :: cs => 2 + scanArrays cs
  | _ => 0

/-- Reads the arguments up to the closing angle bracket, each by `arg`. -/
def scanArguments (arg : List Char → Option Nat) (cs : List Char) : Option Nat :=
  match arg cs with
  | none => none
  | some n =>
    let n := n + spaces (cs.drop n)
    match h : cs.drop n with
    | ',' :: rest =>
      let k := spaces rest
      (scanArguments arg (rest.drop k)).map (n + 1 + k + ·)
    | '>' :: _ => some (n + 1)
    | _ => none
termination_by cs.length
decreasing_by
  have := congrArg List.length h
  simp only [List.length_drop, List.length_cons] at this ⊢
  omega

/-- Reads a list of arguments with its angle brackets, each argument by `arg`. -/
def scanBrackets (arg : List Char → Option Nat) : List Char → Option Nat
  | '<' :: cs =>
    let k := spaces cs
    (scanArguments arg (cs.drop k)).map (1 + k + ·)
  | _ => none

/-- Reads the bound of a wildcard after its keyword, as a type by `type`.  The keyword counts
only if a space follows it. -/
def scanBound (type : List Char → Option Nat) (keyword : String) (cs : List Char) :
    Option (Option Nat) :=
  if keyword.toList.isPrefixOf cs && (cs.drop keyword.length).head? == some ' ' then
    let n := keyword.length
    let k := spaces (cs.drop n)
    some ((type (cs.drop (n + k))).map (n + k + ·))
  else none

/-- Reads one type argument, where `type` reads a type. -/
def scanArgument (style : IdentifierStyle) (type : List Char → Option Nat) (cs : List Char) :
    Option Nat :=
  match style.wildcards, cs with
  | true, '?' :: rest =>
    let k := spaces rest
    match (scanBound type "extends" (rest.drop k)).or (scanBound type "super" (rest.drop k)) with
    | some bound => bound.map (1 + k + ·)
    | none => some 1
  | _, _ => type cs

/-- Reads a type with at most `depth` levels of angle brackets.  An argument list that cannot be
read is left alone at the top, where `nested` is false, and makes the reading fail below it. -/
def scanType (style : IdentifierStyle) : (depth : Nat) → (nested : Bool) → List Char → Option Nat
  | 0, nested, cs => do
    let n ← style.scanDotted cs
    if style.generics && (cs.drop n).head? == some '<' && nested then none
    else some (finish nested cs n)
  | depth + 1, nested, cs => do
    let n ← style.scanDotted cs
    if style.generics && (cs.drop n).head? == some '<' then
      match scanBrackets (style.scanArgument (scanType style depth true)) (cs.drop n) with
      | some k => some (finish nested cs (n + k))
      | none => if nested then none else some (finish nested cs n)
    else some (finish nested cs n)
where
  /-- Reads the question mark and the array brackets after the first `n` characters. -/
  finish (nested : Bool) (cs : List Char) (n : Nat) : Nat :=
    let n := if nested && (cs.drop n).head? == some '?' then n + 1 else n
    n + scanArrays (cs.drop n)

/-- Reads an identifier token. -/
def scan (style : IdentifierStyle) (cs : List Char) : Option Nat :=
  style.scanType style.maxDepth false cs

end IdentifierStyle

end Outline
