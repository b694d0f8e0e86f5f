import Outline.Text.Blank
import Outline.TypeRef.Basic

/-!
# Reading type references

`TypeRef.parse` reads the text of a type.  Angle brackets are taken away first: every argument
list, innermost lists before the lists around them, is cut out and numbered, and a marker, which
is `#` with the number, stands for it.  The flat text that is left is then read from the outside
in, and each marker brings its argument list back, at most once.

A flat segment is a wildcard or a name, an optional marker, any number of array brackets and an
optional question mark; a question mark may also stand before the array brackets.
-/

namespace Outline

/-! ## Errors -/

/-- Why a text is no type. -/
inductive TypeErrorCause where
  /-- The text contains the character that starts a marker. -/
  | reservedCharacter
  /-- An opening angle bracket has no partner. -/
  | unmatchedOpen
  /-- A closing angle bracket has no partner. -/
  | unmatchedClose
  /-- A type has no name. -/
  | missingName
  /-- An argument list is followed by further text, or is brought back twice. -/
  | invalidMarker
  deriving DecidableEq, Repr

/-- A text that is no type. -/
structure TypeError where
  /-- Why it is none. -/
  cause : TypeErrorCause
  /-- The text without the white space around it. -/
  text : String
  deriving DecidableEq, Repr

namespace TypeError

/-- How the error reads. -/
def message (e : TypeError) : String :=
  match e.cause with
  | .reservedCharacter => "Type '" ++ e.text ++ "' contains the reserved character '#'"
  | .unmatchedOpen => "Unmatched '<' in type '" ++ e.text ++ "'"
  | .unmatchedClose => "Unmatched '>' in type '" ++ e.text ++ "'"
  | .missingName => "Missing type name in '" ++ e.text ++ "'"
  | .invalidMarker => "Invalid generic parameter marker in '" ++ e.text ++ "'"

end TypeError

namespace TypeRef

/-! ## Taking the brackets away -/

/-- The character that starts a marker. -/
def markerStart : Char := '#'

/-- The marker that stands for the argument list with the given number. -/
def marker (n : Nat) : List Char := markerStart :: Nat.toDigits 10 n

/-- Cuts the argument lists out of a text.  The text since the innermost open bracket is in
`inner`, the texts before each of the open brackets are in `outer`, and the argument lists that
are complete are in `lists`, all with the last part first. -/
def cutLists (outer : List (List Char)) (inner : List Char) (lists : List (List Char)) :
    List Char → Except TypeErrorCause (List Char × List (List Char))
  | [] => if outer.isEmpty then .ok (inner.reverse, lists.reverse) else .error .unmatchedOpen
  | c :: cs =>
    if c == '<' then cutLists (inner :: outer) [] lists cs
    else if c == '>' then
      match outer with
      | [] => .error .unmatchedClose
      | before :: outer =>
        cutLists outer ((marker lists.length).reverse ++ before) (inner.reverse :: lists) cs
    else cutLists outer (c :: inner) lists cs

/-! ## Marks around a name -/

/-- Takes a question mark, and the white space before it, from the end of a reversed text. -/
def stripMark : List Char → List Char × Bool
  | '?' :: rs => (rs.dropWhile Text.isWhiteSpace, true)
  | rs => (rs, false)

/-- Takes array brackets, and the white space before each pair, from the end of a reversed
text. -/
def stripArrays : List Char → List Char × Nat
  | ']' :: '[' :: rs =>
    let (rest, n) := stripArrays (rs.dropWhile Text.isWhiteSpace)
    (rest, n + 1)
  | rs => (rs, 0)
termination_by rs => rs.length
decreasing_by
  have := (List.dropWhile_sublist (l := rs) Text.isWhiteSpace).length_le
  simp
  omega

/-- A flat segment without the marks after it. -/
structure Segment where
  /-- The name with the marker. -/
  core : List Char
  /-- Number of array brackets. -/
  dimensions : Nat
  /-- Whether there is a question mark after the name or after the array brackets. -/
  nullable : Bool
  deriving DecidableEq, Repr

/-- Takes the marks from the end of a segment that is no wildcard. -/
def stripMarks (cs : List Char) : Segment :=
  let (rs, outerMark) := stripMark cs.reverse
  let (rs, dimensions) := stripArrays rs
  let (rs, innerMark) := stripMark rs
  { core := rs.reverse, dimensions, nullable := outerMark || innerMark }

/-- The target of a bound in a wildcard, where the keyword counts only if a space follows. -/
def boundTarget? (keyword : String) (cs : List Char) : Option (List Char) :=
  if (keyword.toList ++ [' ']).isPrefixOf cs then some (cs.drop keyword.length) else none

theorem length_of_boundTarget? {keyword : String} {cs target : List Char}
    (h : boundTarget? keyword cs = some target) : target.length ≤ cs.length := by
  unfold boundTarget? at h
  split at h
  · cases h
    simp
  · cases h

/-- Takes the wildcards from the front of a segment without white space around it.  Answers the
names of the wildcards with bounds, the outermost first, and the text of the last bound, which is
`none` if the last wildcard has no bound.  Other text after a question mark is no wildcard. -/
def stripWildcards : List Char → Option (List String × Option (List Char))
  | '?' :: cs =>
    let bound := Text.trimStart cs
    if bound.isEmpty then some ([], none)
    else match _h : boundTarget? "extends" bound with
      | some target => (stripWildcards (Text.trim target)).map (Prod.map (upperWildcard :: ·) id)
      | none => match _h : boundTarget? "super" bound with
        | some target => (stripWildcards (Text.trim target)).map (Prod.map (lowerWildcard :: ·) id)
        | none => none
  | cs => some ([], some cs)
termination_by cs => cs.length
decreasing_by
  all_goals
    have := length_of_boundTarget? _h
    have := Text.length_trim_le target
    have : bound.length ≤ cs.length := Text.length_trimStart_le cs
    simp only [List.length_cons]
    omega

/-- A wildcard with the given name and bound. -/
def bounded (name : String) (bound : TypeRef) : TypeRef := { name, params := [bound] }

/-! ## Bringing the lists back -/

/-- The argument lists that have not been brought back. -/
abbrev ArgumentLists := List (Option (List Char))

/-- The number with the given decimal digits. -/
def number? (cs : List Char) : Option Nat :=
  if cs.isEmpty || !cs.all Char.isDigit then none
  else some (cs.foldl (fun n c => 10 * n + (c.toNat - '0'.toNat)) 0)

/-- Brings an argument list back; the number after the marker is in `digits`. -/
def takeList (digits : List Char) : StateT ArgumentLists (Except TypeErrorCause) (List Char) :=
  fun lists =>
    match (number? digits).bind (fun n => (lists[n]?.join).map (n, ·)) with
    | some (n, list) => .ok (list, lists.set n none)
    | none => .error .invalidMarker

/-- Reads a segment of flat text.  Each level of arguments brings back a list of its own, so that
the number of lists bounds the number of levels. -/
def readSegment : Nat → List Char → StateT ArgumentLists (Except TypeErrorCause) TypeRef
  | levels, cs =>
    match stripWildcards (Text.trim cs) with
    | none => throw .missingName
    | some (names, none) => pure (names.foldr bounded (simple anyWildcard))
    | some (names, some plain) => do
      let segment := stripMarks plain
      let params ← match levels, segment.core.dropWhile (· != markerStart) with
        | _, [] => pure []
        | 0, _ => throw .invalidMarker
        | levels + 1, _ :: digits => do
          let list ← takeList digits
          (Text.pieces ',' list).mapM (readSegment levels)
      let name := Text.trimEnd (segment.core.takeWhile (· != markerStart))
      if name.isEmpty then throw .missingName
      pure (names.foldr bounded {
        name := String.ofList name, nullable := segment.nullable,
        dimensions := segment.dimensions, params })

/-- Reads the characters of a type. -/
def parseChars (cs : List Char) : Except TypeErrorCause TypeRef :=
  if cs.contains markerStart then .error .reservedCharacter
  else do
    let (flat, lists) ← cutLists [] [] [] cs
    let (t, _) ← (readSegment lists.length flat).run (lists.map some)
    pure t

/-- Reads a type. -/
def parse (text : String) : Except TypeError TypeRef :=
  let cs := Text.trim text.toList
  (parseChars cs).mapError (⟨·, String.ofList cs⟩)

end TypeRef

end Outline
