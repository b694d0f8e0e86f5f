/-!
# Glob patterns

A glob pattern describes the relative paths of files.

* `?` stands for a character and `*` for any characters, but not for slashes.
* `[abc]`, `[a-z]` and `[!a-z]` stand for one character of a class or outside of it.
* `**` stands for any number of directories where it is a whole piece between slashes.
* `{a,b}` stands for one of several texts.
* A backslash takes the special meaning from the character after it.

The patterns are those of ignore files.
-/

namespace Outline

/-- A piece of a glob pattern. -/
inductive GlobToken where
  /-- The given character. -/
  | char (c : Char)
  /-- Any character but a slash. -/
  | anyChar
  /-- Any characters but slashes. -/
  | anyChars
  /-- A character inside one of the ranges, or outside of all of them. -/
  | charClass (negated : Bool) (ranges : List (Char × Char))
  /-- Any number of directories at the start, each with its slash. -/
  | leadingDirectories
  /-- A slash and any number of directories, each with its slash. -/
  | innerDirectories
  /-- A slash and everything behind it. -/
  | everythingBelow
  deriving DecidableEq, Repr

/-- A glob pattern without alternatives. -/
abbrev GlobPattern := List GlobToken

namespace GlobPattern

/-! ## Matching -/

/-- Whether a character belongs to a class. -/
def inClass (negated : Bool) (ranges : List (Char × Char)) (c : Char) : Bool :=
  ranges.any (fun (first, last) => first ≤ c && c ≤ last) != negated

/-- Whether the rest of a text after any of its slashes satisfies `p`. -/
def afterSomeSlash (p : List Char → Bool) : List Char → Bool
  | [] => false
  | c :: cs => (c == '/' && p cs) || afterSomeSlash p cs

/-- Whether the rest of a text after some characters that are no slashes satisfies `p`. -/
def afterSomeChars (p : List Char → Bool) : List Char → Bool
  | [] => p []
  | c :: cs => p (c :: cs) || (c != '/' && afterSomeChars p cs)

/-- Whether the pattern describes a text. -/
def describes : GlobPattern → List Char → Bool
  | [], cs => cs.isEmpty
  | [.leadingDirectories], _ => true
  | .char c :: rest, cs =>
    match cs with
    | d :: ds => c == d && describes rest ds
    | [] => false
  | .anyChar :: rest, cs =>
    match cs with
    | d :: ds => d != '/' && describes rest ds
    | [] => false
  | .charClass negated ranges :: rest, cs =>
    match cs with
    | d :: ds => inClass negated ranges d && describes rest ds
    | [] => false
  | .anyChars :: rest, cs => afterSomeChars (describes rest) cs
  | .leadingDirectories :: rest, cs => describes rest cs || afterSomeSlash (describes rest) cs
  | .innerDirectories :: rest, cs =>
    match cs with
    | '/' :: ds => describes rest ds || afterSomeSlash (describes rest) ds
    | _ => false
  | .everythingBelow :: _, cs => cs.head? == some '/'

/-! ## Reading -/

/-- Whether a class is negated, and the text of its members. -/
def classMembers : List Char → Bool × List Char
  | '!' :: cs => (true, cs)
  | '^' :: cs => (true, cs)
  | cs => (false, cs)

/-- Reads the members of a character class up to its closing bracket, where a hyphen before the
text is pending if `inRange`.  Answers the ranges, in reverse order, and the text after the
class. -/
def readClass (ranges : List (Char × Char)) (inRange : Bool) :
    List Char → Option (List (Char × Char) × List Char)
  | [] => none
  | c :: cs =>
    match ranges with
    | [] => readClass [(c, c)] false cs
    | (first, last) :: earlier =>
      if c == ']' then some (if inRange then ('-', '-') :: ranges else ranges, cs)
      else if inRange then
        if first ≤ c then readClass ((first, c) :: earlier) false cs else none
      else if c == '-' then readClass ((first, last) :: earlier) true cs
      else readClass ((c, c) :: (first, last) :: earlier) false cs

theorem length_readClass {ranges result : List (Char × Char)} {inRange : Bool}
    {cs rest : List Char} (h : readClass ranges inRange cs = some (result, rest)) :
    rest.length < cs.length := by
  fun_induction readClass ranges inRange cs <;> grind

theorem length_classMembers (cs : List Char) : (classMembers cs).2.length ≤ cs.length := by
  unfold classMembers
  split <;> simp

/-- What a run of two or more stars stands for, where `before` are the tokens before it, the last
one first, and `after` is the text behind the first two stars.  Answers the tokens, the last one
first, and the text that is left. -/
def readDoubleStar (before : GlobPattern) (after : List Char) : GlobPattern × List Char :=
  match before, after with
  | [], [] => ([.leadingDirectories], [])
  | [], '/' :: rest => ([.leadingDirectories], rest)
  | [.leadingDirectories], [] => (before, [])
  | [.leadingDirectories], '/' :: rest => (before, rest)
  | .innerDirectories :: earlier, [] => (.everythingBelow :: earlier, [])
  | .innerDirectories :: _, '/' :: rest => (before, rest)
  | .char '/' :: earlier, [] => (.everythingBelow :: earlier, [])
  | .char '/' :: earlier, '/' :: rest => (.innerDirectories :: earlier, rest)
  | _, _ => (.anyChars :: .anyChars :: before, after)

theorem length_readDoubleStar (before : GlobPattern) (after : List Char) :
    (readDoubleStar before after).2.length ≤ after.length := by
  unfold readDoubleStar
  split <;> simp

/-- Reads a pattern without alternatives; the tokens before the text are in `before`, the last
one first. -/
def readFrom (before : GlobPattern) : List Char → Option GlobPattern
  | [] => some before.reverse
  | '\\' :: cs =>
    match cs with
    | c :: cs => readFrom (.char c :: before) cs
    | [] => none
  | '?' :: cs => readFrom (.anyChar :: before) cs
  | '*' :: '*' :: cs => readFrom (readDoubleStar before cs).1 (readDoubleStar before cs).2
  | '*' :: cs => readFrom (.anyChars :: before) cs
  | '[' :: cs =>
    match _h : readClass [] false (classMembers cs).2 with
    | some (ranges, rest) =>
      readFrom (.charClass (classMembers cs).1 ranges.reverse :: before) rest
    | none => none
  | c :: cs => readFrom (.char c :: before) cs
termination_by cs => cs.length
decreasing_by
  all_goals simp only [List.length_cons]
  all_goals try omega
  · have := length_readDoubleStar before cs
    omega
  · have := length_readClass _h
    have := length_classMembers cs
    omega

/-- Reads a pattern without alternatives. -/
def read (cs : List Char) : Option GlobPattern := readFrom [] cs

end GlobPattern

/-! ## Alternatives -/

/-- A list of alternatives that is being read. -/
structure Alternatives where
  /-- The texts of the alternatives that have ended. -/
  ended : List (List Char) := []
  /-- The texts of the alternative that is read. -/
  current : List (List Char) := [[]]
  deriving Repr

namespace Alternatives

/-- Appends a text to the alternative that is read. -/
def append (a : Alternatives) (cs : List Char) : Alternatives :=
  { a with current := a.current.map (· ++ cs) }

/-- Starts the next alternative. -/
def next (a : Alternatives) : Alternatives := { ended := a.ended ++ a.current }

/-- The texts of all alternatives.  Empty ones count only if there are no others. -/
def texts (a : Alternatives) : List (List Char) :=
  let all := a.ended ++ a.current
  let full := all.filter (!·.isEmpty)
  if full.isEmpty then [[]] else full

/-- Appends each of the texts of inner alternatives to the alternative that is read. -/
def close (outer inner : Alternatives) : Alternatives :=
  { outer with current := outer.current.flatMap fun cs => inner.texts.map (cs ++ ·) }

/-- Reads a pattern with alternatives inside the given ones, the innermost first. -/
def readFrom (inner : Alternatives) (outer : List Alternatives) :
    List Char → Option (List (List Char))
  | [] => if outer.isEmpty then some inner.current else none
  | '\\' :: cs =>
    match cs with
    | c :: cs => readFrom (inner.append ['\\', c]) outer cs
    | [] => none
  | '[' :: cs =>
    match _h : GlobPattern.readClass [] false (GlobPattern.classMembers cs).2 with
    | some (_, rest) =>
      readFrom (inner.append ('[' :: cs.take (cs.length - rest.length))) outer rest
    | none => none
  | '\x7b' :: cs => readFrom {} (inner :: outer) cs
  | '\x7d' :: cs =>
    match outer with
    | around :: outer => readFrom (around.close inner) outer cs
    | [] => none
  | ',' :: cs =>
    if outer.isEmpty then readFrom (inner.append [',']) outer cs
    else readFrom inner.next outer cs
  | c :: cs => readFrom (inner.append [c]) outer cs
termination_by cs => cs.length
decreasing_by
  all_goals simp only [List.length_cons]
  all_goals try omega
  have := GlobPattern.length_readClass _h
  have := GlobPattern.length_classMembers cs
  omega

end Alternatives

namespace GlobPattern

/-- Reads a pattern; it stands for the patterns without alternatives in the result. -/
def readAll (cs : List Char) : Option (List GlobPattern) :=
  (Alternatives.readFrom {} [] cs).bind (·.mapM read)

end GlobPattern

end Outline
