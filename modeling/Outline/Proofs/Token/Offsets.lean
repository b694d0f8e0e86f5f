import Outline.Proofs.Token.Locality
import Outline.Proofs.Token.Quotes

/-!
# Scanning by offsets

The scanners take the text that is left.  Here the same scanners run over the whole text with an
offset into it, as a program over an array does: a character is read at an offset and a piece is cut
out between two, and both are faults where the text does not reach so far.  A loop that goes on
where a scan ends has a budget of steps, and it is a fault to use it up.

* `charAt`, `lookAt`, `pieceAt` — the only ways to read.
* `ScansAs` — a program over offsets has no fault and answers what a scanner answers that is given
  the text from there.
* `IdentifierStyle.stopAt_eq`, `StringStyle.stopAt_eq`, `NumberLiteral.stopAt_eq` — the literals.
-/

namespace Outline

open Text (isLineEnd)
open TokenTree (drop_succ_of_drop)

variable {cs rest : List Char} {i pos : Nat}

/-! ## Reading at an offset -/

/-- What goes wrong in a program over offsets. -/
inductive Fault where
  /-- A character is read where the text has none. -/
  | outside (offset : Nat)
  /-- A piece is cut out that does not lie in the text. -/
  | piece (start stop : Nat)
  /-- The budget of a loop is used up before its end. -/
  | steps
  deriving DecidableEq, Repr

/-- The character at the offset `i`. -/
def charAt (cs : List Char) (i : Nat) : Except Fault Char :=
  match cs[i]? with
  | some c => pure c
  | none => throw (.outside i)

/-- The character at the offset `i`, if the text reaches so far. -/
def lookAt (cs : List Char) (i : Nat) : Except Fault (Option Char) := do
  if i < cs.length then return some (← charAt cs i) else return none

/-- Whether the word stands at the offset `i`. -/
def wordAt (cs : List Char) : (word : List Char) → (i : Nat) → Except Fault Bool
  | [], _ => return true
  | w :: word, i => do
    if (← lookAt cs i) == some w then wordAt cs word (i + 1) else return false

/-- The piece of the text from the offset `start` up to the offset `stop`. -/
def pieceAt (cs : List Char) (start stop : Nat) : Except Fault (List Char) :=
  if start ≤ stop ∧ stop ≤ cs.length then pure ((cs.drop start).take (stop - start))
  else throw (.piece start stop)

/-- The offset behind the characters of the class `p` that stand at the offset `i`. -/
def runAt (p : Char → Bool) (cs : List Char) (i : Nat) : Except Fault Nat := do
  if i < cs.length then
    if p (← charAt cs i) then runAt p cs (i + 1) else return i
  else return i
termination_by cs.length - i

/-- A program over offsets answers where a scanner stops that is given the text from there. -/
def ScansAs (cs : List Char) (stopAt : Nat → Except Fault (Option Nat))
    (scan : List Char → Option Nat) : Prop :=
  ∀ i, stopAt i = pure ((scan (cs.drop i)).map (i + ·))

theorem lt_length_of_drop {c : Char} (h : cs.drop i = c :: rest) : i < cs.length :=
  (drop_succ_of_drop h).2.1

theorem not_lt_length_of_drop (h : cs.drop i = []) : ¬ i < cs.length :=
  Nat.not_lt.2 (List.drop_eq_nil_iff.1 h)

/-- Two characters on from the last one the text is over. -/
theorem add_two_not_lt_of_drop {c : Char} (h : cs.drop i = [c]) : ¬ i + 2 < cs.length := by
  have hlen := congrArg List.length h
  rw [List.length_drop, List.length_singleton] at hlen
  omega

theorem getElem?_add_of_drop (h : cs.drop i = rest) (k : Nat) : cs[i + k]? = rest[k]? := by
  rw [← h, List.getElem?_drop]

theorem drop_add_eq (h : cs.drop i = rest) (k : Nat) : cs.drop (i + k) = rest.drop k := by
  rw [← List.drop_drop, h]

theorem charAt_of_drop {c : Char} (h : cs.drop i = c :: rest) : charAt cs i = pure c := by
  rw [charAt, (drop_succ_of_drop h).2.2]

/-- What stands nowhere is not read. -/
theorem lookAt_eq (cs : List Char) (i : Nat) : lookAt cs i = pure cs[i]? := by
  cases hrest : cs.drop i with
  | nil =>
      rw [lookAt, if_neg (not_lt_length_of_drop hrest),
        List.getElem?_eq_none (List.drop_eq_nil_iff.1 hrest)]
  | cons c rest =>
      rw [lookAt, if_pos (lt_length_of_drop hrest), charAt_of_drop hrest, pure_bind,
        (drop_succ_of_drop hrest).2.2]

theorem wordAt_eq (cs word : List Char) (i : Nat) :
    wordAt cs word i = pure (word.isPrefixOf (cs.drop i)) := by
  induction word generalizing i with
  | nil => rfl
  | cons w word ih =>
      rw [wordAt, lookAt_eq, pure_bind, ← List.head?_drop]
      cases hrest : cs.drop i with
      | nil => rfl
      | cons c rest =>
          rw [List.head?_cons, ih, (drop_succ_of_drop hrest).1, List.isPrefixOf]
          by_cases hc : c = w
          · subst hc
            simp
          · rw [if_neg (by simpa using hc), beq_false_of_ne (Ne.symm hc), Bool.false_and]

theorem pieceAt_eq {start stop : Nat} (h : start ≤ stop) (hstop : stop ≤ cs.length) :
    pieceAt cs start stop = pure ((cs.drop start).take (stop - start)) :=
  if_pos ⟨h, hstop⟩

theorem runAt_eq (p : Char → Bool) (h : cs.drop i = rest) :
    runAt p cs i = pure (i + (rest.takeWhile p).length) := by
  induction rest generalizing i with
  | nil => rw [runAt, if_neg (not_lt_length_of_drop h)]; rfl
  | cons c rest ih =>
      rw [runAt, if_pos (lt_length_of_drop h), charAt_of_drop h, pure_bind, List.takeWhile_cons]
      split
      · rw [ih (drop_succ_of_drop h).1, List.length_cons, Nat.add_right_comm, Nat.add_assoc]
      · rfl

/-- What is read `k` characters further on is read from there. -/
theorem map_add_map (n : Option Nat) (i k : Nat) :
    (n.map (· + k)).map (i + ·) = n.map (i + k + ·) := by
  rw [Option.map_map]
  congr 1
  funext m
  exact (Nat.add_assoc i k m).symm ▸ congrArg (i + ·) (Nat.add_comm m k)

theorem map_add_map_left (n : Option Nat) (i k : Nat) :
    (n.map (k + ·)).map (i + ·) = n.map (i + k + ·) := by
  simp only [Nat.add_comm k, map_add_map]

/-! ## Identifiers -/

namespace IdentifierStyle

/-- The offset behind the spaces at the offset `i`. -/
def spacesAt (cs : List Char) (i : Nat) : Except Fault Nat := runAt (· == ' ') cs i

/-- The offset behind the name at the offset `pos`. -/
def nameAt (style : IdentifierStyle) (cs : List Char) (pos : Nat) :
    Except Fault (Option Nat) := do
  match ← lookAt cs pos with
  | none => return none
  | some first =>
    if style.starts first then
      let i ← runAt style.continues cs (pos + 1)
      if i == pos + 1 && style.extraStart.contains first && !style.extraPart.contains first then
        return none
      else return some i
    else return none

/-- The offset behind the names at the offset `i`, each after a dot, in at most `steps` turns. -/
def dotsAt (style : IdentifierStyle) (cs : List Char) : (steps i : Nat) → Except Fault Nat
  | 0, _ => throw .steps
  | steps + 1, i => do
    if (← lookAt cs i) == some '.' then
      match ← style.nameAt cs (i + 1) with
      | some stop => style.dotsAt cs steps stop
      | none => return i
    else return i

/-- The offset behind the dotted name at the offset `pos`. -/
def dottedAt (style : IdentifierStyle) (cs : List Char) (pos : Nat) :
    Except Fault (Option Nat) := do
  match ← style.nameAt cs pos with
  | some stop => return some (← style.dotsAt cs cs.length stop)
  | none => return none

/-- The offset behind the array brackets at the offset `i`. -/
def arraysAt (cs : List Char) (i : Nat) : Except Fault Nat := do
  if i < cs.length then
    if (← charAt cs i) == '[' && (← lookAt cs (i + 1)) == some ']' then arraysAt cs (i + 2)
    else return i
  else return i
termination_by cs.length - i

/-- The offset behind the arguments at the offset `i` and the closing angle bracket, each argument
by `argAt`, in at most `steps` turns. -/
def argumentsAt (argAt : Nat → Except Fault (Option Nat)) (cs : List Char) :
    (steps i : Nat) → Except Fault (Option Nat)
  | 0, _ => throw .steps
  | steps + 1, i => do
    match ← argAt i with
    | none => return none
    | some stop =>
      let stop ← spacesAt cs stop
      match ← lookAt cs stop with
      | some ',' => argumentsAt argAt cs steps (← spacesAt cs (stop + 1))
      | some '>' => return some (stop + 1)
      | _ => return none

/-- The offset behind the list of arguments at the offset `pos`. -/
def bracketsAt (argAt : Nat → Except Fault (Option Nat)) (cs : List Char) (pos : Nat) :
    Except Fault (Option Nat) := do
  if (← lookAt cs pos) == some '<' then
    argumentsAt argAt cs cs.length (← spacesAt cs (pos + 1))
  else return none

/-- The offset behind the bound of a wildcard, if its keyword stands at the offset `pos`. -/
def boundAt (typeAt : Nat → Except Fault (Option Nat)) (keyword : String) (cs : List Char)
    (pos : Nat) : Except Fault (Option (Option Nat)) := do
  let stop := pos + keyword.length
  if (← wordAt cs keyword.toList pos) && (← lookAt cs stop) == some ' ' then
    return some (← typeAt (← spacesAt cs stop))
  else return none

/-- The offset behind the type argument at the offset `pos`. -/
def argumentAt (style : IdentifierStyle) (typeAt : Nat → Except Fault (Option Nat))
    (cs : List Char) (pos : Nat) : Except Fault (Option Nat) := do
  if style.wildcards && (← lookAt cs pos) == some '?' then
    let after ← spacesAt cs (pos + 1)
    match ← boundAt typeAt "extends" cs after with
    | some stop => return stop
    | none =>
      match ← boundAt typeAt "super" cs after with
      | some stop => return stop
      | none => return some (pos + 1)
  else typeAt pos

/-- The offset behind the question mark and the array brackets at the offset `i`. -/
def finishAt (nested : Bool) (cs : List Char) (i : Nat) : Except Fault Nat := do
  if nested && (← lookAt cs i) == some '?' then arraysAt cs (i + 1) else arraysAt cs i

/-- The offset behind the type at the offset `pos`, whose list of arguments is read by
`listAt`. -/
def typeWith (style : IdentifierStyle) (nested : Bool)
    (listAt : Nat → Except Fault (Option Nat)) (cs : List Char) (pos : Nat) :
    Except Fault (Option Nat) := do
  match ← style.dottedAt cs pos with
  | none => return none
  | some i =>
    if style.generics && (← lookAt cs i) == some '<' then
      match ← listAt i with
      | some stop => return some (← finishAt nested cs stop)
      | none => if nested then return none else return some (← finishAt nested cs i)
    else return some (← finishAt nested cs i)

/-- The offset behind the type at the offset `pos` with at most `depth` levels of angle
brackets. -/
def typeAt (style : IdentifierStyle) :
    (depth : Nat) → (nested : Bool) → (cs : List Char) → (pos : Nat) → Except Fault (Option Nat)
  | 0, nested, cs, pos => style.typeWith nested (fun _ => return none) cs pos
  | depth + 1, nested, cs, pos =>
    style.typeWith nested (bracketsAt (style.argumentAt (typeAt style depth true cs) cs) cs) cs pos

/-- The offset behind the identifier at the offset `pos`. -/
def stopAt (style : IdentifierStyle) (cs : List Char) (pos : Nat) : Except Fault (Option Nat) :=
  style.typeAt style.maxDepth false cs pos

variable {style : IdentifierStyle}

theorem spacesAt_eq (cs : List Char) (i : Nat) :
    spacesAt cs i = pure (i + spaces (cs.drop i)) :=
  runAt_eq _ rfl

theorem nameAt_eq (style : IdentifierStyle) (cs : List Char) :
    ScansAs cs (style.nameAt cs) style.scanName := by
  intro i
  rw [nameAt, lookAt_eq, pure_bind, ← List.head?_drop]
  cases hrest : cs.drop i with
  | nil => rfl
  | cons c rest =>
      rw [List.head?_cons, scanName_cons, runAt_eq _ (drop_succ_of_drop hrest).1]
      dsimp only
      split
      · rw [pure_bind, show (i + 1 + (rest.takeWhile style.continues).length == i + 1) =
          ((rest.takeWhile style.continues).length == 0) by rw [Bool.eq_iff_iff]; simp]
        split
        · rfl
        · rw [Option.map_some, Nat.add_assoc, Nat.add_comm 1]
      · rfl

theorem dotsAt_eq {steps : Nat} (hsteps : cs.length - i < steps) :
    style.dotsAt cs steps i = pure (i + style.scanDots (cs.drop i)) := by
  -- each turn reads a dot, so that the budget shrinks no faster than what is left
  induction steps generalizing i with
  | zero => exact absurd hsteps (Nat.not_lt_zero _)
  | succ steps ih =>
      rw [dotsAt, lookAt_eq, pure_bind, ← List.head?_drop]
      by_cases hdot : (cs.drop i).head? = some '.'
      · obtain ⟨rest, hrest⟩ := List.head?_eq_some_iff.1 hdot
        have hlt := lt_length_of_drop hrest
        rw [if_pos (beq_iff_eq.2 hdot), nameAt_eq style cs (i + 1), pure_bind,
          (drop_succ_of_drop hrest).1, hrest, scanDots]
        cases style.scanName rest with
        | none => rfl
        | some n =>
            have hbehind : cs.drop (i + 1 + n) = rest.drop n :=
              drop_add_eq (drop_succ_of_drop hrest).1 n
            dsimp only [Option.map_some]
            rw [ih (by omega), hbehind]
            congr 1
            omega
      · rw [if_neg (mt beq_iff_eq.1 hdot), scanDots_of_head?_ne hdot, Nat.add_zero]

theorem dottedAt_eq (style : IdentifierStyle) (cs : List Char) :
    ScansAs cs (style.dottedAt cs) style.scanDotted := by
  intro i
  rw [dottedAt, nameAt_eq style cs i, pure_bind, scanDotted]
  cases hname : style.scanName (cs.drop i) with
  | none => rfl
  | some n =>
      obtain ⟨c, rest, hrest, -, hn⟩ := exists_cons_of_scanName hname
      have hlt := lt_length_of_drop hrest
      dsimp only [Option.map_some]
      rw [dotsAt_eq (by omega), pure_bind, List.drop_drop, Nat.add_assoc]

theorem arraysAt_eq (h : cs.drop i = rest) :
    arraysAt cs i = pure (i + scanArrays rest) := by
  fun_induction scanArrays rest generalizing i with
  | case1 rest ih =>
      obtain ⟨htail, -, -⟩ := drop_succ_of_drop h
      rw [arraysAt, if_pos (lt_length_of_drop h), charAt_of_drop h, pure_bind, lookAt_eq, pure_bind,
        (drop_succ_of_drop htail).2.2, if_pos (by rfl), ih (drop_add_eq h 2), Nat.add_assoc]
  | case2 rest hno =>
      cases rest with
      | nil =>
          rw [arraysAt, if_neg (not_lt_length_of_drop h)]
          rfl
      | cons c rest =>
          rw [arraysAt, if_pos (lt_length_of_drop h), charAt_of_drop h, pure_bind, lookAt_eq,
            pure_bind, getElem?_add_of_drop h 1, if_neg]
          · rfl
          · intro hboth
            rw [Bool.and_eq_true, beq_iff_eq, beq_iff_eq, List.getElem?_cons_succ,
              ← List.head?_eq_getElem?] at hboth
            obtain ⟨ds, rfl⟩ := List.head?_eq_some_iff.1 hboth.2
            exact hno ds (by rw [hboth.1])

theorem finishAt_eq (nested : Bool) (cs : List Char) (i k : Nat) :
    finishAt nested cs (i + k) = pure (i + scanType.finish nested (cs.drop i) k) := by
  have hmark : (nested && cs[i + k]? == some '?') =
      (nested && ((cs.drop i).drop k).head? == some '?') := by
    rw [List.drop_drop, List.head?_drop]
  rw [finishAt, lookAt_eq, pure_bind, arraysAt_eq rfl, arraysAt_eq rfl, scanType.finish, hmark]
  split
  · simp only [List.drop_drop, Nat.add_assoc]
  · simp only [List.drop_drop, Nat.add_assoc]

section Lists

variable {argAt typeAt : Nat → Except Fault (Option Nat)} {arg type : List Char → Option Nat}

theorem argumentsAt_eq (harg : ScansAs cs argAt arg) {steps : Nat}
    (hsteps : cs.length - i < steps) :
    argumentsAt argAt cs steps i = pure ((scanArguments arg (cs.drop i)).map (i + ·)) := by
  -- each turn but the last reads a comma
  induction steps generalizing i with
  | zero => exact absurd hsteps (Nat.not_lt_zero _)
  | succ steps ih =>
      rw [argumentsAt, harg i, pure_bind, scanArguments_eq]
      cases arg (cs.drop i) with
      | none => rfl
      | some n =>
          have hstop : i + n + spaces (cs.drop (i + n)) =
              i + (n + spaces ((cs.drop i).drop n)) := by rw [List.drop_drop, Nat.add_assoc]
          dsimp only [Option.map_some, Option.bind_some]
          rw [spacesAt_eq, pure_bind, lookAt_eq, pure_bind, ← List.head?_drop, hstop,
            ← List.drop_drop]
          generalize n + spaces ((cs.drop i).drop n) = k
          cases hrest : (cs.drop i).drop k with
          | nil => rfl
          | cons c rest =>
              rw [List.drop_drop] at hrest
              obtain ⟨htail, hnext, -⟩ := drop_succ_of_drop hrest
              rw [List.head?_cons, spacesAt_eq, htail, pure_bind]
              by_cases hcomma : c = ','
              · subst hcomma
                have hbehind := drop_add_eq htail (spaces rest)
                rw [ih (by omega), hbehind]
                change pure ((scanArguments arg _).map (i + k + 1 + spaces rest + ·)) =
                  pure (((scanArguments arg _).map (k + 1 + spaces rest + ·)).map (i + ·))
                rw [map_add_map_left]
                simp only [Nat.add_assoc]
              · by_cases hangle : c = '>'
                · subst hangle
                  rfl
                · simp [hcomma, hangle]

theorem bracketsAt_eq (harg : ScansAs cs argAt arg) :
    ScansAs cs (bracketsAt argAt cs) (scanBrackets arg) := by
  intro i
  rw [bracketsAt, lookAt_eq, pure_bind, ← List.head?_drop]
  by_cases hopen : (cs.drop i).head? = some '<'
  · obtain ⟨rest, hrest⟩ := List.head?_eq_some_iff.1 hopen
    obtain ⟨htail, hnext, -⟩ := drop_succ_of_drop hrest
    have hbehind := drop_add_eq htail (spaces rest)
    rw [if_pos (beq_iff_eq.2 hopen), spacesAt_eq, htail, pure_bind,
      argumentsAt_eq harg (by omega), hbehind, hrest, scanBrackets_cons, map_add_map_left,
      Nat.add_assoc]
  · rw [if_neg (mt beq_iff_eq.1 hopen), scanBrackets]
    · rfl
    · intro rest hrest
      exact hopen (by rw [hrest]; rfl)

theorem boundAt_eq (htype : ScansAs cs typeAt type) (keyword : String) (i : Nat) :
    boundAt typeAt keyword cs i =
      pure ((scanBound type keyword (cs.drop i)).map (Option.map (i + ·))) := by
  rw [boundAt, wordAt_eq, pure_bind, lookAt_eq, pure_bind, scanBound, spacesAt_eq, pure_bind,
    htype, pure_bind, List.drop_drop, List.head?_drop]
  dsimp only
  split
  · rw [Option.map_some, map_add_map_left, List.drop_drop, List.drop_drop, Nat.add_assoc]
  · rfl

theorem argumentAt_eq (htype : ScansAs cs typeAt type) :
    ScansAs cs (style.argumentAt typeAt cs) (style.scanArgument type) := by
  intro i
  rw [argumentAt, lookAt_eq, pure_bind, ← List.head?_drop]
  by_cases hmark : style.wildcards = true ∧ (cs.drop i).head? = some '?'
  · obtain ⟨rest, hrest⟩ := List.head?_eq_some_iff.1 hmark.2
    have htail := (drop_succ_of_drop hrest).1
    have hbehind := drop_add_eq htail (spaces rest)
    rw [if_pos (by rw [hmark.1, hmark.2]; rfl), spacesAt_eq, htail, pure_bind, boundAt_eq htype,
      boundAt_eq htype, hbehind, hrest, scanArgument_wildcard hmark.1]
    cases scanBound type "extends" (rest.drop (spaces rest)) with
    | some bound =>
        dsimp only [Option.map_some, Option.some_or]
        rw [pure_bind, map_add_map_left, Nat.add_assoc]
    | none =>
        cases scanBound type "super" (rest.drop (spaces rest)) with
        | some bound =>
            dsimp only [Option.map_some, Option.map_none, Option.none_or]
            rw [pure_bind, pure_bind, map_add_map_left, Nat.add_assoc]
        | none => rfl
  · rw [if_neg (by simpa using hmark), scanArgument_plain hmark, htype]

end Lists

theorem typeWith_eq {nested : Bool} {listAt : Nat → Except Fault (Option Nat)} {depth : Nat}
    (hlist : ScansAs cs listAt (style.scanList depth)) :
    ScansAs cs (style.typeWith nested listAt cs) (style.scanType depth nested) := by
  intro i
  rw [typeWith, dottedAt_eq style cs i, pure_bind, scanType_eq]
  cases style.scanDotted (cs.drop i) with
  | none => rfl
  | some n =>
      dsimp only [Option.map_some, Option.bind_some]
      rw [lookAt_eq, pure_bind, finishAt_eq, pure_bind, hlist (i + n), pure_bind, ← List.drop_drop,
        ← List.head?_drop, ← List.drop_drop]
      split
      · cases style.scanList depth ((cs.drop i).drop n) with
        | none =>
            dsimp only [Option.map_none]
            split <;> rfl
        | some k =>
            dsimp only [Option.map_some]
            rw [Nat.add_assoc, finishAt_eq, pure_bind]
      · rfl

theorem typeAt_eq (style : IdentifierStyle) (depth : Nat) (nested : Bool) (cs : List Char) :
    ScansAs cs (style.typeAt depth nested cs) (style.scanType depth nested) := by
  induction depth generalizing nested with
  | zero => exact typeWith_eq fun _ => rfl
  | succ depth ih => exact typeWith_eq (bracketsAt_eq (argumentAt_eq (ih true)))

/-- Scanning an identifier at an offset answers what scanning the text from there answers. -/
theorem stopAt_eq (style : IdentifierStyle) (cs : List Char) :
    ScansAs cs (style.stopAt cs) style.scan :=
  typeAt_eq style style.maxDepth false cs

end IdentifierStyle

/-! ## String literals -/

namespace StringStyle

/-- The offset behind the closing `quote` of a literal whose characters start at the offset `i`.
An escape at the end of the text moves on past the end. -/
def quotedAt (quote : Char) (multiline : Bool) (cs : List Char) (i : Nat) :
    Except Fault (Option Nat) := do
  if i < cs.length then
    let c ← charAt cs i
    if c == '\\' then quotedAt quote multiline cs (i + 2)
    else if c == quote then return some (i + 1)
    else if isLineEnd c && !multiline then return none
    else quotedAt quote multiline cs (i + 1)
  else return none
termination_by cs.length - i

/-- The offset behind a verbatim literal whose characters start at the offset `i`. -/
def verbatimAt (cs : List Char) (i : Nat) : Except Fault (Option Nat) := do
  if i < cs.length then
    if (← charAt cs i) == '"' then
      if (← lookAt cs (i + 1)) == some '"' then verbatimAt cs (i + 2) else return some (i + 1)
    else verbatimAt cs (i + 1)
  else return none
termination_by cs.length - i

/-- The offset behind a text block whose characters start at the offset `i`. -/
def textBlockAt (cs : List Char) (i : Nat) : Except Fault (Option Nat) := do
  if i < cs.length then
    if (← charAt cs i) == '\\' then textBlockAt cs (i + 2)
    else if ← wordAt cs ['"', '"', '"'] i then return some (i + 3)
    else textBlockAt cs (i + 1)
  else return none
termination_by cs.length - i

/-- The offset behind a verbatim or interpolated literal, if its marks stand at the offset
`pos`.  The marks are looked for in a piece of at most three characters. -/
def markedAt (style : StringStyle) (cs : List Char) (pos : Nat) :
    Except Fault (Option (Option Nat)) := do
  if style.verbatim || style.interpolated then
    let front ← pieceAt cs pos (min cs.length (pos + 3))
    match verbatimMarks.find? fun marks => style.verbatim && marks.isPrefixOf front with
    | some marks => return some (← verbatimAt cs (pos + marks.length))
    | none =>
      if style.interpolated && ['$', '"'].isPrefixOf front then
        return some (← quotedAt '"' false cs (pos + 2))
      else return none
  else return none

/-- The offset behind the string literal at the offset `pos`. -/
def stopAt (style : StringStyle) (cs : List Char) (pos : Nat) : Except Fault (Option Nat) := do
  match ← lookAt cs pos with
  | none => return none
  | some first =>
    if style.textBlocks && (← wordAt cs ['"', '"', '"'] pos) then textBlockAt cs (pos + 3)
    else if style.templates && first == '`' then quotedAt '`' true cs (pos + 1)
    else match ← style.markedAt cs pos with
      | some stop => return stop
      | none =>
        if style.quotes.contains first then quotedAt first false cs (pos + 1) else return none

/-- A character at which no escape starts. -/
theorem ne_backslash {c : Char} (hlast : c = '\\' → rest = [] → False)
    (hescape : ∀ d ds, c = '\\' → rest = d :: ds → False) : ¬ (c == '\\') = true := by
  intro hslash
  cases rest with
  | nil => exact hlast (beq_iff_eq.1 hslash) rfl
  | cons d ds => exact hescape d ds (beq_iff_eq.1 hslash) rfl

theorem quotedAt_cons (quote : Char) (multiline : Bool) {c : Char} (h : cs.drop i = c :: rest) :
    quotedAt quote multiline cs i =
      if c == '\\' then quotedAt quote multiline cs (i + 2)
      else if c == quote then pure (some (i + 1))
      else if isLineEnd c && !multiline then pure none
      else quotedAt quote multiline cs (i + 1) := by
  rw [quotedAt, if_pos (lt_length_of_drop h), charAt_of_drop h, pure_bind]

theorem quotedAt_eq (quote : Char) (multiline : Bool) (h : cs.drop i = rest) :
    quotedAt quote multiline cs i = pure ((scanQuoted quote multiline rest).map (i + ·)) := by
  fun_induction scanQuoted quote multiline rest generalizing i with
  | case1 => rw [quotedAt, if_neg (not_lt_length_of_drop h)]; rfl
  | case2 =>
      -- the escape is the last character
      rw [quotedAt_cons _ _ h, if_pos (beq_self_eq_true _), quotedAt,
        if_neg (add_two_not_lt_of_drop h)]
      rfl
  | case3 c rest ih =>
      rw [quotedAt_cons _ _ h, if_pos (beq_self_eq_true _), ih (drop_add_eq h 2), map_add_map]
  | case4 c rest hlast hescape hc =>
      rw [quotedAt_cons _ _ h, if_neg (ne_backslash hlast hescape), if_pos hc, Option.map_some]
  | case5 c rest hlast hescape hc hend =>
      rw [quotedAt_cons _ _ h, if_neg (ne_backslash hlast hescape), if_neg hc, if_pos hend,
        Option.map_none]
  | case6 c rest hlast hescape hc hend ih =>
      rw [quotedAt_cons _ _ h, if_neg (ne_backslash hlast hescape), if_neg hc, if_neg hend,
        ih (drop_add_eq h 1), map_add_map]

theorem verbatimAt_cons {c : Char} (h : cs.drop i = c :: rest) :
    verbatimAt cs i =
      if c == '"' then
        if rest.head? == some '"' then verbatimAt cs (i + 2) else pure (some (i + 1))
      else verbatimAt cs (i + 1) := by
  rw [verbatimAt, if_pos (lt_length_of_drop h), charAt_of_drop h, pure_bind, lookAt_eq, pure_bind,
    getElem?_add_of_drop h 1, List.getElem?_cons_succ, List.head?_eq_getElem?]

theorem verbatimAt_eq (h : cs.drop i = rest) :
    verbatimAt cs i = pure ((scanVerbatim rest).map (i + ·)) := by
  fun_induction scanVerbatim rest generalizing i with
  | case1 => rw [verbatimAt, if_neg (not_lt_length_of_drop h)]; rfl
  | case2 rest ih =>
      rw [verbatimAt_cons h, if_pos (beq_self_eq_true _), List.head?_cons,
        if_pos (beq_self_eq_true _), ih (drop_add_eq h 2), map_add_map]
  | case3 rest hsingle =>
      have hnext : ¬ (rest.head? == some '"') = true := fun hquote => by
        obtain ⟨ds, rfl⟩ := List.head?_eq_some_iff.1 (beq_iff_eq.1 hquote)
        exact hsingle ds rfl
      rw [verbatimAt_cons h, if_pos (beq_self_eq_true _), if_neg hnext, Option.map_some]
  | case4 c rest hdouble hsingle ih =>
      rw [verbatimAt_cons h, if_neg (mt beq_iff_eq.1 hsingle), ih (drop_add_eq h 1), map_add_map]

theorem textBlockAt_cons {c : Char} (h : cs.drop i = c :: rest) :
    textBlockAt cs i =
      if c == '\\' then textBlockAt cs (i + 2)
      else if ['"', '"', '"'].isPrefixOf (c :: rest) then pure (some (i + 3))
      else textBlockAt cs (i + 1) := by
  rw [textBlockAt, if_pos (lt_length_of_drop h), charAt_of_drop h, pure_bind, wordAt_eq, pure_bind,
    h]

theorem textBlockAt_eq (h : cs.drop i = rest) :
    textBlockAt cs i = pure ((scanTextBlock rest).map (i + ·)) := by
  fun_induction scanTextBlock rest generalizing i with
  | case1 => rw [textBlockAt, if_neg (not_lt_length_of_drop h)]; rfl
  | case2 =>
      -- the escape is the last character
      rw [textBlockAt_cons h, if_pos (beq_self_eq_true _), textBlockAt,
        if_neg (add_two_not_lt_of_drop h)]
      rfl
  | case3 c rest ih =>
      rw [textBlockAt_cons h, if_pos (beq_self_eq_true _), ih (drop_add_eq h 2), map_add_map]
  | case4 rest =>
      rw [textBlockAt_cons h, if_neg (by decide), if_pos (by simp [List.isPrefixOf]),
        Option.map_some]
  | case5 c rest hlast hescape hclose ih =>
      have hopen : ¬ ['"', '"', '"'].isPrefixOf (c :: rest) = true := fun hpre => by
        obtain ⟨ds, hds⟩ := List.isPrefixOf_iff_prefix.1 hpre
        cases hds
        exact hclose ds rfl rfl
      rw [textBlockAt_cons h, if_neg (ne_backslash hlast hescape), if_neg hopen,
        ih (drop_add_eq h 1), map_add_map]

theorem isPrefixOf_take {w : List Char} {n : Nat} (hw : w.length ≤ n) (xs : List Char) :
    w.isPrefixOf (xs.take n) = w.isPrefixOf xs := by
  rw [Bool.eq_iff_iff, List.isPrefixOf_iff_prefix, List.isPrefixOf_iff_prefix,
    List.prefix_take_iff, and_iff_left hw]

variable {c : Char}

/-- The marks of a literal are looked for in a piece that lies in the text. -/
theorem pieceAt_front (h : cs.drop pos = c :: rest) :
    pieceAt cs pos (min cs.length (pos + 3)) = pure ((c :: rest).take 3) := by
  have hpos := lt_length_of_drop h
  have hlen := congrArg List.length h
  rw [List.length_drop] at hlen
  rw [pieceAt, if_pos ⟨by omega, Nat.min_le_left _ _⟩, h]
  congr 1
  rw [List.take_eq_take_iff]
  omega

/-- The marks of an interpolated literal are no marks of a verbatim one. -/
theorem isPrefixOf_of_interpolated {xs : List Char} (h : ['$', '"'].isPrefixOf xs = true) :
    ['@', '"'].isPrefixOf xs = false ∧ ['$', '@', '"'].isPrefixOf xs = false ∧
      ['@', '$', '"'].isPrefixOf xs = false := by
  obtain ⟨ds, rfl⟩ := List.isPrefixOf_iff_prefix.1 h
  simp [List.isPrefixOf]

theorem markedAt_eq (style : StringStyle) (h : cs.drop pos = c :: rest) :
    style.markedAt cs pos = pure ((style.scanMarked (c :: rest)).map (Option.map (pos + ·))) := by
  have hbehind := drop_add_eq h
  simp only [markedAt, pieceAt_front h, pure_bind, verbatimAt_eq (hbehind _),
    quotedAt_eq _ _ (hbehind _), verbatimMarks, List.find?_cons, List.find?_nil]
  rw [scanMarked_eq, isPrefixOf_take (by decide), isPrefixOf_take (by decide),
    isPrefixOf_take (by decide), isPrefixOf_take (by decide)]
  cases hmarks : ['$', '"'].isPrefixOf (c :: rest) with
  | true =>
      obtain ⟨h₁, h₂, h₃⟩ := isPrefixOf_of_interpolated hmarks
      cases style.interpolated <;> simp [h₁, h₂, h₃, ← map_add_map]
  | false =>
      cases style.verbatim with
      | false => simp
      | true =>
        cases ['@', '"'].isPrefixOf (c :: rest) <;>
          cases ['$', '@', '"'].isPrefixOf (c :: rest) <;>
          cases ['@', '$', '"'].isPrefixOf (c :: rest) <;> simp [← map_add_map]

/-- Scanning a string literal at an offset answers what scanning the text from there answers. -/
theorem stopAt_eq (style : StringStyle) (cs : List Char) :
    ScansAs cs (style.stopAt cs) style.scan := by
  intro pos
  rw [stopAt, lookAt_eq, pure_bind]
  cases h : cs.drop pos with
  | nil =>
      rw [List.getElem?_eq_none (List.drop_eq_nil_iff.1 h)]
      cases htext : style.textBlocks <;> simp [scan, htext]
  | cons c rest =>
      have hbehind := drop_add_eq h
      rw [(drop_succ_of_drop h).2.2, scan_cons]
      simp only [wordAt_eq, h, textBlockAt_eq (hbehind _), quotedAt_eq _ _ (hbehind _),
        markedAt_eq style h, pure_bind]
      split
      · simp [← map_add_map]
      · split
        · simp [← map_add_map]
        · cases style.scanMarked (c :: rest) with
          | some stop => rfl
          | none =>
              simp only [Option.map_none, Option.getD_none]
              split
              · simp [← map_add_map]
              · rfl

end StringStyle

/-! ## Numbers -/

namespace NumberLiteral

/-- The offset behind the digits, of the class `digit`, and underscores at the offset `i`. -/
def digitsAt (digit : Char → Bool) (cs : List Char) (i : Nat) : Except Fault Nat :=
  runAt (fun c => digit c || c == '_') cs i

/-- The offset behind the fraction at the offset `i`. -/
def fractionAt (cs : List Char) (i : Nat) : Except Fault Nat := do
  if (← lookAt cs i) == some '.' && (← lookAt cs (i + 1)).any Char.isDigit then
    digitsAt Char.isDigit cs (i + 1)
  else return i

/-- The offset behind the sign in front of the digits of an exponent. -/
def signAt (cs : List Char) (i : Nat) : Except Fault Nat := do
  let c ← lookAt cs i
  return if c == some '+' || c == some '-' then i + 1 else i

/-- The offset behind the exponent at the offset `i`. -/
def exponentAt (cs : List Char) (i : Nat) : Except Fault Nat := do
  if (← lookAt cs i).any fun c => c == 'e' || c == 'E' then
    let j ← signAt cs (i + 1)
    if (← lookAt cs j).any Char.isDigit then digitsAt Char.isDigit cs j else return i
  else return i

/-- The offset behind the decimal number at the offset `pos`. -/
def decimalAt (cs : List Char) (pos : Nat) : Except Fault Nat := do
  exponentAt cs (← fractionAt cs (← digitsAt Char.isDigit cs pos))

/-- The offset behind the number at the offset `pos`, without its suffix. -/
def unsuffixedAt (cs : List Char) (pos : Nat) : Except Fault Nat := do
  let zero := (← charAt cs pos) == '0'
  let mark ← lookAt cs (pos + 1)
  if zero && mark.any fun c => c == 'x' || c == 'X' then digitsAt isHexDigit cs (pos + 2)
  else if zero && mark.any fun c => c == 'b' || c == 'B' then
    digitsAt (fun d => d == '0' || d == '1') cs (pos + 2)
  else decimalAt cs pos

/-- The offset behind the number at the offset `pos`. -/
def stopAt (cs : List Char) (pos : Nat) : Except Fault (Option Nat) := do
  if (← lookAt cs pos).any Char.isDigit then
    return some (← runAt suffixes.contains cs (← unsuffixedAt cs pos))
  else return none

theorem digitsAt_eq (digit : Char → Bool) (h : cs.drop i = rest) :
    digitsAt digit cs i = pure (i + digitRun digit rest) :=
  runAt_eq _ h

theorem startsWithDigit_drop (cs : List Char) (i : Nat) :
    startsWithDigit (cs.drop i) = cs[i]?.any Char.isDigit := by
  rw [startsWithDigit, List.head?_drop]

theorem fractionAt_eq (h : cs.drop i = rest) : fractionAt cs i = pure (i + scanFraction rest) := by
  rw [fractionAt, lookAt_eq, pure_bind, lookAt_eq, pure_bind, ← startsWithDigit_drop]
  cases rest with
  | nil =>
      rw [List.getElem?_eq_none (List.drop_eq_nil_iff.1 h)]
      rfl
  | cons c rest =>
      obtain ⟨htail, -, hget⟩ := drop_succ_of_drop h
      rw [hget, htail, digitsAt_eq _ htail]
      by_cases hdot : c = '.'
      · subst hdot
        rw [scanFraction, beq_self_eq_true, Bool.true_and]
        split
        · rw [Nat.add_assoc]
        · rfl
      · rw [if_neg (by simp [hdot]), scanFraction]
        · rfl
        · rintro ds heq
          exact hdot (List.cons.inj heq).1

theorem signAt_eq (h : cs.drop i = rest) : signAt cs i = pure (i + signLength rest) := by
  rw [signAt, lookAt_eq, pure_bind, signLength, ← h, List.head?_drop]
  split <;> rfl

theorem exponentAt_eq (h : cs.drop i = rest) : exponentAt cs i = pure (i + scanExponent rest) := by
  rw [exponentAt, lookAt_eq, pure_bind]
  cases rest with
  | nil =>
      rw [List.getElem?_eq_none (List.drop_eq_nil_iff.1 h)]
      rfl
  | cons c rest =>
      obtain ⟨htail, -, hget⟩ := drop_succ_of_drop h
      rw [hget, Option.any_some]
      by_cases hmark : (c == 'e' || c == 'E') = true
      · have hdigits : cs.drop (i + 1 + signLength rest) = rest.drop (signLength rest) :=
          drop_add_eq htail _
        rw [if_pos hmark, signAt_eq htail, pure_bind, lookAt_eq, pure_bind,
          scanExponent_of_mark hmark, ← startsWithDigit_drop, hdigits, digitsAt_eq _ hdigits]
        split
        · simp only [Nat.add_assoc]
        · rfl
      · rw [if_neg hmark, scanExponent_of_not_mark hmark]
        rfl

theorem decimalAt_eq (h : cs.drop pos = rest) :
    decimalAt cs pos = pure (pos + scanDigits.decimal rest) := by
  have hdigits := drop_add_eq h (digitRun Char.isDigit rest)
  have hfraction := drop_add_eq hdigits (scanFraction (rest.drop (digitRun Char.isDigit rest)))
  rw [decimalAt, digitsAt_eq _ h, pure_bind, fractionAt_eq hdigits, pure_bind,
    exponentAt_eq hfraction, List.drop_drop]
  simp only [scanDigits.decimal, Nat.add_assoc]

theorem unsuffixedAt_eq (h : cs.drop pos = rest) (hne : rest ≠ []) :
    unsuffixedAt cs pos = pure (pos + scanDigits rest) := by
  obtain ⟨c, rest, rfl⟩ := List.exists_cons_of_ne_nil hne
  obtain ⟨htail, -, -⟩ := drop_succ_of_drop h
  have hbehind : cs.drop (pos + 2) = rest.drop 1 := drop_add_eq h 2
  rw [unsuffixedAt, charAt_of_drop h, pure_bind, lookAt_eq, pure_bind, digitsAt_eq _ hbehind,
    digitsAt_eq _ hbehind, decimalAt_eq h, getElem?_add_of_drop h 1]
  by_cases hzero : c = '0'
  · subst hzero
    cases rest with
    | nil => rw [scanDigits_single]; rfl
    | cons d rest =>
        rw [scanDigits_prefixed]
        simp only [beq_self_eq_true, Bool.true_and, List.getElem?_cons_succ,
          List.getElem?_cons_zero, Option.any_some, List.drop_succ_cons, List.drop_zero]
        split
        · rw [Nat.add_assoc]
        · split
          · rw [Nat.add_assoc]
          · rfl
  · rw [scanDigits_other hzero, beq_false_of_ne hzero]
    rfl

/-- Scanning a number at an offset answers what scanning the text from there answers. -/
theorem stopAt_eq (cs : List Char) : ScansAs cs (stopAt cs) scan := by
  intro pos
  rw [stopAt, lookAt_eq, pure_bind, ← startsWithDigit_drop, scan]
  split
  · rename_i hdigit
    have hne : cs.drop pos ≠ [] := by
      intro hnil
      rw [hnil] at hdigit
      cases hdigit
    rw [unsuffixedAt_eq rfl hne, pure_bind, runAt_eq _ (drop_add_eq rfl _), pure_bind,
      Option.map_some, Nat.add_assoc]
  · rfl

end NumberLiteral

end Outline
