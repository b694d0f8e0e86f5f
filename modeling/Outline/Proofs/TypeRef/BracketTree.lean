import Mathlib.Data.List.DropRight
import Mathlib.Data.List.TakeWhile
import Outline.TypeRef.Parse

/-!
# Types as bracket trees

A text whose angle brackets are balanced is a tree: a run of pieces, each of which is a character
or a list of pieces between two brackets.  `Piece.readTree` reads a type by recursion on this
tree, without markers and without a table of argument lists.

* `Piece.texts` — the text of a run of pieces.
* `Piece.readTree` — the direct reading.
* `Piece.exists_texts` — a text with balanced brackets is that of a run of pieces.
-/

namespace Outline.TypeRef

/-- A piece of a text with balanced angle brackets. -/
inductive Piece where
  /-- A character that is no angle bracket. -/
  | char (c : Char)
  /-- What stands between an angle bracket and its partner. -/
  | list (inner : List Piece)

namespace Piece

/-! ## Texts of pieces -/

/-- The text of a run of pieces. -/
def texts : List Piece → List Char
  | [] => []
  | .char c :: ps => c :: texts ps
  | .list inner :: ps => '<' :: (texts inner ++ '>' :: texts ps)

theorem texts_append (ps qs : List Piece) : texts (ps ++ qs) = texts ps ++ texts qs := by
  induction ps with
  | nil => simp [texts]
  | cons p ps ih => cases p <;> simp [texts, ih]

theorem texts_map_char (cs : List Char) : texts (cs.map .char) = cs := by
  induction cs with
  | nil => rw [List.map_nil, texts]
  | cons c cs ih => rw [List.map_cons, texts, ih]

theorem texts_isInfix {ps qs : List Piece} (h : ps <:+: qs) : texts ps <:+: texts qs := by
  obtain ⟨a, b, rfl⟩ := h
  exact ⟨texts a, texts b, by simp [texts_append]⟩

/-- Whether the piece is a character. -/
def isChar : Piece → Bool
  | char _ => true
  | list _ => false

/-- Whether the piece is the character `c`. -/
def is (c : Char) : Piece → Bool
  | char d => d == c
  | list _ => false

/-- Whether the piece is white space. -/
def isBlank : Piece → Bool
  | char c => Text.isWhiteSpace c
  | list _ => false

theorem isChar_of_is {c : Char} {p : Piece} (h : p.is c = true) : p.isChar = true := by
  cases p with
  | char d => rfl
  | list inner => exact absurd h Bool.false_ne_true

theorem isChar_of_isBlank {p : Piece} (h : p.isBlank = true) : p.isChar = true := by
  cases p with
  | char d => rfl
  | list inner => exact absurd h Bool.false_ne_true

/-! ## Cores -/

/-- The run `ps` is the run `core` with characters around it. -/
def IsCore (core ps : List Piece) : Prop :=
  ∃ front back, ps = front ++ core ++ back ∧ (∀ p ∈ front, p.isChar = true) ∧
    ∀ p ∈ back, p.isChar = true

namespace IsCore

variable {ps qs rs : List Piece}

theorem refl (ps : List Piece) : IsCore ps ps := ⟨[], [], by simp, by simp, by simp⟩

theorem trans (h : IsCore ps qs) (h' : IsCore qs rs) : IsCore ps rs := by
  obtain ⟨a, b, rfl, ha, hb⟩ := h
  obtain ⟨c, d, rfl, hc, hd⟩ := h'
  refine ⟨c ++ a, b ++ d, by simp, ?_, ?_⟩
  · exact fun p hp => (List.mem_append.1 hp).elim (hc p) (ha p)
  · exact fun p hp => (List.mem_append.1 hp).elim (hb p) (hd p)

theorem front {front : List Piece} (h : ∀ p ∈ front, p.isChar = true) (ps : List Piece) :
    IsCore ps (front ++ ps) := ⟨front, [], by simp, h, by simp⟩

theorem back {back : List Piece} (h : ∀ p ∈ back, p.isChar = true) (ps : List Piece) :
    IsCore ps (ps ++ back) := ⟨[], back, by simp, by simp, h⟩

theorem tail {p : Piece} (h : p.isChar = true) (ps : List Piece) : IsCore ps (p :: ps) :=
  @front [p] (by simpa using h) ps

theorem isInfix (h : IsCore ps qs) : ps <:+: qs := by
  obtain ⟨a, b, rfl, -, -⟩ := h
  exact List.infix_append a ps b

theorem length_le (h : IsCore ps qs) : (texts ps).length ≤ (texts qs).length :=
  (texts_isInfix h.isInfix).length_le

end IsCore

/-! ## Parts of a segment -/

/-- Drops the white space at the start. -/
def trimStart (ps : List Piece) : List Piece := ps.dropWhile isBlank

/-- Drops the white space at the end. -/
def trimEnd (ps : List Piece) : List Piece := ps.rdropWhile isBlank

/-- Drops the white space at both ends. -/
def trim (ps : List Piece) : List Piece := trimEnd (trimStart ps)

theorem isCore_trimStart (ps : List Piece) : IsCore (trimStart ps) ps := by
  have hfront : ∀ p ∈ ps.takeWhile isBlank, p.isChar = true :=
    fun p hp => isChar_of_isBlank (List.mem_takeWhile_imp hp)
  have h := IsCore.front hfront (trimStart ps)
  rwa [trimStart, List.takeWhile_append_dropWhile] at h

theorem isCore_trimEnd (ps : List Piece) : IsCore (trimEnd ps) ps := by
  induction ps using List.reverseRecOn with
  | nil => exact IsCore.refl _
  | append_singleton ps p ih =>
      rw [trimEnd, List.rdropWhile_concat]
      split
      · rename_i hp
        exact ih.trans (IsCore.back (by simpa using isChar_of_isBlank hp) ps)
      · exact IsCore.refl _

theorem isCore_trim (ps : List Piece) : IsCore (trim ps) ps :=
  (isCore_trimEnd _).trans (isCore_trimStart ps)

/-- Whether the last piece is the character `c`. -/
def endsIn (c : Char) (ps : List Piece) : Bool := ps.getLast?.any (is c)

theorem endsIn_iff {c : Char} {ps : List Piece} :
    endsIn c ps = true ↔ ∃ qs, ps = qs ++ [.char c] := by
  constructor
  · intro h
    obtain ⟨p, hlast, hp⟩ := (Option.any_eq_true _ _).1 h
    obtain ⟨qs, rfl⟩ := List.getLast?_eq_some_iff.1 hlast
    cases p with
    | char d => exact ⟨qs, by rw [beq_iff_eq.1 hp]⟩
    | list inner => exact absurd hp Bool.false_ne_true
  · rintro ⟨qs, rfl⟩
    simp [endsIn, is]

theorem isCore_dropLast {c : Char} {ps : List Piece} (h : endsIn c ps = true) :
    IsCore ps.dropLast ps := by
  obtain ⟨qs, rfl⟩ := endsIn_iff.1 h
  rw [List.dropLast_concat]
  exact IsCore.back (by simp [isChar]) qs

/-- Takes a question mark, and the white space before it, off the end. -/
def takeMark (ps : List Piece) : List Piece × Bool :=
  if endsIn '?' ps then (trimEnd ps.dropLast, true) else (ps, false)

theorem isCore_takeMark (ps : List Piece) : IsCore (takeMark ps).1 ps := by
  unfold takeMark
  split
  · rename_i h
    exact (isCore_trimEnd _).trans (isCore_dropLast h)
  · exact IsCore.refl ps

theorem length_lt_of_endsIn {c d : Char} {ps : List Piece}
    (h : (endsIn c ps && endsIn d ps.dropLast) = true) :
    (trimEnd ps.dropLast.dropLast).length < ps.length := by
  obtain ⟨hc, hd⟩ := Bool.and_eq_true_iff.1 h
  obtain ⟨qs, rfl⟩ := endsIn_iff.1 hc
  rw [List.dropLast_concat] at hd ⊢
  have hlen := ((isCore_trimEnd _).trans (isCore_dropLast hd)).isInfix.length_le
  rw [List.length_append, List.length_singleton]
  omega

/-- Takes pairs of square brackets, and the white space before each pair, off the end. -/
def takeArrays (ps : List Piece) : List Piece × Nat :=
  if _h : endsIn ']' ps && endsIn '[' ps.dropLast then
    let taken := takeArrays (trimEnd ps.dropLast.dropLast)
    (taken.1, taken.2 + 1)
  else (ps, 0)
termination_by ps.length
decreasing_by exact length_lt_of_endsIn _h

theorem isCore_takeArrays (ps : List Piece) : IsCore (takeArrays ps).1 ps := by
  fun_induction takeArrays ps with
  | case1 ps h taken ih =>
      obtain ⟨hclose, hopen⟩ := Bool.and_eq_true_iff.1 h
      exact ih.trans ((isCore_trimEnd _).trans
        ((isCore_dropLast hopen).trans (isCore_dropLast hclose)))
  | case2 ps => exact IsCore.refl ps

/-- A segment without the marks after it. -/
structure Unmarked where
  /-- The name and its argument list. -/
  core : List Piece
  /-- Number of pairs of square brackets. -/
  dimensions : Nat
  /-- Whether there is a question mark. -/
  nullable : Bool

/-- Takes one question mark, the pairs of square brackets and one more question mark off the
end. -/
def takeMarks (ps : List Piece) : Unmarked :=
  let outer := takeMark ps
  let arrays := takeArrays outer.1
  let inner := takeMark arrays.1
  { core := inner.1, dimensions := arrays.2, nullable := outer.2 || inner.2 }

theorem isCore_takeMarks (ps : List Piece) : IsCore (takeMarks ps).core ps :=
  (isCore_takeMark _).trans ((isCore_takeArrays _).trans (isCore_takeMark ps))

/-- The rest of a run that starts with the given characters. -/
def after? : List Char → List Piece → Option (List Piece)
  | [], ps => some ps
  | c :: cs, .char d :: ps => if d == c then after? cs ps else none
  | _ :: _, _ => none

theorem isCore_after? {cs : List Char} {ps rest : List Piece} (h : after? cs ps = some rest) :
    IsCore rest ps := by
  fun_induction after? cs ps with
  | case1 ps =>
      cases h
      exact IsCore.refl _
  | case2 c cs d ps _ ih => exact (ih h).trans (IsCore.tail rfl ps)
  | case3 => cases h
  | case4 => cases h

/-- What follows a keyword that is directly followed by a space. -/
def target? (keyword : String) (ps : List Piece) : Option (List Piece) :=
  (after? keyword.toList ps).filter (fun rest => rest.head?.any (is ' '))

/-- The name of a wildcard with a bound, and the bound, by what follows the question mark. -/
def bound? (ps : List Piece) : Option (String × List Piece) :=
  ((target? "extends" ps).map (upperWildcard, ·)).or ((target? "super" ps).map (lowerWildcard, ·))

theorem isCore_bound? {ps target : List Piece} {name : String}
    (h : bound? ps = some (name, target)) : IsCore target ps := by
  rcases Option.or_eq_some_iff.1 h with h | ⟨-, h⟩
  all_goals
    obtain ⟨rest, hrest, heq⟩ := Option.map_eq_some_iff.1 h
    cases heq
    exact isCore_after? (Option.filter_eq_some_iff.1 hrest).1

/-- The segments of a list, which are separated by commas. -/
def segments : List Piece → List (List Piece)
  | [] => [[]]
  | p :: ps =>
    if p.is ',' then [] :: segments ps
    else match segments ps with
      | q :: qs => (p :: q) :: qs
      | [] => [[p]]

theorem segments_ne_nil (ps : List Piece) : segments ps ≠ [] := by
  cases ps with
  | nil => simp [segments]
  | cons p ps =>
      rw [segments]
      split
      · simp
      · split <;> simp

theorem segments_comma {p : Piece} (hp : p.is ',' = true) (ps : List Piece) :
    segments (p :: ps) = [] :: segments ps := by rw [segments, if_pos hp]

theorem segments_cons {p : Piece} (hp : p.is ',' = false) (ps : List Piece) :
    ∃ q qs, segments ps = q :: qs ∧ segments (p :: ps) = (p :: q) :: qs := by
  obtain ⟨q, qs, hqs⟩ := List.exists_cons_of_ne_nil (segments_ne_nil ps)
  refine ⟨q, qs, hqs, ?_⟩
  rw [segments, hqs, hp]
  rfl

/-- The first segment starts the list. -/
theorem prefix_of_segments {ps q : List Piece} {qs : List (List Piece)}
    (h : segments ps = q :: qs) : q <+: ps := by
  induction ps generalizing q qs with
  | nil =>
      cases h
      exact List.nil_prefix
  | cons p ps ih =>
      cases hp : p.is ',' with
      | true =>
          rw [segments_comma hp] at h
          cases h
          exact List.nil_prefix
      | false =>
          obtain ⟨q', qs', hqs, heq⟩ := segments_cons hp ps
          rw [heq] at h
          cases h
          exact List.cons_prefix_cons.2 ⟨rfl, ih hqs⟩

theorem infix_of_mem_segments {ps q : List Piece} (h : q ∈ segments ps) : q <:+: ps := by
  induction ps generalizing q with
  | nil =>
      rw [segments, List.mem_singleton] at h
      exact h ▸ List.infix_refl _
  | cons p ps ih =>
      cases hp : p.is ',' with
      | true =>
          rw [segments_comma hp] at h
          rcases List.mem_cons.1 h with rfl | h
          · exact List.nil_infix
          · exact (ih h).trans (List.suffix_cons p ps).isInfix
      | false =>
          obtain ⟨q', qs, hqs, heq⟩ := segments_cons hp ps
          rw [heq] at h
          rcases List.mem_cons.1 h with rfl | h
          · exact (List.cons_prefix_cons.2 ⟨rfl, prefix_of_segments hqs⟩).isInfix
          · exact (ih (hqs ▸ List.mem_cons_of_mem _ h)).trans (List.suffix_cons p ps).isInfix

/-- The arguments of a name with its list, if there is one, which has to end it. -/
def arguments (core : List Piece) : Except TypeErrorCause (List (List Piece)) :=
  match core.dropWhile isChar with
  | [] => .ok []
  | [.list inner] => .ok (segments inner)
  | _ => .error .invalidMarker

theorem length_lt_of_arguments {core : List Piece} {args : List (List Piece)}
    (h : arguments core = .ok args) {q : List Piece} (hq : q ∈ args) :
    (texts q).length < (texts core).length := by
  unfold arguments at h
  split at h
  · cases h
    simp at hq
  · rename_i inner hcore
    cases h
    have hcore := (texts_isInfix (hcore ▸ (List.dropWhile_suffix isChar).isInfix :
      [.list inner] <:+: core)).length_le
    have hq := (texts_isInfix (infix_of_mem_segments hq)).length_le
    simp only [texts, List.length_cons, List.length_append] at hcore
    omega
  · cases h

/-! ## The direct reading -/

/-- The type with the given arguments whose name and marks are known. -/
def named (m : Unmarked) (params : List TypeRef) : Except TypeErrorCause TypeRef :=
  let name := trimEnd (m.core.takeWhile isChar)
  if name.isEmpty then .error .missingName
  else .ok {
    name := String.ofList (texts name), nullable := m.nullable, dimensions := m.dimensions, params }

theorem length_bound_lt {ps rest target : List Piece} {p : Piece} {name : String}
    (h : trim ps = p :: rest) (hb : bound? (trimStart rest) = some (name, target)) :
    (texts target).length < (texts ps).length := by
  have htarget := ((isCore_bound? hb).trans (isCore_trimStart rest)).length_le
  have hps := (h ▸ isCore_trim ps).length_le
  cases p <;> simp only [texts, List.length_cons, List.length_append] at hps <;> omega

/-- Reads a segment.  A segment that starts with a question mark is a wildcard.  Any other one is
a name with at most one list, which ends it, and the marks after it; the segments of the list are
the arguments. -/
def readTree (ps : List Piece) : Except TypeErrorCause TypeRef :=
  match _h : trim ps with
  | .char '?' :: rest =>
    if (trimStart rest).isEmpty then .ok (simple anyWildcard)
    else match _hb : bound? (trimStart rest) with
      | some (name, target) => (readTree target).map (bounded name)
      | none => .error .missingName
  | plain =>
    match _hc : arguments (takeMarks plain).core with
    | .error e => .error e
    | .ok args => (args.attach.mapM fun q => readTree q.1) >>= named (takeMarks plain)
termination_by (texts ps).length
decreasing_by
  · exact length_bound_lt _h _hb
  · have hcore := ((isCore_takeMarks plain).trans (_h ▸ isCore_trim ps)).length_le
    exact lt_of_lt_of_le (length_lt_of_arguments _hc q.2) hcore

theorem readTree_wildcard {ps rest : List Piece} (h : trim ps = .char '?' :: rest) :
    readTree ps = if (trimStart rest).isEmpty then .ok (simple anyWildcard)
      else match bound? (trimStart rest) with
        | some (name, target) => (readTree target).map (bounded name)
        | none => .error .missingName := by
  rw [readTree]
  split
  · rename_i rest' h'
    rw [h] at h'
    cases h'
    split
    · rfl
    · split <;> rename_i hb <;> simp [hb]
  · rename_i hne
    exact absurd h (hne rest)

theorem readTree_plain {ps : List Piece} (h : ∀ rest, trim ps ≠ .char '?' :: rest) :
    readTree ps = (arguments (takeMarks (trim ps)).core >>= List.mapM readTree) >>=
      named (takeMarks (trim ps)) := by
  rw [readTree]
  split
  · rename_i rest h'
    exact absurd h' (h rest)
  · split
    · rename_i e he
      rw [he]
      rfl
    · rename_i args hargs
      have hattach : (args.attach.mapM fun q => readTree q.1) = args.mapM readTree := by
        conv_rhs => rw [← List.attach_map_subtype_val args, List.mapM_map]
        rfl
      rw [hargs, hattach]
      rfl

/-! ## Balanced brackets -/

end Piece

/-- The angle brackets of a text are balanced: no beginning of it has more closing brackets than
opening ones, and the whole text has as many. -/
def Balanced (cs : List Char) : Prop :=
  (∀ front, front <+: cs → front.count '>' ≤ front.count '<') ∧ cs.count '<' = cs.count '>'

namespace Piece

/-- The characters of a run of pieces and of the lists inside it, the brackets of lists apart. -/
def chars : List Piece → List Char
  | [] => []
  | .char c :: ps => c :: chars ps
  | .list inner :: ps => chars inner ++ chars ps

theorem chars_append (ps qs : List Piece) : chars (ps ++ qs) = chars ps ++ chars qs := by
  induction ps with
  | nil => simp [chars]
  | cons p ps ih => cases p <;> simp [chars, ih]

theorem chars_map_char (cs : List Char) : chars (cs.map .char) = cs := by
  induction cs with
  | nil => rw [List.map_nil, chars]
  | cons c cs ih => rw [List.map_cons, chars, ih]

theorem mem_chars_of_isInfix {ps qs : List Piece} (h : ps <:+: qs) {c : Char} (hc : c ∈ chars ps) :
    c ∈ chars qs := by
  obtain ⟨a, b, rfl⟩ := h
  simp [chars_append, hc]

theorem mem_texts_of_mem_chars {ps : List Piece} {c : Char} (hc : c ∈ chars ps) :
    c ∈ texts ps := by
  induction ps using texts.induct with
  | case1 => simp [chars] at hc
  | case2 d ps ih =>
      rw [chars, List.mem_cons] at hc
      rw [texts]
      exact List.mem_cons.2 (hc.imp_right ih)
  | case3 inner ps ihinner ih =>
      rw [chars, List.mem_append] at hc
      rw [texts]
      rcases hc with hc | hc
      · simp [ihinner hc]
      · simp [ih hc]

/-- The characters of pieces are no brackets. -/
def Proper (ps : List Piece) : Prop := ∀ c ∈ chars ps, c ≠ '<' ∧ c ≠ '>'

/-- The text in which each of the runs stands behind a closing bracket. -/
def closings (qs : List (List Piece)) : List Char := qs.flatMap fun q => '>' :: texts q

/-- A text with `k` closing brackets too many is cut into runs of pieces at these brackets. -/
theorem exists_closings {cs : List Char} {k : Nat}
    (hfront : ∀ front, front <+: cs → front.count '>' ≤ front.count '<' + k)
    (hall : cs.count '>' = cs.count '<' + k) :
    ∃ ps qs, cs = texts ps ++ closings qs ∧ qs.length = k ∧ Proper ps ∧ ∀ q ∈ qs, Proper q := by
  induction cs generalizing k with
  | nil =>
      obtain rfl : k = 0 := by simpa using hall.symm
      exact ⟨[], [], by simp [texts, closings], rfl, by simp [Proper, chars], by simp⟩
  | cons c cs ih =>
      by_cases hopen : c = '<'
      · subst hopen
        obtain ⟨ps, qs, hcs, hlen, hps, hqs⟩ := ih (k := k + 1)
          (fun front h => by
            have := hfront ('<' :: front) (List.cons_prefix_cons.2 ⟨rfl, h⟩)
            simp at this
            omega)
          (by simp at hall; omega)
        obtain ⟨q, qs, rfl⟩ := List.exists_cons_of_length_eq_add_one hlen
        refine ⟨.list ps :: q, qs, ?_, by simpa using hlen, ?_, fun x hx => hqs x (by simp [hx])⟩
        · simp [hcs, texts, closings]
        · intro x hx
          rw [chars, List.mem_append] at hx
          exact hx.elim (hps x) (hqs q (by simp) x)
      by_cases hclose : c = '>'
      · subst hclose
        have hk : 1 ≤ k := by simpa using hfront ['>'] (by simp)
        obtain ⟨ps, qs, hcs, hlen, hps, hqs⟩ := ih (k := k - 1)
          (fun front h => by
            have := hfront ('>' :: front) (List.cons_prefix_cons.2 ⟨rfl, h⟩)
            simp at this
            omega)
          (by simp at hall; omega)
        refine ⟨[], ps :: qs, ?_, by simp; omega, by simp [Proper, chars], ?_⟩
        · simp [hcs, texts, closings]
        · simpa using ⟨hps, hqs⟩
      · obtain ⟨ps, qs, hcs, hlen, hps, hqs⟩ := ih (k := k)
          (fun front h => by
            have := hfront (c :: front) (List.cons_prefix_cons.2 ⟨rfl, h⟩)
            simpa [hopen, hclose] using this)
          (by simpa [hopen, hclose] using hall)
        refine ⟨.char c :: ps, qs, by simp [hcs, texts], hlen, ?_, hqs⟩
        intro x hx
        rw [chars, List.mem_cons] at hx
        rcases hx with rfl | hx
        · exact ⟨hopen, hclose⟩
        · exact hps x hx

/-- A text with balanced brackets is that of a run of pieces. -/
theorem exists_texts {cs : List Char} (h : Balanced cs) : ∃ ps, Proper ps ∧ texts ps = cs := by
  obtain ⟨ps, qs, hcs, hlen, hps, -⟩ := exists_closings (k := 0) h.1 h.2.symm
  obtain rfl := List.eq_nil_of_length_eq_zero hlen
  exact ⟨ps, hps, by simp [hcs, closings]⟩

/-- The brackets of a tree are balanced. -/
theorem balanced_texts {ps : List Piece} (h : Proper ps) : Balanced (texts ps) := by
  induction ps using texts.induct with
  | case1 =>
      rw [texts]
      exact ⟨fun front hfront => by simp [List.prefix_nil.1 hfront], rfl⟩
  | case2 c ps ih =>
      obtain ⟨hfronts, hall⟩ := ih fun c hc => h c (by simp [chars, hc])
      obtain ⟨hopen, hclose⟩ := h c (by simp [chars])
      rw [texts]
      refine ⟨fun front hfront => ?_, by simp [hopen, hclose, hall]⟩
      rcases List.prefix_cons_iff.1 hfront with rfl | ⟨rest, rfl, hrest⟩
      · simp
      · simpa [hopen, hclose] using hfronts rest hrest
  | case3 inner ps ihinner ih =>
      obtain ⟨hfrontsInner, hallInner⟩ := ihinner fun c hc => h c (by simp [chars, hc])
      obtain ⟨hfronts, hall⟩ := ih fun c hc => h c (by simp [chars, hc])
      rw [texts]
      refine ⟨fun front hfront => ?_, by simp [hallInner, hall]; omega⟩
      rcases List.prefix_cons_iff.1 hfront with rfl | ⟨rest, rfl, hrest⟩
      · simp
      rcases List.prefix_or_prefix_of_prefix hrest (List.prefix_append _ _) with
        hinner | ⟨rest', rfl⟩
      · have := hfrontsInner rest hinner
        simp
        omega
      rcases List.prefix_cons_iff.1 ((List.prefix_append_right_inj _).1 hrest) with
        rfl | ⟨last, rfl, hlast⟩
      · simp [hallInner]
      · have := hfronts last hlast
        simp [hallInner]
        omega

end Piece

end Outline.TypeRef
