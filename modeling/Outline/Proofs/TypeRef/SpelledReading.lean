import Outline.Proofs.Relayout.Scanning
import Outline.Proofs.TypeRef.RoundTrip
import Outline.Proofs.TypeRef.Spelled

/-!
# Spelled types are read

The reader of types, which cuts out the argument lists and brings them back, reads every text of
the grammar of identifiers as the type that it spells.  The names of a style must hold none of the
characters that mean something to the reader.

* `TypeRef.Piece.Told` — a bracket tree that the reader reads as a type, fit to be an argument.
* `IdentifierStyle.exists_told` — a text that spells a type is that of such a tree.
* `IdentifierStyle.parse_of_spells` — the reading of a spelled type.
* `IdentifierStyle.scanned_of_spells` — how deep its brackets nest and which names are in it.
-/

namespace Outline

namespace TypeRef

/-! ## Nesting -/

mutual

/-- How deep the angle brackets of a type nest.  The bound of a wildcard stands in none of its
own. -/
def nesting : TypeRef → Nat
  | ⟨name, _, _, params⟩ =>
    if isWildcardName name then nestingAll params
    else if params.isEmpty then 0 else nestingAll params + 1

/-- How deep the angle brackets of types nest. -/
def nestingAll : List TypeRef → Nat
  | [] => 0
  | t :: ts => max t.nesting (nestingAll ts)

end

theorem nestingAll_le {ts : List TypeRef} {n : Nat} :
    nestingAll ts ≤ n ↔ ∀ t ∈ ts, t.nesting ≤ n := by
  induction ts with
  | nil => simp [nestingAll]
  | cons t ts ih => rw [nestingAll, Nat.max_le, ih, List.forall_mem_cons]

theorem nesting_le_succ (t : TypeRef) : t.nesting ≤ nestingAll t.params + 1 := by
  cases t
  rw [nesting]
  split
  · exact Nat.le_succ _
  · split
    · exact Nat.zero_le _
    · exact le_rfl

namespace Piece

/-! ## Trees that are read -/

/-- No character of the pieces starts a marker or is an angle bracket. -/
def Unreserved (ps : List Piece) : Prop := ∀ c ∈ chars ps, c ≠ '#' ∧ c ≠ '<' ∧ c ≠ '>'

/-- A run of pieces that is read as a type and can be an argument. -/
structure Told (ps : List Piece) (t : TypeRef) : Prop where
  solid : Solid ps
  unreserved : Unreserved ps
  noComma : ∀ p ∈ ps, p.is ',' = false
  undigited : Undigited (texts ps)
  reads : readTree ps = .ok t

/-- A run of pieces whose segments are read as types. -/
structure ToldAll (ps : List Piece) (ts : List TypeRef) : Prop where
  unreserved : Unreserved ps
  undigited : Undigited (texts ps)
  reads : (segments ps).mapM readTree = .ok ts

/-- The question mark and the array brackets behind a type. -/
def behind (nullable : Bool) (dimensions : Nat) : List Piece :=
  (if nullable then [.char '?'] else []) ++ marks dimensions false

theorem texts_behind (nullable : Bool) (dimensions : Nat) :
    texts (behind nullable dimensions) = IdentifierStyle.marksText nullable dimensions := by
  rw [behind, texts_append, texts_marks, IdentifierStyle.marksText]
  cases nullable <;> simp [texts]

theorem mem_behind {nullable : Bool} {dimensions : Nat} {p : Piece}
    (h : p ∈ behind nullable dimensions) : p = .char '[' ∨ p = .char ']' ∨ p = .char '?' := by
  rcases List.mem_append.1 h with h | h
  · cases nullable with
    | true => exact .inr (.inr (List.mem_singleton.1 h))
    | false => cases h
  · exact mem_marks h

theorem isChar_behind {nullable : Bool} {dimensions : Nat} :
    ∀ p ∈ behind nullable dimensions, p.isChar = true := by
  intro p hp
  rcases mem_behind hp with rfl | rfl | rfl <;> rfl

theorem solid_behind {core : List Piece} (h : Solid core) (nullable : Bool) (dimensions : Nat) :
    Solid (core ++ behind nullable dimensions) := by
  refine h.append fun p hp => ?_
  rcases mem_behind (List.mem_of_mem_getLast? hp) with rfl | rfl | rfl <;> decide

theorem unreserved_behind (nullable : Bool) (dimensions : Nat) :
    Unreserved (behind nullable dimensions) := by
  intro c hc
  rcases mem_behind (chars_of_isChar isChar_behind hc) with h | h | h <;> cases h <;> decide

theorem Unreserved.append {ps qs : List Piece} (h : Unreserved ps) (h' : Unreserved qs) :
    Unreserved (ps ++ qs) := by
  intro c hc
  rw [chars_append, List.mem_append] at hc
  exact hc.elim (h c) (h' c)

/-- The marks in the order of the scanner are what is taken off a core that ends with none. -/
theorem takeMarks_behind {core : List Piece} (h : Solid core) (hcore : ¬ EndsMarked core)
    (nullable : Bool) (dimensions : Nat) :
    takeMarks (core ++ behind nullable dimensions) = { core, dimensions, nullable } := by
  cases nullable with
  | false => exact takeMarks_append h hcore dimensions false
  | true =>
      cases dimensions with
      | zero => exact takeMarks_append h hcore 0 true
      | succ d =>
          -- the question mark stands in front of the array brackets
          have hmarked : Solid (core ++ [char '?']) := solid_behind h true 0
          have harrays : takeArrays (core ++ [char '?']) = (core ++ [char '?'], 0) :=
            takeArrays_eq_self (not_brackets_of_mark (List.suffix_append _ _))
          have htaken := takeMarks_of_marks hmarked
            (.inr (Nat.succ_ne_zero d) : false = true ∨ d + 1 ≠ 0)
          rw [harrays, takeMark_concat core h.2.2, Nat.zero_add, List.append_assoc] at htaken
          exact htaken

/-- A name, possibly with a list behind it, and marks are read. -/
theorem readTree_behind {name : String} (hname : IsName true name.toList)
    (hmarks : ¬ EndsInMark name.toList) {rest : List Piece}
    (hrest : rest = [] ∨ ∃ inner, rest = [.list inner]) {params : List TypeRef}
    (hparams : ∀ inner, rest = [.list inner] → (segments inner).mapM readTree = .ok params)
    (hplain : rest = [] → params = []) (nullable : Bool) (dimensions : Nat) :
    readTree (name.toList.map .char ++ rest ++ behind nullable dimensions) =
      .ok { name, nullable, dimensions, params } := by
  have hword := solid_chars hname
  have hsolid : Solid (name.toList.map Piece.char ++ rest) := by
    refine hword.append fun p hp => ?_
    rcases hrest with rfl | ⟨inner, rfl⟩
    · cases hp
    · cases hp
      rfl
  have hcore : ¬ EndsMarked (name.toList.map Piece.char ++ rest) := by
    rcases hrest with rfl | ⟨inner, rfl⟩
    · rw [List.append_nil]
      exact fun h => hmarks (endsMarked_chars.1 h)
    · rintro (⟨qs, h⟩ | ⟨qs, h⟩) <;>
      · have hlast := congrArg List.getLast? h
        simp at hlast
  have hwhole := solid_behind hsolid nullable dimensions
  have hplainStart : ∀ tail,
      trim (name.toList.map .char ++ rest ++ behind nullable dimensions) ≠ .char '?' :: tail := by
    intro tail htail
    obtain ⟨c, cs, hcs⟩ := List.exists_cons_of_ne_nil hname.nonempty
    rw [hwhole.trim_eq, hcs] at htail
    refine hname.noWildcard ?_
    rw [hcs, List.head?_cons]
    simpa using (List.cons.inj htail).1
  rw [readTree_plain hplainStart, hwhole.trim_eq, takeMarks_behind hsolid hcore, arguments,
    dropWhile_chars]
  rcases hrest with rfl | ⟨inner, rfl⟩
  · rw [hplain rfl]
    exact named_chars hname [] rfl dimensions nullable []
  · have hread := hparams inner rfl
    simp only [List.dropWhile_cons, isChar, Bool.false_eq_true, if_false, bind, Except.bind, hread]
    exact named_chars hname [.list inner] rfl dimensions nullable params

theorem undigited_word {cs : List Char} (h : ∀ c ∈ cs, c ≠ '>') {ps : List Piece}
    (hps : Undigited (texts ps)) : Undigited (texts (cs.map .char ++ ps)) := by
  refine undigited_append_chars (fun p hp => ?_) hps
  obtain ⟨c, hc, rfl⟩ := List.mem_map.1 hp
  exact ⟨rfl, beq_eq_false_iff_ne.2 (h c hc)⟩

theorem undigited_behind (nullable : Bool) (dimensions : Nat) :
    Undigited (texts (behind nullable dimensions)) := by
  have hnil : Undigited (texts []) := by simp [texts, Undigited]
  have hmarks : ∀ p ∈ behind nullable dimensions, p.isChar = true ∧ p.is '>' = false := by
    intro p hp
    rcases mem_behind hp with rfl | rfl | rfl <;> exact ⟨rfl, rfl⟩
  have h := undigited_append_chars hmarks hnil
  rwa [List.append_nil] at h

theorem unreserved_word {cs : List Char} (h : ∀ c ∈ cs, c ≠ '#' ∧ c ≠ '<' ∧ c ≠ '>') :
    Unreserved (cs.map .char) := by
  rwa [Unreserved, chars_map_char]

theorem noComma_word {cs : List Char} (h : ',' ∉ cs) : ∀ p ∈ cs.map char, p.is ',' = false := by
  intro p hp
  obtain ⟨c, hc, rfl⟩ := List.mem_map.1 hp
  exact beq_eq_false_iff_ne.2 fun hcomma => h (hcomma ▸ hc)

theorem noComma_behind {nullable : Bool} {dimensions : Nat} :
    ∀ p ∈ behind nullable dimensions, p.is ',' = false := by
  intro p hp
  rcases mem_behind hp with rfl | rfl | rfl <;> rfl

theorem noComma_append {ps qs : List Piece} (h : ∀ p ∈ ps, p.is ',' = false)
    (hqs : ∀ p ∈ qs, p.is ',' = false) : ∀ p ∈ ps ++ qs, p.is ',' = false :=
  fun p hp => (List.mem_append.1 hp).elim (h p) (hqs p)

/-- A name without a list and its marks. -/
theorem told_plain {name : String} (hname : IsName true name.toList)
    (hmarks : ¬ EndsInMark name.toList) (nullable : Bool) (dimensions : Nat) :
    Told (name.toList.map .char ++ behind nullable dimensions)
      { name, nullable, dimensions } where
  solid := solid_behind (solid_chars hname) nullable dimensions
  unreserved := (unreserved_word hname.plain).append (unreserved_behind nullable dimensions)
  noComma := noComma_append (noComma_word (hname.noComma rfl)) noComma_behind
  undigited := undigited_word (fun c hc => (hname.plain c hc).2.2)
    (undigited_behind nullable dimensions)
  reads := by
    have h := readTree_behind hname hmarks (.inl rfl) (fun _ h => by cases h) (fun _ => rfl)
      nullable dimensions
    rwa [List.append_nil] at h

/-- A name with a list and its marks. -/
theorem told_generic {name : String} (hname : IsName true name.toList)
    (hmarks : ¬ EndsInMark name.toList) {inner : List Piece} {params : List TypeRef}
    (hinner : ToldAll inner params) (nullable : Bool) (dimensions : Nat) :
    Told (name.toList.map .char ++ .list inner :: behind nullable dimensions)
      { name, nullable, dimensions, params } where
  solid := by
    have hcore : Solid (name.toList.map char ++ [.list inner]) :=
      (solid_chars hname).append fun p hp => by cases hp; rfl
    have h := solid_behind hcore nullable dimensions
    rwa [List.append_assoc] at h
  unreserved := by
    refine (unreserved_word hname.plain).append fun c hc => ?_
    rw [chars, List.mem_append] at hc
    exact hc.elim (hinner.unreserved c) (unreserved_behind nullable dimensions c)
  noComma := noComma_append (noComma_word (hname.noComma rfl)) fun p hp => by
    rcases List.mem_cons.1 hp with rfl | hp
    · rfl
    · exact noComma_behind p hp
  undigited := by
    refine undigited_word (fun c hc => (hname.plain c hc).2.2)
      (undigited_list hinner.undigited (undigited_behind nullable dimensions) fun c hc => ?_)
    cases nullable with
    | false => exact head?_texts_marks c hc
    | true =>
        rw [texts_behind, IdentifierStyle.marksText] at hc
        cases hc
        decide
  reads := by
    have h := readTree_behind hname hmarks (.inr ⟨inner, rfl⟩)
      (fun _ h => by cases h; exact hinner.reads) (fun h => by cases h) nullable dimensions
    rwa [List.append_assoc] at h

/-! ## Spaces -/

/-- What is read depends only on what is left without the white space around it. -/
theorem readTree_of_trim {ps qs : List Piece} (h : trim ps = trim qs) :
    readTree ps = readTree qs := by
  by_cases hwild : ∃ rest, trim qs = .char '?' :: rest
  · obtain ⟨rest, hrest⟩ := hwild
    rw [readTree_wildcard hrest, readTree_wildcard (h.trans hrest)]
  · have hplain : ∀ rest, trim qs ≠ .char '?' :: rest := fun rest hrest => hwild ⟨rest, hrest⟩
    rw [readTree_plain hplain, readTree_plain (h ▸ hplain), h]

/-- Some spaces. -/
def gap (k : Nat) : List Piece := (IdentifierStyle.gap k).map .char

theorem gap_succ (k : Nat) : gap (k + 1) = .char ' ' :: gap k := rfl

theorem mem_gap {k : Nat} {p : Piece} (h : p ∈ gap k) : p = .char ' ' := by
  obtain ⟨c, hc, rfl⟩ := List.mem_map.1 h
  rw [(List.mem_replicate.1 hc).2]

theorem texts_gap (k : Nat) : texts (gap k) = IdentifierStyle.gap k := texts_map_char _

theorem unreserved_gap (k : Nat) : Unreserved (gap k) := by
  refine unreserved_word fun c hc => ?_
  rw [(List.mem_replicate.1 hc).2]
  decide

theorem undigited_gap (k : Nat) {ps : List Piece} (h : Undigited (texts ps)) :
    Undigited (texts (gap k ++ ps)) :=
  undigited_word (fun c hc => by rw [(List.mem_replicate.1 hc).2]; decide) h

theorem noComma_gap (k : Nat) : ∀ p ∈ gap k, p.is ',' = false := by
  intro p hp
  rw [mem_gap hp]
  rfl

theorem trimStart_gap (k : Nat) (ps : List Piece) : trimStart (gap k ++ ps) = trimStart ps := by
  refine List.dropWhile_append_of_pos fun p hp => ?_
  rw [mem_gap hp]
  decide

theorem trim_gap (k : Nat) (ps : List Piece) : trim (gap k ++ ps) = trim ps := by
  rw [trim, trimStart_gap, trim]

theorem Solid.trim_append_gap {ps : List Piece} (h : Solid ps) (k : Nat) :
    trim (ps ++ gap k) = trim ps := by
  have hstart : trimStart (ps ++ gap k) = ps ++ gap k :=
    trimStart_eq_self (by rw [List.head?_append_of_ne_nil _ h.1]; exact h.2.1)
  rw [h.trim_eq, trim, hstart]
  induction k with
  | zero =>
      have hnil : ps ++ gap 0 = ps := List.append_nil ps
      rw [hnil, trimEnd_eq_self h.2.2]
  | succ k ih =>
      have hlast : ps ++ gap (k + 1) = (ps ++ gap k) ++ [.char ' '] := by
        rw [gap, IdentifierStyle.gap, List.replicate_succ', List.map_append, ← List.append_assoc]
        rfl
      have hstart : trimStart (ps ++ gap k) = ps ++ gap k :=
        trimStart_eq_self (by rw [List.head?_append_of_ne_nil _ h.1]; exact h.2.1)
      rw [hlast, trimEnd, List.rdropWhile_concat, if_pos (by decide)]
      exact ih hstart

/-! ## Arguments -/

/-- A wildcard without a bound. -/
theorem told_any : Told [.char '?'] (simple anyWildcard) where
  solid := solid_of_ends _ _ rfl rfl (by decide) (by decide)
  unreserved := by
    intro c hc
    rw [chars, chars, List.mem_singleton] at hc
    rw [hc]
    decide
  noComma := by
    intro p hp
    cases List.mem_singleton.1 hp
    rfl
  undigited := by simp [texts, Undigited]
  reads := by
    have hsolid : Solid [.char '?'] := solid_of_ends _ _ rfl rfl (by decide) (by decide)
    rw [readTree_wildcard hsolid.trim_eq]
    rfl

/-- The keyword of a bound, the space behind it and what follows. -/
theorem bound?_known {keyword name : String}
    (hknown : (keyword, name) ∈ IdentifierStyle.boundKeywords) (ps : List Piece) :
    bound? (keyword.toList.map .char ++ .char ' ' :: ps) = some (name, .char ' ' :: ps) := by
  simp only [IdentifierStyle.boundKeywords, List.mem_cons, List.not_mem_nil, or_false,
    Prod.mk.injEq] at hknown
  rcases hknown with ⟨rfl, rfl⟩ | ⟨rfl, rfl⟩
  · exact bound?_upper ps
  · exact bound?_lower ps

theorem letters_of_known {keyword name : String}
    (hknown : (keyword, name) ∈ IdentifierStyle.boundKeywords) :
    keyword.toList ≠ [] ∧ ∀ c ∈ keyword.toList, c.isAlpha = true ∧ Text.isWhiteSpace c = false := by
  have hall : (IdentifierStyle.boundKeywords.all fun entry => !entry.1.toList.isEmpty &&
      entry.1.toList.all fun c => c.isAlpha && !Text.isWhiteSpace c) = true := by decide +kernel
  have h := List.all_eq_true.1 hall _ hknown
  simpa using h

/-- A wildcard with a bound. -/
theorem told_bound {keyword name : String}
    (hknown : (keyword, name) ∈ IdentifierStyle.boundKeywords) {ps : List Piece} {t : TypeRef}
    (h : Told ps t) (j k : Nat) :
    Told (('?' :: (IdentifierStyle.gap j ++ (keyword.toList ++ ' ' :: IdentifierStyle.gap k))).map
      .char ++ ps) (bounded name t) := by
  obtain ⟨hne, hletters⟩ := letters_of_known hknown
  have hmem : ∀ c ∈ '?' :: (IdentifierStyle.gap j ++ (keyword.toList ++
      ' ' :: IdentifierStyle.gap k)), c = '?' ∨ c = ' ' ∨ c.isAlpha = true := by
    intro c hc
    simp only [List.mem_cons, List.mem_append] at hc
    rcases hc with hc | hc | hc | hc | hc
    · exact .inl hc
    · exact .inr (.inl (List.mem_replicate.1 hc).2)
    · exact .inr (.inr (hletters c hc).1)
    · exact .inr (.inl hc)
    · exact .inr (.inl (List.mem_replicate.1 hc).2)
  have hother : ∀ d : Char, d ≠ '?' → d ≠ ' ' → d.isAlpha = false →
      d ∉ '?' :: (IdentifierStyle.gap j ++ (keyword.toList ++ ' ' :: IdentifierStyle.gap k)) := by
    intro d hmark hspace halpha hd
    rcases hmem d hd with hd | hd | hd
    · exact hmark hd
    · exact hspace hd
    · rw [halpha] at hd
      cases hd
  have hsolid : Solid (('?' :: (IdentifierStyle.gap j ++ (keyword.toList ++
      ' ' :: IdentifierStyle.gap k))).map .char ++ ps) := by
    refine ⟨by simp, fun p hp => ?_, fun p hp => h.solid.2.2 p ?_⟩
    · cases hp
      decide
    · rwa [List.getLast?_append_of_ne_nil _ h.solid.1] at hp
  refine ⟨hsolid, Unreserved.append (unreserved_word fun c hc => ?_) h.unreserved,
    noComma_append (noComma_word (hother ',' (by decide) (by decide) (by decide))) h.noComma,
    undigited_word (fun c hc => ?_) h.undigited, ?_⟩
  · refine ⟨?_, ?_, ?_⟩ <;> rintro rfl <;>
      exact hother _ (by decide) (by decide) (by decide) hc
  · rintro rfl
    exact hother _ (by decide) (by decide) (by decide) hc
  · -- behind the question mark and the spaces the keyword decides
    have hkeyword : trimStart (keyword.toList.map char ++ .char ' ' :: (gap k ++ ps)) =
        keyword.toList.map char ++ .char ' ' :: (gap k ++ ps) := by
      obtain ⟨c, cs, hcs⟩ := List.exists_cons_of_ne_nil hne
      refine trimStart_eq_self fun p hp => ?_
      rw [hcs] at hp
      cases hp
      exact (hletters c (by rw [hcs]; exact List.mem_cons_self ..)).2
    have hrest : ('?' :: (IdentifierStyle.gap j ++ (keyword.toList ++
        ' ' :: IdentifierStyle.gap k))).map Piece.char ++ ps =
          .char '?' :: (gap j ++ (keyword.toList.map char ++ .char ' ' :: (gap k ++ ps))) := by
      simp [gap]
    rw [readTree_wildcard (hsolid.trim_eq.trans hrest), trimStart_gap, hkeyword,
      bound?_known hknown]
    have hspaces : readTree (.char ' ' :: (gap k ++ ps)) = readTree ps :=
      readTree_of_trim (trim_gap (k + 1) ps)
    simp only [hspaces, h.reads]
    rw [if_neg (by simp)]
    rfl

/-! ## Lists of arguments -/

theorem undigited_append {ps qs : List Piece} (h : Undigited (texts ps))
    (hqs : Undigited (texts qs)) (hhead : ∀ c ∈ (texts qs).head?, c.isDigit = false) :
    Undigited (texts (ps ++ qs)) := by
  rw [texts_append]
  exact List.isChain_append.2 ⟨h, hqs, fun _ _ d hd _ => hhead d hd⟩

theorem mapM_segments_gap (k : Nat) (ps : List Piece) :
    (segments (gap k ++ ps)).mapM readTree = (segments ps).mapM readTree := by
  induction k with
  | zero => rfl
  | succ k ih => rw [gap_succ, List.cons_append, mapM_segments_space, ih]

theorem ToldAll.gap {ps : List Piece} {ts : List TypeRef} (h : ToldAll ps ts) (k : Nat) :
    ToldAll (gap k ++ ps) ts where
  unreserved := (unreserved_gap k).append h.unreserved
  undigited := undigited_gap k h.undigited
  reads := (mapM_segments_gap k ps).trans h.reads

theorem Told.readTree_append_gap {ps : List Piece} {t : TypeRef} (h : Told ps t) (k : Nat) :
    readTree (ps ++ Piece.gap k) = .ok t :=
  (readTree_of_trim (h.solid.trim_append_gap k)).trans h.reads

theorem Told.undigited_append_gap {ps qs : List Piece} {t : TypeRef} (h : Told ps t) (k : Nat)
    (hqs : Undigited (texts qs)) (hhead : ∀ c ∈ (texts qs).head?, c.isDigit = false) :
    Undigited (texts (ps ++ (Piece.gap k ++ qs))) := by
  refine undigited_append h.undigited (undigited_gap k hqs) fun c hc => ?_
  cases k with
  | zero => exact hhead c hc
  | succ k =>
      rw [gap_succ, List.cons_append, texts] at hc
      cases hc
      decide

/-- The last argument. -/
theorem Told.last {ps : List Piece} {t : TypeRef} (h : Told ps t) (k : Nat) :
    ToldAll (ps ++ Piece.gap k) [t] where
  unreserved := h.unreserved.append (unreserved_gap k)
  undigited := by
    have hnil : Undigited (texts []) := by simp [texts, Undigited]
    have hundigited := h.undigited_append_gap k hnil (by simp [texts])
    rwa [List.append_nil] at hundigited
  reads := by
    rw [segments_of_noComma (noComma_append h.noComma (noComma_gap k)), List.mapM_cons,
      h.readTree_append_gap]
    rfl

/-- An argument in front of others. -/
theorem Told.cons {ps qs : List Piece} {t : TypeRef} {ts : List TypeRef} (h : Told ps t)
    (hqs : ToldAll qs ts) (j k : Nat) :
    ToldAll (ps ++ (Piece.gap j ++ .char ',' :: (Piece.gap k ++ qs))) (t :: ts) where
  unreserved := by
    refine h.unreserved.append ((unreserved_gap j).append fun c hc => ?_)
    rw [chars, List.mem_cons] at hc
    rcases hc with rfl | hc
    · decide
    · exact (hqs.gap k).unreserved c hc
  undigited :=
    h.undigited_append_gap j (undigited_char (by decide) (hqs.gap k).undigited) (by
      rw [texts]
      simp)
  reads := by
    rw [← List.append_assoc,
      segments_append_comma (noComma_append h.noComma (noComma_gap j)), List.mapM_cons,
      h.readTree_append_gap, (hqs.gap k).reads]
    rfl

end Piece

end TypeRef

/-! ## Names of a style -/

namespace IdentifierStyle

open TypeRef (IsName EndsInMark)
open TypeRef.Piece (Told ToldAll)

/-- The characters, apart from the number sign, that mean something to the reader of types. -/
def reserved : List Char := ['<', '>', ',', '?', ']']

/-- No name of the style holds a character that means something to the reader of types, unless it
starts with a number sign. -/
structure Tame (style : IdentifierStyle) : Prop extends style.SolidMarks where
  /-- No reserved character starts a name or follows in one. -/
  tame : ∀ c ∈ reserved, style.starts c = false ∧ style.continues c = false
  /-- No number sign follows in a name. -/
  inside : style.continues '#' = false

variable {style : IdentifierStyle} {cs ds : List Char} {n : Nat}

/-- A text without number signs, in a style that starts names with them. -/
def Unmarked (style : IdentifierStyle) (cs : List Char) : Prop :=
  style.starts '#' = true → '#' ∉ cs

theorem Unmarked.mono (h : style.Unmarked cs) (hsub : ds ⊆ cs) : style.Unmarked ds :=
  fun hstarts hmem => h hstarts (hsub hmem)

theorem unmarked_of_starts (h : style.starts '#' = false) (cs : List Char) : style.Unmarked cs := by
  intro hstarts
  rw [h] at hstarts
  cases hstarts

/-- The characters of a name. -/
theorem mem_scanName {P : Char → Prop} (hstarts : ∀ c, style.starts c = true → P c)
    (hcontinues : ∀ c, style.continues c = true → P c) (h : style.scanName cs = some n) :
    ∀ c ∈ cs.take n, P c := by
  obtain ⟨d, rest, rfl, hd, rfl⟩ := exists_cons_of_scanName h
  intro c hc
  rw [List.take_succ_cons, List.mem_cons] at hc
  rcases hc with rfl | hc
  · exact hstarts c hd
  · rw [← List.prefix_iff_eq_take.1 (List.takeWhile_prefix _)] at hc
    exact hcontinues c (List.mem_takeWhile_imp hc)

theorem mem_scanDots {P : Char → Prop} (hstarts : ∀ c, style.starts c = true → P c)
    (hcontinues : ∀ c, style.continues c = true → P c) (hdot : P '.') (cs : List Char) :
    ∀ c ∈ cs.take (style.scanDots cs), P c := by
  fun_induction scanDots style cs with
  | case1 cs n hn ih =>
      intro c hc
      rw [Nat.add_right_comm, List.take_succ_cons, List.mem_cons, List.take_add,
        List.mem_append] at hc
      rcases hc with rfl | hc | hc
      · exact hdot
      · exact mem_scanName hstarts hcontinues hn c hc
      · exact ih c hc
  | case2 => simp
  | case3 => simp

/-- The characters of a dotted name. -/
theorem mem_isDotted {P : Char → Prop} (hstarts : ∀ c, style.starts c = true → P c)
    (hcontinues : ∀ c, style.continues c = true → P c) (hdot : P '.') (h : style.IsDotted cs) :
    ∀ c ∈ cs, P c := by
  obtain ⟨k, hk, hlen⟩ := Option.map_eq_some_iff.1 h
  intro c hc
  rw [← List.take_length (l := cs), ← hlen, List.take_add, List.mem_append] at hc
  exact hc.elim (mem_scanName hstarts hcontinues hk c)
    (mem_scanDots hstarts hcontinues hdot _ c)

theorem Tame.not_mem_isDotted (hs : style.Tame) (h : style.IsDotted cs)
    (hmark : style.Unmarked cs) : '#' ∉ cs := by
  by_cases hstarts : style.starts '#' = true
  · exact hmark hstarts
  · intro hmem
    have hother : ∀ c ∈ cs, c ≠ '#' := by
      refine mem_isDotted (fun c hc heq => hstarts (heq ▸ hc)) (fun c hc heq => ?_) (by decide) h
      rw [heq, hs.inside] at hc
      cases hc
    exact hother '#' hmem rfl

/-- A dotted name of a tame style is a name for the reader of types. -/
theorem Tame.isName (hs : style.Tame) (h : style.IsDotted cs) (hmark : style.Unmarked cs) :
    IsName true cs ∧ ¬ EndsInMark cs := by
  have hnumber := hs.not_mem_isDotted h hmark
  have hreserved : ∀ c ∈ cs, c ∉ reserved := by
    refine mem_isDotted (fun c hc hmem => ?_) (fun c hc hmem => ?_) (by decide) h
    · rw [(hs.tame c hmem).1] at hc
      cases hc
    · rw [(hs.tame c hmem).2] at hc
      cases hc
  have hsolid : ∀ c ∈ cs, Text.isWhiteSpace c = false := by
    have hblank : ∀ {c}, Text.isBlank c = false → Text.isWhiteSpace c = false := by
      intro c hc
      rw [Text.isBlank, Bool.or_eq_false_iff] at hc
      exact hc.1
    exact mem_isDotted (fun c hc => hblank (hs.isBlank_of_starts hc))
      (fun c hc => hblank (hs.isBlank_of_continues hc)) (by decide) h
  have hout : ∀ d ∈ reserved, d ∉ cs := fun d hd hmem => hreserved d hmem hd
  refine ⟨⟨?_, fun c hc => hsolid c (List.mem_of_mem_head? hc),
    fun c hc => hsolid c (List.mem_of_mem_getLast? hc), fun c hc => ⟨?_, ?_, ?_⟩, fun hhead => ?_,
    fun _ => hout ',' (by decide)⟩, ?_⟩
  · rintro rfl
    exact absurd (pos_of_scanDotted h) (by simp)
  · rintro rfl
    exact hnumber hc
  · rintro rfl
    exact hout _ (by decide) hc
  · rintro rfl
    exact hout _ (by decide) hc
  · exact hout '?' (by decide) (List.mem_of_mem_head? hhead)
  · rintro (⟨front, rfl⟩ | ⟨front, rfl⟩)
    · exact hout '?' (by decide) (by simp)
    · exact hout ']' (by decide) (by simp)

/-! ## Spelled types -/

theorem exists_told_type {nested : Bool} {args : List Char → List TypeRef → Prop}
    (hs : style.Tame) (hargs : ∀ list ts, args list ts → style.Unmarked list →
      ∃ ps, TypeRef.Piece.texts ps = list ∧ ToldAll ps ts)
    {t : TypeRef} (h : TypeText style nested args cs t) (hmark : style.Unmarked cs) :
    ∃ ps, TypeRef.Piece.texts ps = cs ∧ Told ps t := by
  cases h with
  | @plain name nullable dimensions dotted =>
      obtain ⟨hname, hmarks⟩ := hs.isName dotted (hmark.mono (List.subset_append_left _ _))
      refine ⟨_, ?_, TypeRef.Piece.told_plain hname hmarks nullable dimensions⟩
      rw [TypeRef.Piece.texts_append, TypeRef.Piece.texts_map_char, TypeRef.Piece.texts_behind]
  | @generic name nullable list params dimensions dotted _ listed =>
      obtain ⟨hname, hmarks⟩ := hs.isName dotted (hmark.mono (List.subset_append_left _ _))
      obtain ⟨inner, rfl, hinner⟩ := hargs list params listed
        (hmark.mono fun c hc => by simp [hc])
      refine ⟨_, ?_, TypeRef.Piece.told_generic hname hmarks hinner nullable dimensions⟩
      rw [TypeRef.Piece.texts_append, TypeRef.Piece.texts_map_char, TypeRef.Piece.texts,
        TypeRef.Piece.texts_behind]

theorem exists_told_argument {type : List Char → TypeRef → Prop}
    (htype : ∀ cs t, type cs t → style.Unmarked cs →
      ∃ ps, TypeRef.Piece.texts ps = cs ∧ Told ps t) {t : TypeRef}
    (h : ArgumentText style type cs t) (hmark : style.Unmarked cs) :
    ∃ ps, TypeRef.Piece.texts ps = cs ∧ Told ps t := by
  cases h with
  | type typed => exact htype cs t typed hmark
  | any => exact ⟨_, by simp [TypeRef.Piece.texts], TypeRef.Piece.told_any⟩
  | @bound keyword name cs t j k _ known typed =>
      obtain ⟨ps, rfl, hps⟩ := htype cs t typed (hmark.mono fun c hc => by simp [hc])
      refine ⟨_, ?_, TypeRef.Piece.told_bound known hps j k⟩
      rw [TypeRef.Piece.texts_append, TypeRef.Piece.texts_map_char]
      simp

theorem exists_told_arguments {arg : List Char → TypeRef → Prop}
    (harg : ∀ cs t, arg cs t → style.Unmarked cs →
      ∃ ps, TypeRef.Piece.texts ps = cs ∧ Told ps t)
    {ts : List TypeRef} (h : ArgumentsText arg cs ts) (hmark : style.Unmarked cs) :
    ∃ ps, TypeRef.Piece.texts ps = cs ∧ ToldAll ps ts := by
  induction h with
  | @last cs t k argument =>
      obtain ⟨ps, rfl, hps⟩ := harg cs t argument (hmark.mono (List.subset_append_left _ _))
      exact ⟨_, by rw [TypeRef.Piece.texts_append, TypeRef.Piece.texts_gap], hps.last k⟩
  | @cons cs list t ts j k argument rest ih =>
      obtain ⟨ps, rfl, hps⟩ := harg cs t argument (hmark.mono (List.subset_append_left _ _))
      obtain ⟨qs, rfl, hqs⟩ := ih (hmark.mono fun c hc => by simp [hc])
      refine ⟨_, ?_, hps.cons hqs j k⟩
      simp only [TypeRef.Piece.texts_append, TypeRef.Piece.texts, TypeRef.Piece.texts_gap]

theorem exists_told_list (hs : style.Tame) (depth : Nat) (cs : List Char) (ts : List TypeRef)
    (h : ListText style depth cs ts) (hmark : style.Unmarked cs) :
    ∃ ps, TypeRef.Piece.texts ps = cs ∧ ToldAll ps ts := by
  induction depth generalizing cs ts with
  | zero => exact h.elim
  | succ depth ih =>
      obtain ⟨k, list, rfl, hlist⟩ := h
      obtain ⟨ps, rfl, hps⟩ := exists_told_arguments
        (fun _ _ => exists_told_argument fun _ _ => exists_told_type hs ih) hlist
        (hmark.mono (List.subset_append_right _ _))
      exact ⟨_, by rw [TypeRef.Piece.texts_append, TypeRef.Piece.texts_gap], hps.gap k⟩

/-- A text that spells a type is that of a bracket tree that is read as this type. -/
theorem exists_told (hs : style.Tame) {depth : Nat} {nested : Bool} {t : TypeRef}
    (h : style.Spells depth nested cs t) (hmark : style.Unmarked cs) :
    ∃ ps, TypeRef.Piece.texts ps = cs ∧ Told ps t :=
  exists_told_type hs (exists_told_list hs depth) h hmark

/-- A spelled type is read. -/
theorem parse_of_spells (hs : style.Tame) {depth : Nat} {nested : Bool} {t : TypeRef}
    (h : style.Spells depth nested cs t) (hmark : style.Unmarked cs) :
    TypeRef.parse (String.ofList cs) = .ok t := by
  obtain ⟨ps, rfl, hps⟩ := exists_told hs h hmark
  rw [TypeRef.parse, String.toList_ofList, TypeRef.Piece.trim_texts, hps.solid.trim_eq]
  have hproper : TypeRef.Piece.Proper ps := fun c hc => (hps.unreserved c hc).2
  have hnumber : '#' ∉ TypeRef.Piece.chars ps := fun hc => (hps.unreserved _ hc).1 rfl
  rw [TypeRef.Piece.parseChars_texts hproper hnumber hps.undigited, hps.reads]
  rfl

/-- What is read as an identifier as a whole spells a type. -/
theorem Tame.exists_parse_of_scan (hs : style.Tame) {w : String}
    (h : style.scan w.toList = some w.toList.length) (hmark : style.Unmarked w.toList) :
    ∃ t, TypeRef.parse w = .ok t := by
  obtain ⟨t, ht⟩ := exists_spells h
  rw [List.take_length] at ht
  have hparse := parse_of_spells hs ht hmark
  rw [String.ofList_toList] at hparse
  exact ⟨t, hparse⟩

/-- A lone name spells the type of this name. -/
theorem Tame.parse_word (hs : style.Tame) {w : String}
    (h : style.scanName w.toList = some w.toList.length) (hmark : style.Unmarked w.toList) :
    TypeRef.parse w = .ok { name := w } := by
  have hdotted : style.IsDotted w.toList := by
    have hdots : style.scanDots [] = 0 := by simp [scanDots]
    rw [IsDotted, scanDotted, h, Option.map_some, List.drop_length, hdots, Nat.add_zero]
  have hspells : style.Spells 0 false w.toList { name := w } := by
    have hplain : TypeText style false (ListText style 0) (w.toList ++ marksText false 0) _ :=
      .plain 0 hdotted fun h => h
    simpa [Spells, marksText] using hplain
  have hparse := parse_of_spells hs hspells hmark
  rwa [String.ofList_toList] at hparse

/-! ## Nesting and names -/

/-- The brackets of the type nest at most `depth` deep, and every name in it that is no wildcard
is a dotted name. -/
structure Scanned (style : IdentifierStyle) (depth : Nat) (t : TypeRef) : Prop where
  /-- How deep the angle brackets nest. -/
  nesting : t.nesting ≤ depth
  /-- The names. -/
  names : ∀ u ∈ t.occurrences, u.isWildcard = false → style.IsDotted u.name.toList

theorem scanned_type {nested : Bool} {depth : Nat} {args : List Char → List TypeRef → Prop}
    (hargs : ∀ list ts, args list ts → ∃ below, depth = below + 1 ∧ ∀ t ∈ ts, style.Scanned below t)
    {t : TypeRef} (h : TypeText style nested args cs t) : style.Scanned depth t := by
  cases h with
  | @plain name nullable dimensions dotted =>
      refine ⟨?_, TypeRef.forall_occurrences.2 ⟨fun _ => dotted, by simp⟩⟩
      rw [TypeRef.nesting, TypeRef.nestingAll]
      simp
  | @generic name nullable list params dimensions dotted _ listed =>
      obtain ⟨below, rfl, hparams⟩ := hargs list params listed
      refine ⟨?_, TypeRef.forall_occurrences.2 ⟨fun _ => dotted, fun p hp => (hparams p hp).names⟩⟩
      have hall : TypeRef.nestingAll params ≤ below :=
        TypeRef.nestingAll_le.2 fun p hp => (hparams p hp).nesting
      exact (TypeRef.nesting_le_succ _).trans (Nat.succ_le_succ hall)

theorem scanned_argument {depth : Nat} {type : List Char → TypeRef → Prop}
    (htype : ∀ cs t, type cs t → style.Scanned depth t) {t : TypeRef}
    (h : ArgumentText style type cs t) : style.Scanned depth t := by
  cases h with
  | type typed => exact htype cs t typed
  | any =>
      refine ⟨Nat.zero_le _, TypeRef.forall_occurrences.2 ⟨fun hwild => ?_, fun p hp => ?_⟩⟩
      · cases hwild
      · cases hp
  | @bound keyword name cs t j k _ known typed =>
      have ht := htype cs t typed
      have hname : TypeRef.isWildcardName name = true := by
        simp only [boundKeywords, List.mem_cons, List.not_mem_nil, or_false,
          Prod.mk.injEq] at known
        rcases known with ⟨-, rfl⟩ | ⟨-, rfl⟩ <;> decide
      refine ⟨?_, TypeRef.forall_occurrences.2 ⟨fun hwild => ?_, fun p hp => ?_⟩⟩
      · rw [TypeRef.bounded, TypeRef.nesting, if_pos hname]
        exact TypeRef.nestingAll_le.2 fun p hp => by
          rw [List.mem_singleton.1 hp]
          exact ht.nesting
      · exact absurd (hname.symm.trans hwild) (by decide)
      · rw [List.mem_singleton.1 hp]
        exact ht.names

theorem scanned_arguments {depth : Nat} {arg : List Char → TypeRef → Prop}
    (harg : ∀ cs t, arg cs t → style.Scanned depth t) {ts : List TypeRef}
    (h : ArgumentsText arg cs ts) : ∀ t ∈ ts, style.Scanned depth t := by
  induction h with
  | @last cs t k argument =>
      intro u hu
      rw [List.mem_singleton.1 hu]
      exact harg cs t argument
  | @cons cs list t ts j k argument rest ih =>
      exact List.forall_mem_cons.2 ⟨harg cs t argument, ih⟩

theorem scanned_list (depth : Nat) (cs : List Char) (ts : List TypeRef)
    (h : ListText style depth cs ts) :
    ∃ below, depth = below + 1 ∧ ∀ t ∈ ts, style.Scanned below t := by
  induction depth generalizing cs ts with
  | zero => exact h.elim
  | succ depth ih =>
      obtain ⟨k, list, rfl, hlist⟩ := h
      exact ⟨depth, rfl, scanned_arguments
        (fun _ _ => scanned_argument fun _ _ => scanned_type ih) hlist⟩

/-- The nesting and the names of a spelled type. -/
theorem scanned_of_spells {depth : Nat} {nested : Bool} {t : TypeRef}
    (h : style.Spells depth nested cs t) : style.Scanned depth t :=
  scanned_type (scanned_list depth) h

end IdentifierStyle

/-! ## Languages -/

/-- A style is tame, by evaluation. -/
theorem IdentifierStyle.Tame.of_all {style : IdentifierStyle}
    (hstarts : (style.extraStart.all fun c => !Text.isBlank c) = true)
    (hcontinues : (style.extraPart.all fun c => !Text.isBlank c) = true)
    (htame : (reserved.all fun c => !style.starts c && !style.continues c) = true)
    (hinside : style.continues '#' = false) : style.Tame where
  starts := Text.solid_of_all hstarts
  continues := Text.solid_of_all hcontinues
  tame := by
    intro c hc
    have hboth := List.all_eq_true.1 htame c hc
    simpa using hboth
  inside := hinside

theorem CSharp.tame_identifiers (depth : Nat) : (CSharp.identifiers depth).Tame :=
  .of_all rfl rfl rfl rfl

theorem Java.tame_identifiers (depth : Nat) : (Java.identifiers depth).Tame :=
  .of_all rfl rfl rfl rfl

theorem TypeScript.tame_identifiers (depth : Nat) : (TypeScript.identifiers depth).Tame :=
  .of_all rfl rfl rfl rfl

end Outline
