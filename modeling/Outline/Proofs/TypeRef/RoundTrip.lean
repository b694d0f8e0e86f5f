import Outline.Proofs.TypeRef.Digits
import Outline.Proofs.TypeRef.Printing

/-!
# Reading what was printed

The text of a type that is made of names and wildcards is read back as this type, unless a name
without arguments ends with a mark, or a wildcard without a bound has one.

* `readTree_tree` — when a type is read back from the bracket tree of its text.
* `Piece.shaped_of_readTree` — what is read is made of names and wildcards.
* `parse_text_iff_of_writable` — types that are written down are read back.
* `parse_text_iff_of_parse` — when a type that was read is read back.
-/

namespace Outline.TypeRef

/-! ## The types in a type -/

mutual

/-- The type and the types among its arguments, at every depth. -/
def occurrences : TypeRef → List TypeRef
  | ⟨name, nullable, dimensions, params⟩ =>
    ⟨name, nullable, dimensions, params⟩ :: occurrencesAll params

/-- The types of a list and those among their arguments. -/
def occurrencesAll : List TypeRef → List TypeRef
  | [] => []
  | t :: ts => t.occurrences ++ occurrencesAll ts

end

theorem mem_occurrencesAll {u : TypeRef} {ts : List TypeRef} :
    u ∈ occurrencesAll ts ↔ ∃ t ∈ ts, u ∈ t.occurrences := by
  induction ts with
  | nil => simp [occurrencesAll]
  | cons t ts ih => simp [occurrencesAll, ih]

theorem mem_occurrences {u t : TypeRef} :
    u ∈ t.occurrences ↔ u = t ∨ ∃ p ∈ t.params, u ∈ p.occurrences := by
  cases t
  rw [occurrences, List.mem_cons, mem_occurrencesAll]

theorem forall_occurrences {P : TypeRef → Prop} {t : TypeRef} :
    (∀ u ∈ t.occurrences, P u) ↔ P t ∧ ∀ p ∈ t.params, ∀ u ∈ p.occurrences, P u := by
  constructor
  · exact fun h => ⟨h t (mem_occurrences.2 (.inl rfl)),
      fun p hp u hu => h u (mem_occurrences.2 (.inr ⟨p, hp, hu⟩))⟩
  · rintro ⟨ht, hparams⟩ u hu
    rcases mem_occurrences.1 hu with rfl | ⟨p, hp, hu⟩
    · exact ht
    · exact hparams p hp u hu

/-- The text of the type keeps its marks apart from its name: a wildcard without a bound has
none, and no other name without arguments ends with one. -/
structure MarksApart (t : TypeRef) : Prop where
  wildcard : t.name = anyWildcard → t.nullable = false ∧ t.dimensions = 0
  name : t.name ≠ anyWildcard → t.params = [] → ¬ EndsInMark t.name.toList

/-! ## Trees of types -/

namespace Piece

theorem solid_of_ends {ps : List Piece} (first last : Piece) (hfirst : ps.head? = some first)
    (hlast : ps.getLast? = some last) (hf : first.isBlank = false) (hl : last.isBlank = false) :
    Solid ps := by
  have hne : ps ≠ [] := by
    rintro rfl
    cases hfirst
  refine ⟨hne, ?_, ?_⟩
  · intro p hp
    rw [hfirst] at hp
    cases hp
    exact hf
  · intro p hp
    rw [hlast] at hp
    cases hp
    exact hl

theorem mem_marks {dimensions : Nat} {nullable : Bool} {p : Piece}
    (h : p ∈ marks dimensions nullable) : p = .char '[' ∨ p = .char ']' ∨ p = .char '?' := by
  rcases List.mem_append.1 h with h | h
  · obtain ⟨pair, hpair, hp⟩ := List.mem_flatten.1 h
    rw [(List.mem_replicate.1 hpair).2] at hp
    simp at hp
    tauto
  · cases nullable <;> simp_all

theorem chars_of_isChar {ps : List Piece} (h : ∀ p ∈ ps, p.isChar = true) {c : Char}
    (hc : c ∈ chars ps) : .char c ∈ ps := by
  induction ps with
  | nil => simp [chars] at hc
  | cons p ps ih =>
      cases p with
      | char d =>
          rw [chars, List.mem_cons] at hc
          rcases hc with rfl | hc
          · exact List.mem_cons_self ..
          · exact List.mem_cons_of_mem _ (ih (fun p hp => h p (by simp [hp])) hc)
      | list inner => exact absurd (h (.list inner) (by simp)) Bool.false_ne_true

theorem isChar_marks {dimensions : Nat} {nullable : Bool} :
    ∀ p ∈ marks dimensions nullable, p.isChar = true := by
  intro p hp
  rcases mem_marks hp with rfl | rfl | rfl <;> rfl

theorem mem_chars_joined {qs : List (List Piece)} {c : Char} (h : c ∈ chars (joined qs)) :
    c = ',' ∨ c = ' ' ∨ ∃ q ∈ qs, c ∈ chars q := by
  induction qs with
  | nil => simp [joined, chars] at h
  | cons q qs ih =>
      cases qs with
      | nil => exact .inr (.inr ⟨q, by simp, by simpa [joined] using h⟩)
      | cons q' qs =>
          rw [joined, List.intercalate_cons_cons, chars_append, chars_append] at h
          simp only [List.mem_append, chars, List.mem_cons, List.not_mem_nil, or_false] at h
          rcases h with (h | rfl | rfl) | h
          · exact .inr (.inr ⟨q, by simp, h⟩)
          · exact .inl rfl
          · exact .inr (.inl rfl)
          · obtain h | h | ⟨p, hp, hc⟩ := ih h
            · exact .inl h
            · exact .inr (.inl h)
            · exact .inr (.inr ⟨p, by simp [hp], hc⟩)

theorem undigited_append_chars {front ps : List Piece}
    (hfront : ∀ p ∈ front, p.isChar = true ∧ p.is '>' = false) (h : Undigited (texts ps)) :
    Undigited (texts (front ++ ps)) := by
  induction front with
  | nil => exact h
  | cons p front ih =>
      have hp := hfront p (by simp)
      cases p with
      | char c =>
          exact undigited_char (beq_eq_false_iff_ne.1 hp.2)
            (ih fun p hp => hfront p (List.mem_cons_of_mem _ hp))
      | list inner => exact absurd hp.1 Bool.false_ne_true

theorem undigited_append_comma {ps qs : List Piece} (h : Undigited (texts ps))
    (hqs : Undigited (texts qs)) :
    Undigited (texts (ps ++ .char ',' :: .char ' ' :: qs)) := by
  rw [texts_append]
  refine List.isChain_append.2 ⟨h, undigited_char (by decide) (undigited_char (by decide) hqs), ?_⟩
  intro c _ d hd _
  rw [texts] at hd
  cases hd
  decide

theorem undigited_joined {qs : List (List Piece)} (h : ∀ q ∈ qs, Undigited (texts q)) :
    Undigited (texts (joined qs)) := by
  induction qs with
  | nil => simp [joined, texts, Undigited]
  | cons q qs ih =>
      have hq := h q (by simp)
      have ih := ih fun q' hq' => h q' (by simp [hq'])
      cases qs with
      | nil => simpa [joined] using hq
      | cons q' qs =>
          rw [joined, List.intercalate_cons_cons, List.append_assoc]
          exact undigited_append_comma hq ih

theorem not_close_marks (dimensions : Nat) (nullable : Bool) :
    ∀ p ∈ marks dimensions nullable, p.isChar = true ∧ p.is '>' = false := by
  intro p hp
  rcases mem_marks hp with rfl | rfl | rfl <;> exact ⟨rfl, rfl⟩

theorem undigited_marks (dimensions : Nat) (nullable : Bool) :
    Undigited (texts (marks dimensions nullable)) := by
  have hnil : Undigited (texts []) := by simp [texts, Undigited]
  have h := undigited_append_chars (not_close_marks dimensions nullable) hnil
  rwa [List.append_nil] at h

theorem head?_texts_marks {dimensions : Nat} {nullable : Bool} :
    ∀ c ∈ (texts (marks dimensions nullable)).head?, c.isDigit = false := by
  intro c hc
  have hmem : c ∈ texts (marks dimensions nullable) := List.mem_of_mem_head? hc
  rw [texts_marks] at hmem
  rcases List.mem_append.1 hmem with h | h
  · obtain ⟨pair, hpair, hp⟩ := List.mem_flatten.1 h
    rw [(List.mem_replicate.1 hpair).2] at hp
    rcases List.mem_cons.1 hp with rfl | hp
    · decide
    · rw [List.mem_singleton.1 hp]
      decide
  · cases nullable with
    | true =>
        rw [List.mem_singleton.1 h]
        decide
    | false => cases h

end Piece

namespace Shaped

variable {inList : Bool} {t : TypeRef}

theorem solid (h : Shaped inList t) : Piece.Solid (tree t) := by
  induction h with
  | any inList nullable dimensions =>
      have hmark : Piece.Solid [.char '?'] := Piece.solid_of_ends _ _ rfl rfl (by decide) (by decide)
      rw [tree_any]
      exact hmark.append (Piece.getLast?_marks dimensions nullable)
  | @bounded inList name bound hname hbound ih =>
      have hsolid : Piece.Solid (name.toList.map .char) := by
        rcases hname with rfl | rfl
        · exact Piece.solid_of_ends (.char '?') (.char 's')
            (by simp [upperWildcard]) (by simp [upperWildcard]) (by decide) (by decide)
        · exact Piece.solid_of_ends (.char '?') (.char 'r')
            (by simp [lowerWildcard]) (by simp [lowerWildcard]) (by decide) (by decide)
      rw [tree_bounded hname]
      refine hsolid.append fun p hp => ih.2.2 p ?_
      rw [← List.singleton_append, List.getLast?_append_of_ne_nil _ ih.1] at hp
      exact hp
  | named nullable dimensions hname hparams ih =>
      rw [tree_named hname]
      refine (Piece.solid_chars hname).append fun p hp => ?_
      rw [List.getLast?_append] at hp
      cases hmarks : (Piece.marks dimensions nullable).getLast? with
      | some q => exact Piece.getLast?_marks dimensions nullable p (by simpa [hmarks] using hp)
      | none =>
          rw [hmarks, Option.none_or] at hp
          split at hp
          · cases hp
          · cases hp
            rfl

theorem plain (h : Shaped inList t) : ∀ c ∈ Piece.chars (tree t), c ≠ '#' ∧ c ≠ '<' ∧ c ≠ '>' := by
  have hmarks : ∀ (d : Nat) (q : Bool), ∀ c ∈ Piece.chars (Piece.marks d q),
      c ≠ '#' ∧ c ≠ '<' ∧ c ≠ '>' := by
    intro d q c hc
    rcases Piece.mem_marks (Piece.chars_of_isChar Piece.isChar_marks hc) with hc | hc | hc <;>
      cases hc <;> decide
  induction h with
  | any inList nullable dimensions =>
      rw [tree_any, Piece.chars]
      intro c hc
      rcases List.mem_cons.1 hc with rfl | hc
      · decide
      · exact hmarks _ _ c hc
  | @bounded inList name bound hname hbound ih =>
      have hkeyword : ∀ c ∈ name.toList, c ≠ '#' ∧ c ≠ '<' ∧ c ≠ '>' := by
        rcases hname with rfl | rfl <;> simp [upperWildcard, lowerWildcard]
      rw [tree_bounded hname, Piece.chars_append, Piece.chars_map_char, Piece.chars]
      intro c hc
      rcases List.mem_append.1 hc with hc | hc
      · exact hkeyword c hc
      rcases List.mem_cons.1 hc with rfl | hc
      · decide
      · exact ih c hc
  | named nullable dimensions hname hparams ih =>
      rw [tree_named hname, Piece.chars_append, Piece.chars_append, Piece.chars_map_char]
      intro c hc
      rcases List.mem_append.1 hc with hc | hc
      · exact hname.plain c hc
      rcases List.mem_append.1 hc with hc | hc
      · split at hc
        · simp [Piece.chars] at hc
        · rw [Piece.chars, Piece.chars, List.append_nil] at hc
          obtain rfl | rfl | ⟨q, hq, hc⟩ := Piece.mem_chars_joined hc
          · decide
          · decide
          · obtain ⟨p, hp, rfl⟩ := List.mem_map.1 hq
            exact ih p hp c hc
      · exact hmarks _ _ c hc

theorem proper (h : Shaped inList t) : Piece.Proper (tree t) := fun c hc => (h.plain c hc).2

theorem undigited (h : Shaped inList t) : Undigited (Piece.texts (tree t)) := by
  have hchars : ∀ {cs : List Char}, (∀ c ∈ cs, c ≠ '>') →
      ∀ p ∈ cs.map Piece.char, p.isChar = true ∧ p.is '>' = false := by
    intro cs hcs p hp
    obtain ⟨c, hc, rfl⟩ := List.mem_map.1 hp
    exact ⟨rfl, beq_eq_false_iff_ne.2 (hcs c hc)⟩
  induction h with
  | any inList nullable dimensions =>
      rw [tree_any]
      exact Piece.undigited_char (by decide) (Piece.undigited_marks dimensions nullable)
  | @bounded inList name bound hname hbound ih =>
      have hkeyword : ∀ c ∈ name.toList, c ≠ '>' := by
        rcases hname with rfl | rfl <;> simp [upperWildcard, lowerWildcard]
      rw [tree_bounded hname]
      exact Piece.undigited_append_chars (hchars hkeyword) (Piece.undigited_char (by decide) ih)
  | named nullable dimensions hname hparams ih =>
      rw [tree_named hname]
      refine Piece.undigited_append_chars (hchars fun c hc => (hname.plain c hc).2.2) ?_
      split
      · exact Piece.undigited_marks dimensions nullable
      · refine Piece.undigited_list (Piece.undigited_joined ?_)
          (Piece.undigited_marks dimensions nullable) Piece.head?_texts_marks
        intro q hq
        obtain ⟨p, hp, rfl⟩ := List.mem_map.1 hq
        exact ih p hp

/-- A type in a list has no comma of its own. -/
theorem noComma (h : Shaped true t) : ∀ p ∈ tree t, p.is ',' = false := by
  generalize hin : true = inList at h
  have hmarks : ∀ (d : Nat) (q : Bool), ∀ p ∈ Piece.marks d q, p.is ',' = false := by
    intro d q p hp
    rcases Piece.mem_marks hp with rfl | rfl | rfl <;> rfl
  induction h with
  | any inList nullable dimensions =>
      rw [tree_any]
      intro p hp
      rcases List.mem_cons.1 hp with rfl | hp
      · rfl
      · exact hmarks _ _ p hp
  | @bounded inList name bound hname hbound ih =>
      have hkeyword : ∀ p ∈ name.toList.map Piece.char, p.is ',' = false := by
        rcases hname with rfl | rfl <;> simp [upperWildcard, lowerWildcard, Piece.is]
      rw [tree_bounded hname]
      intro p hp
      rcases List.mem_append.1 hp with hp | hp
      · exact hkeyword p hp
      rcases List.mem_cons.1 hp with rfl | hp
      · rfl
      · exact ih hin p hp
  | named nullable dimensions hname hparams ih =>
      rw [tree_named hname]
      intro p hp
      rcases List.mem_append.1 hp with hp | hp
      · obtain ⟨c, hc, rfl⟩ := List.mem_map.1 hp
        rw [Piece.is, beq_eq_false_iff_ne]
        rintro rfl
        exact hname.noComma hin.symm hc
      rcases List.mem_append.1 hp with hp | hp
      · split at hp
        · cases hp
        · rw [List.mem_singleton.1 hp]
          rfl
      · exact hmarks _ _ p hp

end Shaped

/-! ## Reading the tree of a type -/

namespace Piece

theorem after?_chars (cs : List Char) (ps : List Piece) :
    after? cs (cs.map .char ++ ps) = some ps := by
  induction cs with
  | nil => rw [List.map_nil, List.nil_append, after?]
  | cons c cs ih => rw [List.map_cons, List.cons_append, after?, if_pos (by simp), ih]

theorem bound?_upper (ps : List Piece) :
    bound? ("extends".toList.map .char ++ .char ' ' :: ps) =
      some (upperWildcard, .char ' ' :: ps) := by
  rw [bound?, target?, after?_chars]
  rfl

theorem bound?_lower (ps : List Piece) :
    bound? ("super".toList.map .char ++ .char ' ' :: ps) =
      some (lowerWildcard, .char ' ' :: ps) := by
  have hextends : target? "extends" ("super".toList.map .char ++ .char ' ' :: ps) = none := by
    simp [target?, after?]
  rw [bound?, hextends, target?, after?_chars]
  rfl

/-- Marks are no bound. -/
theorem bound?_marks (dimensions : Nat) (nullable : Bool) :
    bound? (marks dimensions nullable) = none := by
  cases hmarks : marks dimensions nullable with
  | nil => simp [bound?, target?, after?]
  | cons p ps =>
      have hp := mem_marks (hmarks ▸ List.mem_cons_self .. : p ∈ marks dimensions nullable)
      rcases hp with rfl | rfl | rfl <;> simp [bound?, target?, after?]

theorem trimStart_marks (dimensions : Nat) (nullable : Bool) :
    trimStart (marks dimensions nullable) = marks dimensions nullable := by
  refine trimStart_eq_self fun p hp => ?_
  rcases mem_marks (List.mem_of_mem_head? hp) with rfl | rfl | rfl <;> decide

theorem marks_eq_nil {dimensions : Nat} {nullable : Bool} :
    marks dimensions nullable = [] ↔ nullable = false ∧ dimensions = 0 := by
  cases nullable <;> cases dimensions <;> simp [marks, List.replicate_succ]

theorem segments_of_noComma {ps : List Piece} (h : ∀ p ∈ ps, p.is ',' = false) :
    segments ps = [ps] := by
  induction ps with
  | nil => rw [segments]
  | cons p ps ih =>
      rw [segments, if_neg (by simp [h p]), ih fun p hp => h p (List.mem_cons_of_mem _ hp)]

theorem segments_append_comma {ps : List Piece} (h : ∀ p ∈ ps, p.is ',' = false)
    (qs : List Piece) : segments (ps ++ .char ',' :: qs) = ps :: segments qs := by
  induction ps with
  | nil => rw [List.nil_append, segments_comma rfl]
  | cons p ps ih =>
      rw [List.cons_append, segments, if_neg (by simp [h p]),
        ih fun p hp => h p (List.mem_cons_of_mem _ hp)]

theorem mapM_segments_space (ps : List Piece) :
    (segments (.char ' ' :: ps)).mapM readTree = (segments ps).mapM readTree := by
  obtain ⟨q, qs, hqs, heq⟩ := segments_cons (p := .char ' ') rfl ps
  rw [heq, hqs, List.mapM_cons, List.mapM_cons, readTree_blank (by decide)]

/-- The segments of joined runs are read as these runs. -/
theorem mapM_segments_joined {qs : List (List Piece)} (hne : qs ≠ [])
    (h : ∀ q ∈ qs, ∀ p ∈ q, p.is ',' = false) :
    (segments (joined qs)).mapM readTree = qs.mapM readTree := by
  induction qs with
  | nil => exact absurd rfl hne
  | cons q qs ih =>
      have hq := h q (by simp)
      cases qs with
      | nil => simp [joined, segments_of_noComma hq]
      | cons q' qs =>
          have hsplit : joined (q :: q' :: qs) =
              q ++ .char ',' :: .char ' ' :: joined (q' :: qs) := by
            simp [joined, List.intercalate_cons_cons]
          rw [hsplit, segments_append_comma hq, List.mapM_cons, mapM_segments_space,
            ih (by simp) fun p hp => h p (List.mem_cons_of_mem _ hp), ← List.mapM_cons]

/-! ## Names with their marks -/

theorem takeWhile_chars (cs : List Char) {rest : List Piece} (hrest : rest.takeWhile isChar = []) :
    (cs.map Piece.char ++ rest).takeWhile isChar = cs.map Piece.char := by
  rw [List.takeWhile_append_of_pos, hrest, List.append_nil]
  intro p hp
  obtain ⟨c, -, rfl⟩ := List.mem_map.1 hp
  rfl

theorem dropWhile_chars (cs : List Char) (rest : List Piece) :
    (cs.map Piece.char ++ rest).dropWhile isChar = rest.dropWhile isChar := by
  refine List.dropWhile_append_of_pos fun p hp => ?_
  obtain ⟨c, -, rfl⟩ := List.mem_map.1 hp
  rfl

theorem named_chars {inList : Bool} {name : String} (hname : IsName inList name.toList)
    (rest : List Piece) (hrest : rest.takeWhile isChar = []) (dimensions : Nat) (nullable : Bool)
    (params : List TypeRef) :
    named { core := name.toList.map .char ++ rest, dimensions, nullable } params =
      .ok { name, nullable, dimensions, params } := by
  have hsolid := solid_chars hname
  unfold named
  dsimp only
  rw [takeWhile_chars _ hrest, trimEnd_eq_self hsolid.2.2, texts_map_char, String.ofList_toList,
    if_neg (by simpa using hname.nonempty)]

theorem length_texts_of_isChar {ps : List Piece} (h : ∀ p ∈ ps, p.isChar = true) :
    (texts ps).length = ps.length := by
  induction ps with
  | nil => rw [texts, List.length_nil, List.length_nil]
  | cons p ps ih =>
      cases p with
      | char c => rw [texts, List.length_cons, ih fun p hp => h p (by simp [hp]), List.length_cons]
      | list inner => exact absurd (h (.list inner) (by simp)) Bool.false_ne_true

/-- A name is at most as long as its core. -/
theorem length_name_le {m : Unmarked} {params : List TypeRef} {t : TypeRef}
    (h : named m params = .ok t) : t.name.toList.length ≤ m.core.length := by
  unfold named at h
  dsimp only at h
  split at h
  · cases h
  · cases h
    rw [String.toList_ofList, length_texts_of_isChar]
    · exact (length_trimEnd_le _).trans (List.takeWhile_prefix _).length_le
    · intro p hp
      exact List.mem_takeWhile_imp ((isCore_trimEnd _).isInfix.mem hp)

theorem endsMarked_chars {cs : List Char} : EndsMarked (cs.map .char) ↔ EndsInMark cs := by
  have hsuffix : ∀ mark : List Char, mark.map Piece.char <:+ cs.map Piece.char ↔ mark <:+ cs := by
    intro mark
    rw [List.suffix_map_iff]
    constructor
    · rintro ⟨mark', hmark', heq⟩
      rwa [List.map_injective_iff.2 (fun c d h => Piece.char.inj h) heq]
    · exact fun h => ⟨mark, h, rfl⟩
  exact or_congr (hsuffix ['?']) (hsuffix ['[', ']'])

end Piece

/-! ## What is read back -/

theorem forall_of_mapM_map {ts : List TypeRef} :
    (ts.map tree).mapM Piece.readTree = .ok ts ↔ ∀ t ∈ ts, Piece.readTree (tree t) = .ok t := by
  induction ts with
  | nil => simp [pure, Except.pure]
  | cons t ts ih =>
      rw [List.map_cons, List.mapM_cons, List.forall_mem_cons, ← ih]
      cases Piece.readTree (tree t) with
      | error e => simp [bind, Except.bind]
      | ok t' =>
          cases (ts.map tree).mapM Piece.readTree with
          | error e => simp [bind, Except.bind]
          | ok ts' => simp [bind, Except.bind, pure, Except.pure]

/-- A wildcard without a bound is read back if it has no marks. -/
theorem readTree_any (nullable : Bool) (dimensions : Nat) :
    Piece.readTree (tree ⟨anyWildcard, nullable, dimensions, []⟩) =
        .ok ⟨anyWildcard, nullable, dimensions, []⟩ ↔ nullable = false ∧ dimensions = 0 := by
  have htrim := (Shaped.any true nullable dimensions).solid.trim_eq
  rw [tree_any] at htrim ⊢
  rw [Piece.readTree_wildcard htrim, Piece.trimStart_marks, Piece.bound?_marks]
  by_cases hmarks : nullable = false ∧ dimensions = 0
  · obtain ⟨rfl, rfl⟩ := hmarks
    rw [Piece.marks_zero_false]
    simp [simple]
  · rw [if_neg (by rw [List.isEmpty_iff, Piece.marks_eq_nil]; exact hmarks)]
    simpa using hmarks

/-- A wildcard with a bound is read back if its bound is. -/
theorem readTree_bounded {inList : Bool} {name : String} {bound : TypeRef}
    (hname : name = upperWildcard ∨ name = lowerWildcard) (h : Shaped inList bound) :
    Piece.readTree (tree (bounded name bound)) =
      (Piece.readTree (tree bound)).map (bounded name) := by
  have htrim := (Shaped.bounded hname h).solid.trim_eq
  rw [tree_bounded hname] at htrim ⊢
  have hread : ∀ keyword : List Piece, Piece.trimStart keyword = keyword → keyword ≠ [] →
      name.toList.map .char ++ .char ' ' :: tree bound = .char '?' :: .char ' ' :: keyword →
      Piece.bound? keyword = some (name, .char ' ' :: tree bound) →
      Piece.readTree (name.toList.map .char ++ .char ' ' :: tree bound) =
        (Piece.readTree (tree bound)).map (bounded name) := by
    intro keyword hstart hne hsplit hbound
    have hblank : Piece.trimStart (.char ' ' :: keyword) = keyword := by
      rw [Piece.trimStart, List.dropWhile_cons, if_pos (by decide)]
      exact hstart
    rw [Piece.readTree_wildcard (htrim.trans hsplit), hblank, hbound, if_neg (by simpa using hne)]
    dsimp only
    rw [Piece.readTree_blank (by decide)]
  rcases hname with rfl | rfl
  · exact hread _ rfl (by simp) rfl (Piece.bound?_upper (tree bound))
  · exact hread _ rfl (by simp) rfl (Piece.bound?_lower (tree bound))

theorem arguments_chars (cs : List Char) : Piece.arguments (cs.map .char) = .ok [] := by
  have hnil : (cs.map Piece.char).dropWhile Piece.isChar = [] := by
    have h := Piece.dropWhile_chars cs []
    rwa [List.append_nil, List.dropWhile_nil] at h
  rw [Piece.arguments, hnil]

/-- A name without arguments is read back if it does not end with a mark. -/
theorem readTree_chars {inList : Bool} {name : String} (hname : IsName inList name.toList)
    (nullable : Bool) (dimensions : Nat) :
    (Piece.arguments (Piece.takeMarks (name.toList.map .char ++
        Piece.marks dimensions nullable)).core >>= List.mapM Piece.readTree) >>=
          Piece.named (Piece.takeMarks (name.toList.map .char ++ Piece.marks dimensions nullable)) =
        .ok ⟨name, nullable, dimensions, []⟩ ↔ ¬ EndsInMark name.toList := by
  have hsolid := Piece.solid_chars hname
  by_cases hmark : EndsInMark name.toList
  · refine iff_of_false (fun h => ?_) (not_not.2 hmark)
    obtain ⟨params, -, hnamed⟩ := exists_of_bind_eq_ok h
    have hname : name.toList.length ≤ _ := Piece.length_name_le hnamed
    have hcore := Piece.length_takeMarks_lt hsolid (Piece.endsMarked_chars.2 hmark) dimensions
      nullable
    rw [List.length_map] at hcore
    omega
  · refine iff_of_true ?_ hmark
    rw [Piece.takeMarks_append hsolid fun h => hmark (Piece.endsMarked_chars.1 h), arguments_chars]
    have hnamed := Piece.named_chars hname [] rfl dimensions nullable []
    rwa [List.append_nil] at hnamed

/-- A name with arguments is read back if these are. -/
theorem readTree_list {inList : Bool} {name : String} (hname : IsName inList name.toList)
    (nullable : Bool) (dimensions : Nat) {params : List TypeRef} (hne : params ≠ [])
    (hparams : ∀ p ∈ params, Shaped true p) :
    (Piece.arguments (Piece.takeMarks ((name.toList.map .char ++
        [.list (Piece.joined (params.map tree))]) ++ Piece.marks dimensions nullable)).core >>=
          List.mapM Piece.readTree) >>= Piece.named (Piece.takeMarks ((name.toList.map .char ++
            [.list (Piece.joined (params.map tree))]) ++ Piece.marks dimensions nullable)) =
        .ok ⟨name, nullable, dimensions, params⟩ ↔
      ∀ p ∈ params, Piece.readTree (tree p) = .ok p := by
  have hsolid : Piece.Solid
      (name.toList.map .char ++ [.list (Piece.joined (params.map tree))]) :=
    (Piece.solid_chars hname).append (by simp [Piece.isBlank])
  have hmark : ¬ Piece.EndsMarked
      (name.toList.map .char ++ [.list (Piece.joined (params.map tree))]) := by
    rintro (⟨front, hfront⟩ | ⟨front, hfront⟩)
    all_goals
      have hlast := congrArg List.getLast? hfront
      rw [List.getLast?_concat, List.getLast?_append] at hlast
      cases hlast
  have hcomma : ∀ q ∈ params.map tree, ∀ p ∈ q, p.is ',' = false := by
    intro q hq
    obtain ⟨p, hp, rfl⟩ := List.mem_map.1 hq
    exact (hparams p hp).noComma
  have hsegments := Piece.mapM_segments_joined (List.map_eq_nil_iff.not.2 hne) hcomma
  have harguments : Piece.arguments
      (name.toList.map .char ++ [.list (Piece.joined (params.map tree))]) =
        .ok (Piece.segments (Piece.joined (params.map tree))) := by
    rw [Piece.arguments, Piece.dropWhile_chars]
    rfl
  rw [Piece.takeMarks_append hsolid hmark, harguments, ← forall_of_mapM_map]
  simp only [bind, Except.bind, hsegments]
  cases (params.map tree).mapM Piece.readTree with
  | error e => simp
  | ok read => simp [Piece.named_chars hname [.list _] rfl]

theorem readTree_named {inList : Bool} {name : String} (hname : IsName inList name.toList)
    {nullable : Bool} {dimensions : Nat} {params : List TypeRef}
    (hparams : ∀ p ∈ params, Shaped true p) :
    Piece.readTree (tree ⟨name, nullable, dimensions, params⟩) =
        .ok ⟨name, nullable, dimensions, params⟩ ↔
      (params = [] → ¬ EndsInMark name.toList) ∧
        ∀ p ∈ params, Piece.readTree (tree p) = .ok p := by
  have htrim := (Shaped.named nullable dimensions hname hparams).solid.trim_eq
  have hplain : ∀ rest, Piece.trim (tree ⟨name, nullable, dimensions, params⟩) ≠
      .char '?' :: rest := by
    intro rest heq
    rw [htrim, tree_named hname] at heq
    obtain ⟨c, cs, hcs⟩ := List.exists_cons_of_ne_nil hname.nonempty
    rw [hcs, List.map_cons, List.cons_append, List.cons.injEq, Piece.char.injEq] at heq
    exact hname.noWildcard (by rw [hcs, heq.1]; rfl)
  rw [Piece.readTree_plain hplain, htrim, tree_named hname]
  cases params with
  | nil =>
      have h := readTree_chars hname nullable dimensions
      simpa using h
  | cons p ps =>
      have h := readTree_list hname nullable dimensions (List.cons_ne_nil p ps) hparams
      rw [List.append_assoc] at h
      simpa using h

/-- A type is read back from its text if and only if each type in it keeps its marks apart from
its name. -/
theorem readTree_tree {inList : Bool} {t : TypeRef} (h : Shaped inList t) :
    Piece.readTree (tree t) = .ok t ↔ ∀ u ∈ t.occurrences, MarksApart u := by
  induction h with
  | any inList nullable dimensions =>
      rw [readTree_any, forall_occurrences]
      constructor
      · exact fun h => ⟨⟨fun _ => h, fun hne => absurd rfl hne⟩, by simp⟩
      · exact fun h => h.1.wildcard rfl
  | @bounded inList name bound hname hbound ih =>
      have hne : name ≠ anyWildcard := by
        rcases hname with rfl | rfl <;> decide
      have hread : (Piece.readTree (tree bound)).map (bounded name) = .ok (bounded name bound) ↔
          Piece.readTree (tree bound) = .ok bound := by
        cases Piece.readTree (tree bound) <;> simp [Except.map, bounded]
      rw [readTree_bounded hname hbound, forall_occurrences, hread, ih]
      constructor
      · refine fun h => ⟨⟨fun hany => absurd hany hne, fun _ hnil => ?_⟩, ?_⟩
        · cases hnil
        · simpa [bounded] using h
      · exact fun h => h.2 bound (by simp [bounded])
  | @named inList name params nullable dimensions hname hparams ih =>
      have hne : name ≠ anyWildcard := by
        rintro rfl
        exact hname.noWildcard (by decide)
      rw [readTree_named hname hparams, forall_occurrences]
      refine and_congr ⟨fun h => ⟨fun hany => absurd hany hne, fun _ => h⟩, fun h => h.name hne⟩ ?_
      exact forall₂_congr fun p hp => ih p hp

/-! ## What a type is read as -/

namespace Piece

theorem map_char_texts {ps : List Piece} (h : ∀ p ∈ ps, p.isChar = true) :
    (texts ps).map .char = ps := by
  induction ps with
  | nil => rw [texts, List.map_nil]
  | cons p ps ih =>
      cases p with
      | char c => rw [texts, List.map_cons, ih fun p hp => h p (by simp [hp])]
      | list inner => exact absurd (h (.list inner) (by simp)) Bool.false_ne_true

theorem prefix_trimEnd (ps : List Piece) : trimEnd ps <+: ps := List.rdropWhile_prefix _ _

theorem prefix_takeMark (ps : List Piece) : (takeMark ps).1 <+: ps := by
  unfold takeMark
  split
  · exact (prefix_trimEnd _).trans (List.dropLast_prefix ps)
  · exact List.prefix_refl ps

theorem prefix_takeArrays (ps : List Piece) : (takeArrays ps).1 <+: ps := by
  fun_induction takeArrays ps with
  | case1 ps h taken ih =>
      exact ih.trans ((prefix_trimEnd _).trans
        ((List.dropLast_prefix _).trans (List.dropLast_prefix ps)))
  | case2 ps => exact List.prefix_refl ps

theorem prefix_takeMarks (ps : List Piece) : (takeMarks ps).core <+: ps :=
  (prefix_takeMark _).trans ((prefix_takeArrays _).trans (prefix_takeMark ps))

theorem mem_head?_of_prefix {ps qs : List Piece} (h : ps <+: qs) {p : Piece}
    (hp : p ∈ ps.head?) : p ∈ qs.head? := by
  obtain ⟨rest, rfl⟩ := h
  cases ps with
  | nil => cases hp
  | cons q ps => exact hp

theorem not_isBlank_head?_trim (ps : List Piece) : ∀ p ∈ (trim ps).head?, p.isBlank = false := by
  intro p hp
  have hstart : (trimStart ps).head? = some p := mem_head?_of_prefix (prefix_trimEnd _) hp
  have hblank := List.head?_dropWhile_not isBlank ps
  rw [trimStart] at hstart
  rwa [hstart] at hblank

theorem not_isBlank_getLast?_trimEnd (ps : List Piece) :
    ∀ p ∈ (trimEnd ps).getLast?, p.isBlank = false := by
  intro p hp
  obtain ⟨hne, rfl⟩ := List.mem_getLast?_eq_getLast hp
  exact Bool.not_eq_true _ ▸ List.rdropWhile_last_not isBlank ps hne

theorem mem_chars_of_mem {ps : List Piece} {c : Char} (h : .char c ∈ ps) : c ∈ chars ps := by
  obtain ⟨front, back, rfl⟩ := List.append_of_mem h
  simp [chars_append, chars]

/-- What is read as a name is one. -/
theorem isName_of_named {inList : Bool} {ps : List Piece} (hproper : Proper ps)
    (hmark : '#' ∉ chars ps) (hcomma : inList = true → ∀ p ∈ ps, p.is ',' = false)
    (hplain : ∀ rest, trim ps ≠ .char '?' :: rest) {params : List TypeRef} {t : TypeRef}
    (h : named (takeMarks (trim ps)) params = .ok t) :
    IsName inList t.name.toList ∧ t.params = params := by
  unfold named at h
  dsimp only at h
  split at h
  · cases h
  · rename_i hne
    cases h
    rw [String.toList_ofList]
    refine ⟨?_, rfl⟩
    have hbeginning : trimEnd ((takeMarks (trim ps)).core.takeWhile isChar) <+: trim ps :=
      ((prefix_trimEnd _).trans (List.takeWhile_prefix _)).trans (prefix_takeMarks _)
    have hchars : ∀ p ∈ trimEnd ((takeMarks (trim ps)).core.takeWhile isChar), p.isChar = true :=
      fun p hp => List.mem_takeWhile_imp ((prefix_trimEnd _).mem hp)
    have hlast := not_isBlank_getLast?_trimEnd ((takeMarks (trim ps)).core.takeWhile isChar)
    rw [List.isEmpty_iff] at hne
    generalize trimEnd ((takeMarks (trim ps)).core.takeWhile isChar) = name at *
    obtain ⟨cs, rfl⟩ : ∃ cs : List Char, name = cs.map Piece.char := ⟨_, (map_char_texts hchars).symm⟩
    have hmem : ∀ c ∈ cs, .char c ∈ ps := fun c hc =>
      (isCore_trim ps).isInfix.mem (hbeginning.mem (List.mem_map_of_mem hc))
    have hfirst : ∀ c ∈ cs.head?, .char c ∈ (trim ps).head? := fun c hc =>
      mem_head?_of_prefix hbeginning (by rw [List.head?_map, Option.mem_def.1 hc]; rfl)
    rw [texts_map_char]
    exact {
      nonempty := by
        rintro rfl
        exact hne rfl
      first := fun c hc => not_isBlank_head?_trim ps _ (hfirst c hc)
      last := fun c hc => hlast (.char c) (by rw [List.getLast?_map, Option.mem_def.1 hc]; rfl)
      plain := fun c hc => by
        have hc := mem_chars_of_mem (hmem c hc)
        exact ⟨fun h => hmark (h ▸ hc), hproper c hc⟩
      noWildcard := fun hc => by
        obtain ⟨rest, hrest⟩ := List.head?_eq_some_iff.1 (hfirst '?' hc)
        exact hplain rest hrest
      noComma := fun hin hc => by simpa [is] using hcomma hin _ (hmem ',' hc) }

theorem noComma_of_mem_segments {ps q : List Piece} (h : q ∈ segments ps) :
    ∀ p ∈ q, p.is ',' = false := by
  induction ps generalizing q with
  | nil =>
      rw [segments, List.mem_singleton] at h
      simp [h]
  | cons p ps ih =>
      cases hp : p.is ',' with
      | true =>
          rw [segments_comma hp] at h
          rcases List.mem_cons.1 h with rfl | h
          · simp
          · exact ih h
      | false =>
          obtain ⟨q', qs, hqs, heq⟩ := segments_cons hp ps
          rw [heq] at h
          rw [hqs] at ih
          rcases List.mem_cons.1 h with rfl | h
          · exact List.forall_mem_cons.2 ⟨hp, ih (List.mem_cons_self ..)⟩
          · exact ih (List.mem_cons_of_mem _ h)

theorem exists_of_mem_mapM {qs : List (List Piece)} {ts : List TypeRef}
    (h : qs.mapM readTree = .ok ts) {t : TypeRef} (ht : t ∈ ts) : ∃ q ∈ qs, readTree q = .ok t := by
  induction qs generalizing ts with
  | nil =>
      cases h
      cases ht
  | cons q qs ih =>
      rw [List.mapM_cons] at h
      obtain ⟨t', ht', h⟩ := exists_of_bind_eq_ok h
      obtain ⟨ts', hts', h⟩ := exists_of_bind_eq_ok h
      cases h
      rcases List.mem_cons.1 ht with rfl | ht
      · exact ⟨q, by simp, ht'⟩
      · obtain ⟨q', hq', hread⟩ := ih hts' ht
        exact ⟨q', by simp [hq'], hread⟩

theorem name_of_bound? {ps target : List Piece} {name : String}
    (h : bound? ps = some (name, target)) : name = upperWildcard ∨ name = lowerWildcard := by
  rcases Option.or_eq_some_iff.1 h with h | ⟨-, h⟩
  · obtain ⟨rest, -, heq⟩ := Option.map_eq_some_iff.1 h
    cases heq
    exact .inl rfl
  · obtain ⟨rest, -, heq⟩ := Option.map_eq_some_iff.1 h
    cases heq
    exact .inr rfl

theorem exists_of_mem_arguments {core q : List Piece} {args : List (List Piece)}
    (h : arguments core = .ok args) (hq : q ∈ args) :
    ∃ inner, core.dropWhile isChar = [.list inner] ∧ q ∈ segments inner := by
  unfold arguments at h
  split at h
  · cases h
    cases hq
  · rename_i inner hcore
    cases h
    exact ⟨inner, hcore, hq⟩
  · cases h

/-- A type that is read is made of names and wildcards, and a wildcard without a bound has no
marks. -/
theorem shaped_of_readTree (inList : Bool) {ps : List Piece} (hproper : Proper ps)
    (hmark : '#' ∉ chars ps) (hcomma : inList = true → ∀ p ∈ ps, p.is ',' = false) {t : TypeRef}
    (h : readTree ps = .ok t) :
    Shaped inList t ∧
      ∀ u ∈ t.occurrences, u.name = anyWildcard → u.nullable = false ∧ u.dimensions = 0 := by
  induction hlen : (texts ps).length using Nat.strong_induction_on generalizing ps inList t with
  | _ len ih =>
  subst hlen
  by_cases hwild : ∃ rest, trim ps = .char '?' :: rest
  · obtain ⟨rest, hrest⟩ := hwild
    rw [readTree_wildcard hrest] at h
    split at h
    · cases h
      exact ⟨.any inList false 0, forall_occurrences.2 ⟨fun _ => ⟨rfl, rfl⟩, by simp [simple]⟩⟩
    · split at h
      · rename_i name target hbound
        obtain ⟨bound, hread, rfl⟩ := exists_of_map_eq_ok h
        have htarget : target <:+: ps := ((isCore_bound? hbound).trans
          (((isCore_trimStart rest).trans (IsCore.tail rfl rest)).trans
            (hrest ▸ isCore_trim ps))).isInfix
        obtain ⟨hshaped, hbare⟩ := ih _ (length_bound_lt hrest hbound) inList
          (fun c hc => hproper c (mem_chars_of_isInfix htarget hc))
          (fun h => hmark (mem_chars_of_isInfix htarget h))
          (fun hin p hp => hcomma hin p (htarget.mem hp)) hread rfl
        refine ⟨.bounded (name_of_bound? hbound) hshaped, forall_occurrences.2 ⟨fun _ => ⟨rfl, rfl⟩, ?_⟩⟩
        simpa [bounded] using hbare
      · cases h
  · have hplain : ∀ rest, trim ps ≠ .char '?' :: rest := fun rest h => hwild ⟨rest, h⟩
    rw [readTree_plain hplain] at h
    obtain ⟨params, hparams, hnamed⟩ := exists_of_bind_eq_ok h
    obtain ⟨args, hargs, hparams⟩ := exists_of_bind_eq_ok hparams
    obtain ⟨hname, hparamsEq⟩ := isName_of_named hproper hmark hcomma hplain hnamed
    have hread : ∀ p ∈ params, Shaped true p ∧
        ∀ u ∈ p.occurrences, u.name = anyWildcard → u.nullable = false ∧ u.dimensions = 0 := by
      intro p hp
      obtain ⟨q, hq, hread⟩ := exists_of_mem_mapM hparams hp
      have hcore : IsCore (takeMarks (trim ps)).core ps :=
        (isCore_takeMarks _).trans (isCore_trim ps)
      obtain ⟨inner, hlist, hsegment⟩ := exists_of_mem_arguments hargs hq
      have hinside : ∀ c ∈ chars q, c ∈ chars ps := fun c hc =>
        mem_chars_of_isInfix hcore.isInfix
          (mem_chars_inner hlist (mem_chars_of_isInfix (infix_of_mem_segments hsegment) hc))
      exact ih _ (lt_of_lt_of_le (length_lt_of_arguments hargs hq) hcore.length_le) true
        (fun c hc => hproper c (hinside c hc)) (fun h => hmark (hinside _ h))
        (fun _ => noComma_of_mem_segments hsegment) hread rfl
    obtain ⟨name, nullable, dimensions, params'⟩ := t
    obtain rfl : params' = params := hparamsEq
    refine ⟨.named nullable dimensions hname fun p hp => (hread p hp).1, forall_occurrences.2
      ⟨fun hany => ?_, fun p hp => (hread p hp).2⟩⟩
    obtain rfl : name = anyWildcard := hany
    exact absurd (show anyWildcard.toList.head? = some '?' by decide) hname.noWildcard

end Piece

/-! ## Printing and reading -/

theorem parse_text {inList : Bool} {t : TypeRef} (h : Shaped inList t) :
    parse t.text = .ok t ↔ ∀ u ∈ t.occurrences, MarksApart u := by
  have hmark : '#' ∉ Piece.chars (tree t) := fun hc => (h.plain _ hc).1 rfl
  rw [← readTree_tree h, parse, ← texts_tree, Piece.trim_texts, h.solid.trim_eq,
    Piece.parseChars_texts h.proper hmark h.undigited]
  cases Piece.readTree (tree t) <;> simp [Except.mapError]

/-- A type that can be written: its name is not empty, has no white space at its ends, none of
the characters `#`, `<`, `>` and `,`, does not start with a question mark and does not end with a
mark, or it is a wildcard without arguments, or one with a bound and without marks. -/
def Writable (t : TypeRef) : Prop :=
  (IsName true t.name.toList ∧ ¬ EndsInMark t.name.toList) ∨
    (t.name = anyWildcard ∧ t.params = []) ∨
    ((t.name = upperWildcard ∨ t.name = lowerWildcard) ∧ t.params.length = 1 ∧
      t.nullable = false ∧ t.dimensions = 0)

instance (t : TypeRef) : Decidable (Writable t) :=
  inferInstanceAs (Decidable ((IsName true t.name.toList ∧ ¬ EndsInMark t.name.toList) ∨
    (t.name = anyWildcard ∧ t.params = []) ∨
    ((t.name = upperWildcard ∨ t.name = lowerWildcard) ∧ t.params.length = 1 ∧
      t.nullable = false ∧ t.dimensions = 0)))

theorem shaped_of_writable : (t : TypeRef) → (∀ u ∈ t.occurrences, Writable u) → Shaped true t
  | ⟨name, nullable, dimensions, params⟩, h => by
    obtain ⟨hself, hparams⟩ := forall_occurrences.1 h
    have hshaped : ∀ p ∈ params, Shaped true p := fun p hp => shaped_of_writable p (hparams p hp)
    rcases hself with ⟨hname, -⟩ | ⟨hname, hnil⟩ | ⟨hname, hone, hnullable, hdimensions⟩
    · exact .named nullable dimensions hname hshaped
    · dsimp only at hname hnil
      subst hname hnil
      exact .any true nullable dimensions
    · obtain ⟨bound, hbound⟩ := List.length_eq_one_iff.1 hone
      dsimp only at hname hbound hnullable hdimensions
      subst hbound hnullable hdimensions
      exact .bounded hname (hshaped bound (by simp))
termination_by t => sizeOf t
decreasing_by
  have := List.sizeOf_lt_of_mem hp
  simp only [TypeRef.mk.sizeOf_spec]
  omega

/-- A written type is read back if and only if its wildcards without bounds have no marks. -/
theorem parse_text_iff_of_writable {t : TypeRef} (h : ∀ u ∈ t.occurrences, Writable u) :
    parse t.text = .ok t ↔
      ∀ u ∈ t.occurrences, u.name = anyWildcard → u.nullable = false ∧ u.dimensions = 0 := by
  rw [parse_text (shaped_of_writable t h)]
  refine forall₂_congr fun u hu => ⟨fun h => h.wildcard, fun hwild => ⟨hwild, fun hne hnil => ?_⟩⟩
  rcases h u hu with ⟨-, hname⟩ | ⟨hany, -⟩ | ⟨-, hone, -⟩
  · exact hname
  · exact absurd hany hne
  · rw [hnil] at hone
    cases hone

/-- An array of maps that may be missing, with a wildcard whose bound holds a wildcard itself. -/
theorem parse_text_nested :
    (∀ u ∈ occurrences ⟨"Map", true, 1, [simple "K",
      bounded upperWildcard ⟨"List", false, 2, [simple anyWildcard]⟩]⟩, Writable u) ∧
      parse (text ⟨"Map", true, 1, [simple "K",
        bounded upperWildcard ⟨"List", false, 2, [simple anyWildcard]⟩]⟩) =
          .ok ⟨"Map", true, 1, [simple "K",
            bounded upperWildcard ⟨"List", false, 2, [simple anyWildcard]⟩]⟩ := by
  have h : ∀ u ∈ occurrences ⟨"Map", true, 1, [simple "K",
      bounded upperWildcard ⟨"List", false, 2, [simple anyWildcard]⟩]⟩, Writable u := by
    decide +kernel
  exact ⟨h, (parse_text_iff_of_writable h).2 (by decide +kernel)⟩

/-- A wildcard with a mark is not read back. -/
theorem not_parse_text_wildcard :
    ¬ ∀ t : TypeRef, (∀ u ∈ t.occurrences, Writable u) → parse t.text = .ok t := by
  intro h
  exact absurd (h ⟨anyWildcard, true, 0, []⟩ (by decide +kernel)) (by decide +kernel)

/-- A type that was read is read back from its text if and only if no name without arguments in
it, the wildcard apart, ends with a mark. -/
theorem parse_text_iff_of_parse {text : String} {t : TypeRef} (h : parse text = .ok t) :
    parse t.text = .ok t ↔ ∀ u ∈ t.occurrences, u.params = [] → u.name ≠ anyWildcard →
      ¬ EndsInMark u.name.toList := by
  have hread : parseChars (Text.trim text.toList) = .ok t := by
    rw [parse] at h
    cases hchars : parseChars (Text.trim text.toList) with
    | error e =>
        rw [hchars] at h
        cases h
    | ok t' =>
        rw [hchars] at h
        cases h
        rfl
  obtain ⟨ps, hproper, hmark, htree⟩ := exists_readTree_of_parseChars hread
  obtain ⟨hshaped, hbare⟩ := Piece.shaped_of_readTree false hproper hmark
    (fun hfalse => absurd hfalse Bool.false_ne_true) htree
  rw [parse_text hshaped]
  exact forall₂_congr fun u hu =>
    ⟨fun h hnil hne => h.name hne hnil, fun h => ⟨hbare u hu, fun hne hnil => h hnil hne⟩⟩

/-- A name with a question mark is read back if arguments stand behind it. -/
theorem parse_text_arguments :
    parse "a?<b>?[]" = .ok ⟨"a?", true, 1, [simple "b"]⟩ ∧
      parse (text ⟨"a?", true, 1, [simple "b"]⟩) = .ok ⟨"a?", true, 1, [simple "b"]⟩ := by
  have h : parse "a?<b>?[]" = .ok ⟨"a?", true, 1, [simple "b"]⟩ := by decide +kernel
  exact ⟨h, (parse_text_iff_of_parse h).2 (by decide +kernel)⟩

/-- A name that ends with a question mark is not read back. -/
theorem not_parse_text_marks :
    ¬ ∀ (text : String) (t : TypeRef), parse text = .ok t → parse t.text = .ok t := by
  intro h
  exact absurd (h "a???" ⟨"a?", true, 0, []⟩ (by decide +kernel)) (by decide +kernel)

end Outline.TypeRef
