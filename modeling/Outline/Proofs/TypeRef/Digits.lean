import Outline.Proofs.TypeRef.OwnLists

/-!
# Digits directly behind brackets

A text with balanced brackets is one without digits directly behind its closing brackets, into
which digits are put at these places.  These digits have to be zeros behind the first closing
bracket for the text to be read at all, and such zeros are passed over.

* `unpadded` — a text without the zeros directly behind its first closing bracket.
* `Piece.exists_padded` — how digits are put in.
* `parse_eq_readTree` — what each text with balanced brackets is read as.
-/

namespace Outline.TypeRef

namespace Piece

variable {pad : Nat → List Char}

/-! ## Digits directly behind brackets -/

theorem padded_congr (pad' : Nat → List Char) {n : Nat} {ps : List Piece}
    (h : ∀ k, n ≤ k → k < n + count ps → pad k = pad' k) : padded pad n ps = padded pad' n ps := by
  induction ps using texts.induct generalizing n with
  | case1 => rw [padded, padded]
  | case2 c ps ih => rw [padded, padded, ih fun k hk hlt => h k hk (by rwa [count])]
  | case3 inner ps ihinner ih =>
      rw [count] at h
      rw [padded, padded, ihinner fun k hk hlt => h k hk (by omega),
        ih fun k hk hlt => h k (by omega) (by omega), h (n + count inner) (by omega) (by omega)]

theorem padded_chars {n : Nat} {front : List Piece} (h : ∀ p ∈ front, p.isChar = true)
    (ps : List Piece) : padded pad n (front ++ ps) = texts front ++ padded pad n ps := by
  induction front with
  | nil => rw [texts, List.nil_append, List.nil_append]
  | cons p front ih =>
      cases p with
      | char c =>
          rw [List.cons_append, padded, texts, ih fun p hp => h p (by simp [hp]), List.cons_append]
      | list inner => exact absurd (h (.list inner) (by simp)) Bool.false_ne_true

theorem undigited_char {c : Char} (hc : c ≠ '>') {ps : List Piece} (h : Undigited (texts ps)) :
    Undigited (texts (.char c :: ps)) := by
  rw [texts]
  exact List.IsChain.cons h fun d _ hclose => absurd hclose hc

theorem undigited_list {inner ps : List Piece} (hinner : Undigited (texts inner))
    (h : Undigited (texts ps)) (hhead : ∀ c ∈ (texts ps).head?, c.isDigit = false) :
    Undigited (texts (.list inner :: ps)) := by
  have hclose : Undigited ('>' :: texts ps) := List.IsChain.cons h fun c hc _ => hhead c hc
  rw [texts]
  refine List.IsChain.cons (List.isChain_append.2 ⟨hinner, hclose, ?_⟩) ?_
  · intro c _ d hd _
    cases hd
    rfl
  · intro c _ hopen
    exact absurd hopen (by decide)

/-- Whether the piece is a decimal digit. -/
def isDigit : Piece → Bool
  | char c => c.isDigit
  | list _ => false

theorem isDigit_of_mem_texts {ps : List Piece} (h : ∀ p ∈ ps, p.isDigit = true) {c : Char}
    (hc : c ∈ texts ps) : c.isDigit = true := by
  induction ps with
  | nil => simp [texts] at hc
  | cons p ps ih =>
      cases p with
      | char d =>
          rw [texts, List.mem_cons] at hc
          rcases hc with rfl | hc
          · exact h (.char c) (by simp)
          · exact ih (fun p hp => h p (by simp [hp])) hc
      | list inner => exact absurd (h (.list inner) (by simp)) Bool.false_ne_true

theorem head?_texts_dropWhile (ps : List Piece) :
    ∀ c ∈ (texts (ps.dropWhile isDigit)).head?, c.isDigit = false := by
  intro c hc
  cases hps : ps.dropWhile isDigit with
  | nil => simp [hps, texts] at hc
  | cons p qs =>
      have hp := List.head_dropWhile_not isDigit (l := ps) (by simp [hps])
      simp only [hps, List.head_cons] at hp
      rw [hps] at hc
      cases p with
      | char d =>
          obtain rfl : d = c := by simpa [texts] using hc
          exact hp
      | list inner =>
          obtain rfl : '<' = c := by simpa [texts] using hc
          rfl

/-- A text is one without digits directly behind its closing brackets, into which digits are put
at these places. -/
theorem exists_padded {ps : List Piece} (hproper : Proper ps) (n : Nat) :
    ∃ pad qs, (∀ k, ∀ c ∈ pad k, c.isDigit = true) ∧ Undigited (texts qs) ∧
      padded pad n qs = texts ps ∧ ∀ c ∈ chars qs, c ∈ chars ps := by
  induction ps using texts.induct generalizing n with
  | case1 =>
      exact ⟨fun _ => [], [], by simp, by simp [Undigited, texts], by simp [padded, texts], by simp⟩
  | case2 c ps ih =>
      obtain ⟨pad, qs, hpad, hdigits, htexts, hchars⟩ :=
        ih (fun c hc => hproper c (by simp [chars, hc])) n
      have hc := (hproper c (by simp [chars])).2
      refine ⟨pad, .char c :: qs, hpad, undigited_char hc hdigits, ?_, ?_⟩
      · rw [padded, htexts, texts]
      · simp only [chars, List.mem_cons]
        exact fun d hd => hd.imp_right (hchars d)
  | case3 inner ps ihinner ih =>
      obtain ⟨padInner, inner', hpadInner, hdigitsInner, htextsInner, hcharsInner⟩ :=
        ihinner (fun c hc => hproper c (by simp [chars, hc])) n
      obtain ⟨pad, qs, hpad, hdigits, htexts, hchars⟩ :=
        ih (fun c hc => hproper c (by simp [chars, hc])) (n + count inner' + 1)
      have hfront : ∀ p ∈ qs.takeWhile isDigit, p.isChar = true := by
        intro p hp
        have hp := List.mem_takeWhile_imp hp
        cases p with
        | char c => rfl
        | list inner => exact absurd hp Bool.false_ne_true
      have hsplit : qs.takeWhile isDigit ++ qs.dropWhile isDigit = qs :=
        List.takeWhile_append_dropWhile
      refine ⟨fun k => if k < n + count inner' then padInner k
        else if k = n + count inner' then texts (qs.takeWhile isDigit) else pad k,
        .list inner' :: qs.dropWhile isDigit, ?_, ?_, ?_, ?_⟩
      · intro k c hc
        dsimp only at hc
        split at hc
        · exact hpadInner k c hc
        · split at hc
          · exact isDigit_of_mem_texts (fun p hp => List.mem_takeWhile_imp hp) hc
          · exact hpad k c hc
      · exact undigited_list hdigitsInner
          (undigited_of_isInfix hdigits (List.dropWhile_suffix _).isInfix) (head?_texts_dropWhile qs)
      · rw [padded, texts, if_neg (by omega), if_pos rfl, ← htexts, ← htextsInner]
        rw [padded_congr padInner fun k hk hlt => if_pos hlt]
        rw [padded_congr (n := n + count inner' + 1) pad fun k hk hlt => by
          rw [if_neg (by omega), if_neg (by omega)]]
        rw [← padded_chars hfront, hsplit]
      · intro c hc
        rw [chars, List.mem_append] at hc ⊢
        exact hc.imp (hcharsInner c) fun hc =>
          hchars c (mem_chars_of_isInfix (List.dropWhile_suffix _).isInfix hc)

/-- No digits were put in if none stand directly behind a closing bracket. -/
theorem eq_nil_of_undigited (hpad : ∀ k, ∀ c ∈ pad k, c.isDigit = true) {n : Nat} {ps : List Piece}
    (h : Undigited (padded pad n ps)) : ∀ k, n ≤ k → k < n + count ps → pad k = [] := by
  induction ps using texts.induct generalizing n with
  | case1 => exact fun k hk hlt => by rw [count] at hlt; omega
  | case2 c ps ih =>
      rw [padded] at h
      rw [count]
      exact ih (Undigited.inside h (List.suffix_cons _ _).isInfix)
  | case3 inner ps ihinner ih =>
      rw [padded] at h
      rw [count]
      intro k hk hlt
      rcases Nat.lt_trichotomy k (n + count inner) with hinner | rfl | hrest
      · exact ihinner (Undigited.inside h ⟨['<'], _, by rw [List.append_assoc]; rfl⟩) k hk hinner
      · cases hdigits : pad (n + count inner) with
        | nil => rfl
        | cons c cs =>
            have hclose : Undigited ('>' :: c :: (cs ++ padded pad (n + count inner + 1) ps)) :=
              Undigited.inside h ⟨'<' :: padded pad n inner, [], by simp [hdigits]⟩
            have hc := (List.isChain_cons_cons.1 hclose).1 rfl
            rw [hpad _ c (by rw [hdigits]; simp)] at hc
            cases hc
      · exact ih (Undigited.inside h ⟨'<' :: (padded pad n inner ++ '>' :: pad (n + count inner)),
          [], by simp⟩) k hrest (by omega)

end Piece

/-- The text without the zeros directly behind its first closing angle bracket. -/
def unpadded : List Char → List Char
  | [] => []
  | c :: cs => if c = '>' then c :: cs.dropWhile (· == '0') else c :: unpadded cs

theorem unpadded_append_of_not_mem {front : List Char} (h : '>' ∉ front) (cs : List Char) :
    unpadded (front ++ cs) = front ++ unpadded cs := by
  induction front with
  | nil => rfl
  | cons c front ih =>
      rw [List.mem_cons, not_or] at h
      rw [List.cons_append, unpadded, if_neg (Ne.symm h.1), ih h.2, List.cons_append]

theorem dropWhile_append_cons {c : Char} (hc : c ≠ '0') (front cs : List Char) :
    (front ++ c :: cs).dropWhile (· == '0') = front.dropWhile (· == '0') ++ c :: cs := by
  induction front with
  | nil => simp [hc]
  | cons d front ih =>
      rw [List.cons_append, List.dropWhile_cons, List.dropWhile_cons]
      split
      · exact ih
      · rw [List.cons_append]

theorem unpadded_append_of_mem {front : List Char} (h : '>' ∈ front) {c : Char} (hc : c ≠ '0')
    (cs : List Char) : unpadded (front ++ c :: cs) = unpadded front ++ c :: cs := by
  induction front with
  | nil => simp at h
  | cons d front ih =>
      rw [List.cons_append, unpadded, unpadded]
      split
      · rw [dropWhile_append_cons hc, List.cons_append]
      · rename_i hd
        rw [ih ((List.mem_cons.1 h).resolve_left (Ne.symm hd)), List.cons_append]

/-- A text without digits directly behind its closing brackets has no such zeros. -/
theorem unpadded_of_undigited {cs : List Char} (h : Undigited cs) : unpadded cs = cs := by
  induction cs with
  | nil => rfl
  | cons c cs ih =>
      rw [unpadded]
      split
      · rename_i hclose
        cases cs with
        | nil => rfl
        | cons d cs =>
            have hd := (List.isChain_cons_cons.1 h).1 hclose
            have hzero : (d == '0') = false := by
              rw [beq_eq_false_iff_ne]
              rintro rfl
              exact absurd hd (by decide)
            rw [List.dropWhile_cons, hzero, if_neg Bool.false_ne_true]
      · rw [ih (Undigited.inside h (List.suffix_cons _ _).isInfix)]

namespace Piece

/-- The digits behind the lists without the zeros directly behind the first of them. -/
def unzeroed (pad : Nat → List Char) : Nat → List Char
  | 0 => (pad 0).dropWhile (· == '0')
  | k + 1 => pad (k + 1)

theorem mem_padded_of_count {n : Nat} {ps : List Piece} (h : count ps ≠ 0) :
    '>' ∈ padded pad n ps := by
  induction ps using texts.induct generalizing n with
  | case1 => exact absurd (by rw [count]) h
  | case2 c ps ih =>
      rw [padded]
      exact List.mem_cons_of_mem _ (ih (by rwa [count] at h))
  | case3 inner ps => simp [padded]

theorem not_mem_padded {n : Nat} {ps : List Piece} (hproper : Proper ps) (h : count ps = 0) :
    '>' ∉ padded pad n ps := by
  induction ps using texts.induct with
  | case1 => simp [padded]
  | case2 c ps ih =>
      rw [count] at h
      rw [padded, List.mem_cons, not_or]
      exact ⟨Ne.symm (hproper c (by simp [chars])).2,
        ih (fun c hc => hproper c (by simp [chars, hc])) h⟩
  | case3 inner ps => simp [count] at h

theorem dropWhile_pad {n : Nat} {ps : List Piece} (h : Undigited ('>' :: texts ps))
    (ds : List Char) :
    (ds ++ padded pad n ps).dropWhile (· == '0') = ds.dropWhile (· == '0') ++ padded pad n ps := by
  cases ps with
  | nil => rw [padded, List.append_nil, List.append_nil]
  | cons p ps =>
      cases p with
      | char c =>
          rw [texts] at h
          rw [padded, dropWhile_append_cons]
          rintro rfl
          exact absurd ((List.isChain_cons_cons.1 h).1 rfl) (by decide)
      | list inner => rw [padded, dropWhile_append_cons (by decide)]

/-- The first closing bracket is that of the list with the number zero. -/
theorem unpadded_padded {ps : List Piece} (hproper : Proper ps) (hdigits : Undigited (texts ps)) :
    unpadded (padded pad 0 ps) = padded (unzeroed pad) 0 ps := by
  have hlater : ∀ (n : Nat) (qs : List Piece),
      padded (unzeroed pad) (n + 1) qs = padded pad (n + 1) qs :=
    fun n qs => padded_congr _ fun k hk _ => by
      obtain ⟨j, rfl⟩ : ∃ j, k = j + 1 := ⟨k - 1, by omega⟩
      rfl
  induction ps using texts.induct with
  | case1 => rw [padded, padded, unpadded]
  | case2 c ps ih =>
      rw [padded, padded, unpadded, if_neg (hproper c (by simp [chars])).2,
        ih (fun c hc => hproper c (by simp [chars, hc]))
          (undigited_of_isInfix hdigits (List.suffix_cons _ _).isInfix)]
  | case3 inner ps ihinner ih =>
      have hproper' : Proper inner := fun c hc => hproper c (by simp [chars, hc])
      have hinner : Undigited (texts inner) := Undigited.inside hdigits
        ⟨['<'], '>' :: texts ps, by simp [texts]⟩
      have hclose : Undigited ('>' :: texts ps) := Undigited.inside hdigits
        ⟨'<' :: texts inner, [], by simp [texts]⟩
      rw [padded, padded, unpadded, if_neg (by decide), Nat.zero_add, hlater]
      by_cases hcount : count inner = 0
      · rw [unpadded_append_of_not_mem (not_mem_padded hproper' hcount), unpadded, if_pos rfl,
          dropWhile_pad hclose, hcount, padded_congr (unzeroed pad) fun k _ hlt => by omega]
        rfl
      · obtain ⟨j, hj⟩ : ∃ j, count inner = j + 1 := ⟨count inner - 1, by omega⟩
        rw [unpadded_append_of_mem (mem_padded_of_count hcount) (by decide),
          ihinner hproper' hinner, hj]
        rfl

theorem isDigit_unzeroed (hpad : ∀ k, ∀ c ∈ pad k, c.isDigit = true) :
    ∀ k, ∀ c ∈ unzeroed pad k, c.isDigit = true
  | 0, c, hc => hpad 0 c ((List.dropWhile_sublist _).mem hc)
  | k + 1, c, hc => hpad (k + 1) c hc

theorem unzeroed_eq_nil_iff {k : Nat} :
    unzeroed pad k = [] ↔ ∀ c ∈ pad k, k = 0 ∧ c = '0' := by
  cases k with
  | zero => simp [unzeroed, List.dropWhile_eq_nil_iff]
  | succ k => simp [unzeroed, List.eq_nil_iff_forall_not_mem]

theorem numbered_iff (hpad : ∀ k, ∀ c ∈ pad k, c.isDigit = true) {n : Nat} {ps : List Piece} :
    Numbered pad n ps ↔ ∀ k, n ≤ k → k < n + count ps → unzeroed pad k = [] := by
  simp only [Numbered, number?_toDigits_append (hpad _), unzeroed_eq_nil_iff]

/-- Digits behind lists are characters. -/
theorem exists_texts_padded (hpad : ∀ k, ∀ c ∈ pad k, c.isDigit = true) {ps : List Piece}
    (hproper : Proper ps) (n : Nat) : ∃ qs, Proper qs ∧ texts qs = padded pad n ps := by
  induction ps using texts.induct generalizing n with
  | case1 => exact ⟨[], hproper, by rw [texts, padded]⟩
  | case2 c ps ih =>
      obtain ⟨qs, hqs, htexts⟩ := ih (fun c hc => hproper c (by simp [chars, hc])) n
      refine ⟨.char c :: qs, ?_, by rw [texts, padded, htexts]⟩
      intro d hd
      rw [chars, List.mem_cons] at hd
      rcases hd with rfl | hd
      · exact hproper d (by simp [chars])
      · exact hqs d hd
  | case3 inner ps ihinner ih =>
      obtain ⟨inner', hinner', htextsInner⟩ :=
        ihinner (fun c hc => hproper c (by simp [chars, hc])) n
      obtain ⟨qs, hqs, htexts⟩ :=
        ih (fun c hc => hproper c (by simp [chars, hc])) (n + count inner + 1)
      refine ⟨.list inner' :: ((pad (n + count inner)).map .char ++ qs), ?_, ?_⟩
      · intro d hd
        rw [chars, chars_append, List.mem_append, List.mem_append, chars_map_char] at hd
        rcases hd with hd | hd | hd
        · exact hinner' d hd
        · constructor <;> rintro rfl <;> exact absurd (hpad _ _ hd) (by decide)
        · exact hqs d hd
      · rw [texts, texts_append, texts_map_char, padded, htexts, htextsInner]

/-- Two runs of pieces in front of closing brackets that make the same text are equal. -/
theorem eq_of_texts_append {ps qs : List Piece} (hps : Proper ps) (hqs : Proper qs)
    {r s : List Char} (hr : ∀ c ∈ r.head?, c = '>') (hs : ∀ c ∈ s.head?, c = '>')
    (h : texts ps ++ r = texts qs ++ s) : ps = qs ∧ r = s := by
  induction ps using texts.induct generalizing qs r s with
  | case1 =>
      cases qs with
      | nil => exact ⟨rfl, by simpa [texts] using h⟩
      | cons q qs =>
          rw [texts, List.nil_append] at h
          cases q with
          | char c => exact absurd (hr c (by simp [h, texts])) (hqs c (by simp [chars])).2
          | list inner => exact absurd (hr '<' (by simp [h, texts])) (by decide)
  | case2 c ps ih =>
      have hc := hps c (by simp [chars])
      rw [texts, List.cons_append] at h
      cases qs with
      | nil =>
          rw [texts, List.nil_append] at h
          exact absurd (hs c (by simp [← h])) hc.2
      | cons q qs =>
          cases q with
          | char d =>
              rw [texts, List.cons_append, List.cons.injEq] at h
              obtain ⟨rfl, rfl⟩ := ih (fun c hc => hps c (by simp [chars, hc]))
                (fun c hc => hqs c (by simp [chars, hc])) hr hs h.2
              exact ⟨by rw [h.1], rfl⟩
          | list inner =>
              rw [texts, List.cons_append, List.cons.injEq] at h
              exact absurd h.1 hc.1
  | case3 inner ps ihinner ih =>
      rw [texts, List.cons_append] at h
      cases qs with
      | nil =>
          rw [texts, List.nil_append] at h
          exact absurd (hs '<' (by simp [← h])) (by decide)
      | cons q qs =>
          cases q with
          | char d =>
              rw [texts, List.cons_append, List.cons.injEq] at h
              exact absurd h.1.symm (hqs d (by simp [chars])).1
          | list inner' =>
              rw [texts, List.cons_append, List.cons.injEq, List.append_assoc,
                List.append_assoc] at h
              obtain ⟨rfl, hrest⟩ := ihinner (fun c hc => hps c (by simp [chars, hc]))
                (fun c hc => hqs c (by simp [chars, hc])) (by simp) (by simp) h.2
              obtain ⟨rfl, rfl⟩ := ih (fun c hc => hps c (by simp [chars, hc]))
                (fun c hc => hqs c (by simp [chars, hc])) hr hs (List.cons.inj hrest).2
              exact ⟨rfl, rfl⟩

/-- A text has one bracket tree. -/
theorem eq_of_texts {ps qs : List Piece} (hps : Proper ps) (hqs : Proper qs)
    (h : texts ps = texts qs) : ps = qs :=
  (eq_of_texts_append hps hqs (r := []) (s := []) (by simp) (by simp) (by rw [h])).1

end Piece

/-! ## The whole text -/

open Piece in
/-- The brackets of a text whose lists can be cut out are balanced. -/
theorem balanced_of_cutLists {outer : List (List Char)} {inner : List Char}
    {lists : List (List Char)} {cs : List Char} {cut : List Char × List (List Char)}
    (h : cutLists outer inner lists cs = .ok cut) :
    (∀ front, front <+: cs → front.count '>' ≤ front.count '<' + outer.length) ∧
      cs.count '<' + outer.length = cs.count '>' := by
  induction cs generalizing outer inner lists with
  | nil =>
      rw [cutLists] at h
      split at h
      · rename_i hempty
        rw [List.isEmpty_iff.1 hempty]
        exact ⟨fun front hfront => by simp [List.prefix_nil.1 hfront], rfl⟩
      · cases h
  | cons c cs ih =>
      by_cases hopen : c = '<'
      · subst hopen
        rw [cutLists_open] at h
        obtain ⟨hfronts, hall⟩ := ih h
        rw [List.length_cons] at hfronts hall
        refine ⟨fun front hfront => ?_, by simp; omega⟩
        rcases List.prefix_cons_iff.1 hfront with rfl | ⟨rest, rfl, hrest⟩
        · simp
        · have := hfronts rest hrest
          simp
          omega
      by_cases hclose : c = '>'
      · subst hclose
        cases outer with
        | nil => simp [cutLists] at h
        | cons before outer =>
            rw [cutLists_close] at h
            obtain ⟨hfronts, hall⟩ := ih h
            rw [List.length_cons]
            refine ⟨fun front hfront => ?_, by simp; omega⟩
            rcases List.prefix_cons_iff.1 hfront with rfl | ⟨rest, rfl, hrest⟩
            · simp
            · have := hfronts rest hrest
              simp
              omega
      · rw [cutLists_other ⟨hopen, hclose⟩] at h
        obtain ⟨hfronts, hall⟩ := ih h
        refine ⟨fun front hfront => ?_, by simpa [hopen, hclose] using hall⟩
        rcases List.prefix_cons_iff.1 hfront with rfl | ⟨rest, rfl, hrest⟩
        · simp
        · simpa [hopen, hclose] using hfronts rest hrest

open Piece in
/-- What a text is read as is what some bracket tree is read as. -/
theorem exists_readTree_of_parseChars {cs : List Char} {t : TypeRef} (h : parseChars cs = .ok t) :
    ∃ ps, Proper ps ∧ '#' ∉ chars ps ∧ readTree ps = .ok t := by
  rw [parseChars] at h
  split at h
  · cases h
  rename_i hreserved
  have hmark : '#' ∉ cs := fun hmem => hreserved (List.contains_iff_mem.2 hmem)
  have hbalanced : Balanced cs := by
    obtain ⟨cut, hcut, -⟩ := exists_of_bind_eq_ok h
    exact balanced_of_cutLists hcut
  obtain ⟨whole, hwhole, rfl⟩ := exists_texts hbalanced
  obtain ⟨pad, ps, hpad, hdigits, hpadded, hchars⟩ := exists_padded hwhole 0
  have hproper : Proper ps := fun c hc => hwhole c (hchars c hc)
  have hpsmark : '#' ∉ chars ps := fun h => hmark (mem_texts_of_mem_chars (hchars _ h))
  replace h : parseChars (Piece.texts whole) = .ok t := by rwa [parseChars, if_neg hreserved]
  rw [← hpadded] at h
  have hnumbered := numbered_of_parseChars hpad hproper hpsmark hdigits h
  rw [parseChars_of_numbered hpad hproper hpsmark hdigits hnumbered] at h
  exact ⟨ps, hproper, hpsmark, h⟩

open Piece in
/-- How a type reads: without the white space around it, and without zeros directly behind the
first closing bracket, a text is read as its bracket tree; any other digit directly behind a
closing bracket makes it an error. -/
theorem parse_eq_readTree {text : String} (hmark : '#' ∉ text.toList)
    (hbalanced : Balanced text.toList) :
    (∃! ps, Proper ps ∧ Piece.texts ps = unpadded (Text.trim text.toList)) ∧
      (Undigited (Text.trim text.toList) →
        unpadded (Text.trim text.toList) = Text.trim text.toList) ∧
      ∀ ps, Proper ps → Piece.texts ps = unpadded (Text.trim text.toList) →
        (Undigited (Piece.texts ps) →
          parse text = (readTree ps).mapError (⟨·, String.ofList (Text.trim text.toList)⟩)) ∧
        (¬ Undigited (Piece.texts ps) →
          ∃ cause, parse text = .error ⟨cause, String.ofList (Text.trim text.toList)⟩) := by
  obtain ⟨whole, hwhole, htext⟩ := exists_texts hbalanced
  have htrim : Text.trim text.toList = Piece.texts (trim whole) := by rw [← htext, trim_texts]
  have hproper : Proper (trim whole) :=
    fun c hc => hwhole c (mem_chars_of_isInfix (isCore_trim whole).isInfix hc)
  have hmark' : '#' ∉ chars (trim whole) := fun h => hmark (by
    rw [← htext]
    exact mem_texts_of_mem_chars (mem_chars_of_isInfix (isCore_trim whole).isInfix h))
  obtain ⟨pad, qs, hpad, hdigits, hpadded, hchars⟩ := exists_padded hproper 0
  have hqs : Proper qs := fun c hc => hproper c (hchars c hc)
  have hqsmark : '#' ∉ chars qs := fun h => hmark' (hchars _ h)
  have hunpadded : unpadded (Text.trim text.toList) = padded (unzeroed pad) 0 qs := by
    rw [htrim, ← hpadded, unpadded_padded hqs hdigits]
  have hparse : parse text = (parseChars (padded pad 0 qs)).mapError
      (⟨·, String.ofList (Text.trim text.toList)⟩) := by rw [parse, htrim, hpadded]
  refine ⟨?_, unpadded_of_undigited, fun ps hps htexts => ⟨fun h => ?_, fun h => ?_⟩⟩
  · obtain ⟨ps, hps, htexts⟩ := exists_texts_padded (isDigit_unzeroed hpad) hqs 0
    refine ⟨ps, ⟨hps, by rw [htexts, hunpadded]⟩, ?_⟩
    rintro ps' ⟨hps', htexts'⟩
    exact eq_of_texts hps' hps (by rw [htexts', htexts, hunpadded])
  · rw [hunpadded] at htexts
    have hnil := eq_nil_of_undigited (isDigit_unzeroed hpad) (htexts ▸ h)
    obtain rfl : ps = qs := eq_of_texts hps hqs (by rw [htexts, padded_congr _ hnil, padded_nil])
    rw [hparse, parseChars_of_numbered hpad hqs hqsmark hdigits ((numbered_iff hpad).2 hnil)]
  · cases hread : parseChars (padded pad 0 qs) with
    | error cause => exact ⟨cause, by rw [hparse, hread]; rfl⟩
    | ok t =>
        have hnil := (numbered_iff hpad).1 (numbered_of_parseChars hpad hqs hqsmark hdigits hread)
        rw [htexts, hunpadded, padded_congr _ hnil, padded_nil] at h
        exact absurd hdigits h

open Piece in
/-- A list with another list inside it, behind which a question mark belongs to the whole. -/
theorem parse_eq_readTree_nested :
    '#' ∉ "a<b, c<d>>?".toList ∧ Balanced "a<b, c<d>>?".toList ∧
      parse "a<b, c<d>>?" =
        (readTree [.char 'a', .list [.char 'b', .char ',', .char ' ', .char 'c', .list [.char 'd']],
          .char '?']).mapError (⟨·, "a<b, c<d>>?"⟩) := by
  have htrim : Text.trim "a<b, c<d>>?".toList = "a<b, c<d>>?".toList := by decide +kernel
  have hproper : Proper [.char 'a',
      .list [.char 'b', .char ',', .char ' ', .char 'c', .list [.char 'd']], .char '?'] := by
    simp [Proper, chars]
  have htexts : Piece.texts [.char 'a',
      .list [.char 'b', .char ',', .char ' ', .char 'c', .list [.char 'd']], .char '?'] =
        "a<b, c<d>>?".toList := by simp [Piece.texts]
  have hdigits : Undigited "a<b, c<d>>?".toList := by
    unfold Undigited
    decide
  have hmark : '#' ∉ "a<b, c<d>>?".toList := by decide
  have hbalanced : Balanced "a<b, c<d>>?".toList := htexts ▸ balanced_texts hproper
  have h := ((parse_eq_readTree hmark hbalanced).2.2 _ hproper
    (by rw [htexts, htrim, unpadded_of_undigited hdigits])).1 (by rw [htexts]; exact hdigits)
  rw [htrim] at h
  exact ⟨hmark, hbalanced, h⟩

open Piece in
/-- A digit directly behind a closing bracket is not read as the bracket tree has it: it becomes
part of the number of the list. -/
theorem not_parse_eq_readTree_digit :
    ¬ ∀ (text : String) (ps : List Piece), '#' ∉ text.toList → Balanced text.toList → Proper ps →
      Piece.texts ps = Text.trim text.toList →
        parse text = (readTree ps).mapError (⟨·, String.ofList (Text.trim text.toList)⟩) := by
  intro h
  have hproper : Proper [.char 'a', .list [.char 'b'], .char '0'] := by simp [Proper, chars]
  have htexts : Piece.texts [.char 'a', .list [.char 'b'], .char '0'] = "a<b>0".toList := by
    simp [Piece.texts]
  have htrim : Text.trim "a<b>0".toList = "a<b>0".toList := by decide +kernel
  have hread : readTree [.char 'a', .list [.char 'b'], .char '0'] = .error .invalidMarker := by
    have hplain : ∀ rest,
        Piece.trim [.char 'a', .list [.char 'b'], .char '0'] ≠ .char '?' :: rest := by
      intro rest heq
      cases congrArg List.head? heq
    rw [readTree_plain hplain]
    decide +kernel
  have hparse := h "a<b>0" _ (by decide) (htexts ▸ balanced_texts hproper) hproper
    (by rw [htexts, htrim])
  rw [hread] at hparse
  exact absurd hparse (by decide +kernel)

end Outline.TypeRef
