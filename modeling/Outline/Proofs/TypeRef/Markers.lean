import Mathlib.Data.Nat.Digits.Defs
import Outline.Proofs.Text.Pieces
import Outline.Proofs.TypeRef.BracketTree

/-!
# Markers for lists

`TypeRef.parse` cuts the lists of a bracket tree out of its text and numbers them in the order in
which they close.  The text that is left is flat: a marker stands for each list, with the digits
that stood directly behind the list (`pad`) behind it.

* `Piece.flat`, `Piece.recorded` — the flat text of a run of pieces, and its lists.
* `Piece.cutLists_padded` — these are what is cut out of the text.
* `Piece.trim_flat`, `Piece.stripMarks_flat`, `Piece.boundTarget?_flat`, `Piece.pieces_flat` — the
  flat text is taken apart as its pieces are.
-/

namespace Outline.TypeRef.Piece

/-- The number of lists in a run of pieces and inside of them. -/
def count : List Piece → Nat
  | [] => 0
  | .char _ :: ps => count ps
  | .list inner :: ps => count inner + 1 + count ps

/-- The flat text of a run of pieces whose lists have the numbers from `n` on. -/
def flat (pad : Nat → List Char) (n : Nat) : List Piece → List Char
  | [] => []
  | .char c :: ps => c :: flat pad n ps
  | .list inner :: ps =>
    marker (n + count inner) ++ (pad (n + count inner) ++ flat pad (n + count inner + 1) ps)

/-- The flat texts of the lists, in the order of their numbers, which start with `n`. -/
def recorded (pad : Nat → List Char) (n : Nat) : List Piece → List (List Char)
  | [] => []
  | .char _ :: ps => recorded pad n ps
  | .list inner :: ps =>
    recorded pad n inner ++ flat pad n inner :: recorded pad (n + count inner + 1) ps

/-- The text of a run of pieces with `pad k` directly behind the list with the number `k`. -/
def padded (pad : Nat → List Char) (n : Nat) : List Piece → List Char
  | [] => []
  | .char c :: ps => c :: padded pad n ps
  | .list inner :: ps =>
    '<' :: (padded pad n inner ++
      '>' :: (pad (n + count inner) ++ padded pad (n + count inner + 1) ps))

variable {pad : Nat → List Char}

theorem length_recorded (n : Nat) (ps : List Piece) : (recorded pad n ps).length = count ps := by
  induction ps using texts.induct generalizing n with
  | case1 => simp [recorded, count]
  | case2 c ps ih => simpa [recorded, count] using ih n
  | case3 inner ps ihinner ih =>
      simp [recorded, count, ihinner, ih]
      omega

/-! ## Cutting the lists out -/

theorem cutLists_other {c : Char} (hc : c ≠ '<' ∧ c ≠ '>') (outer : List (List Char))
    (inner : List Char) (lists : List (List Char)) (cs : List Char) :
    cutLists outer inner lists (c :: cs) = cutLists outer (c :: inner) lists cs := by
  rw [cutLists.eq_def]
  simp [hc]

theorem cutLists_open (outer : List (List Char)) (inner : List Char) (lists : List (List Char))
    (cs : List Char) :
    cutLists outer inner lists ('<' :: cs) = cutLists (inner :: outer) [] lists cs := by
  rw [cutLists.eq_def]
  simp

theorem cutLists_close (outer : List (List Char)) (before inner : List Char)
    (lists : List (List Char)) (cs : List Char) :
    cutLists (before :: outer) inner lists ('>' :: cs) =
      cutLists outer ((marker lists.length).reverse ++ before) (inner.reverse :: lists) cs := by
  rw [cutLists.eq_def]
  simp

theorem cutLists_plain {cs : List Char} (h : ∀ c ∈ cs, c ≠ '<' ∧ c ≠ '>')
    (outer : List (List Char)) (inner : List Char) (lists : List (List Char)) (rest : List Char) :
    cutLists outer inner lists (cs ++ rest) = cutLists outer (cs.reverse ++ inner) lists rest := by
  induction cs generalizing inner with
  | nil => rfl
  | cons c cs ih =>
      rw [List.cons_append, cutLists_other (h c (by simp)), ih fun c hc => h c (by simp [hc])]
      simp

/-- The lists of a run of pieces are cut out in the order in which they close. -/
theorem cutLists_padded (hpad : ∀ k, ∀ c ∈ pad k, c ≠ '<' ∧ c ≠ '>') {ps : List Piece}
    (h : Proper ps) (outer : List (List Char)) (inner : List Char) (lists : List (List Char))
    (rest : List Char) {n : Nat} (hn : lists.length = n) :
    cutLists outer inner lists (padded pad n ps ++ rest) =
      cutLists outer ((flat pad n ps).reverse ++ inner) ((recorded pad n ps).reverse ++ lists)
        rest := by
  induction ps using texts.induct generalizing outer inner lists rest n with
  | case1 => simp [padded, flat, recorded]
  | case2 c ps ih =>
      have hps : Proper ps := fun c hc => h c (by simp [chars, hc])
      rw [padded, List.cons_append, cutLists_other (h c (by simp [chars])), ih hps _ _ _ _ hn]
      simp [flat, recorded]
  | case3 list ps ihlist ih =>
      have hlist : Proper list := fun c hc => h c (by simp [chars, hc])
      have hps : Proper ps := fun c hc => h c (by simp [chars, hc])
      have hlen : ((recorded pad n list).reverse ++ lists).length = n + count list := by
        simp [length_recorded, hn, Nat.add_comm]
      simp only [padded, List.cons_append, List.append_assoc]
      rw [cutLists_open, ihlist hlist _ _ _ _ hn, cutLists_close, hlen, cutLists_plain (hpad _),
        ih hps _ _ _ _ (by rw [List.length_cons, hlen])]
      simp [flat, recorded]

/-! ## Flat texts, piece by piece -/

theorem count_append (ps qs : List Piece) : count (ps ++ qs) = count ps + count qs := by
  induction ps with
  | nil => simp [count]
  | cons p ps ih => cases p <;> simp [count, ih, Nat.add_assoc]

theorem flat_append (n : Nat) (ps qs : List Piece) :
    flat pad n (ps ++ qs) = flat pad n ps ++ flat pad (n + count ps) qs := by
  induction ps generalizing n with
  | nil => simp [flat, count]
  | cons p ps ih => cases p <;> simp [flat, count, ih, Nat.add_assoc]

theorem flat_concat_char (n : Nat) (ps : List Piece) (c : Char) :
    flat pad n (ps ++ [.char c]) = flat pad n ps ++ [c] := by
  rw [flat_append, flat, flat]

/-- A marker and the digits behind it are a `#` and at least one digit. -/
theorem marker_append (hpad : ∀ k, ∀ c ∈ pad k, c.isDigit = true) (k : Nat) :
    ∃ ds, marker k ++ pad k = '#' :: ds ∧ ds ≠ [] ∧ ∀ c ∈ ds, c.isDigit = true := by
  refine ⟨Nat.toDigits 10 k ++ pad k, rfl, by simp, ?_⟩
  intro c hc
  rcases List.mem_append.1 hc with hc | hc
  · exact Nat.isDigit_of_mem_toDigits (by decide) (by decide) hc
  · exact hpad k c hc

theorem flat_concat_list (hpad : ∀ k, ∀ c ∈ pad k, c.isDigit = true) (n : Nat)
    (ps inner : List Piece) :
    ∃ cs d, flat pad n (ps ++ [.list inner]) = cs ++ [d] ∧ d.isDigit = true := by
  obtain ⟨ds, hds, hne, hdigit⟩ := marker_append hpad (n + count ps + count inner)
  refine ⟨flat pad n ps ++ '#' :: ds.dropLast, ds.getLast hne, ?_, hdigit _ (List.getLast_mem hne)⟩
  rw [flat_append, flat, flat, List.append_nil, hds, List.append_assoc, List.cons_append,
    List.dropLast_concat_getLast]

theorem not_white_of_isDigit {c : Char} (h : c.isDigit = true) : Text.isWhiteSpace c = false := by
  have hdigits : ∀ n ∈ List.range 58, 48 ≤ n →
      Text.switchedOn Text.whiteSpaceSwitches n = false := by decide
  obtain ⟨hlow, hhigh⟩ := Char.isDigit_iff_toNat.1 h
  exact hdigits c.toNat (List.mem_range.2 (Nat.lt_succ_of_le hhigh)) hlow

/-! ## Trimming and taking marks off -/

variable (hpad : ∀ k, ∀ c ∈ pad k, c.isDigit = true)

theorem trimStart_flat (n : Nat) (ps : List Piece) :
    Text.trimStart (flat pad n ps) = flat pad n (trimStart ps) := by
  induction ps with
  | nil => simp [trimStart, flat, Text.trimStart]
  | cons p ps ih =>
      cases p with
      | char c =>
          rw [flat, Text.trimStart, List.dropWhile_cons, trimStart, List.dropWhile_cons, isBlank]
          split
          · exact ih
          · rw [flat]
      | list inner =>
          have hmark : Text.isWhiteSpace '#' = false := by decide
          simp [trimStart, isBlank, flat, Text.trimStart, marker, markerStart, hmark]

theorem trimEnd_concat (cs : List Char) (c : Char) :
    Text.trimEnd (cs ++ [c]) = if Text.isWhiteSpace c then Text.trimEnd cs else cs ++ [c] := by
  rw [Text.trimEnd, List.reverse_concat, List.dropWhile_cons]
  split
  · rfl
  · simp

include hpad

theorem trimEnd_flat (n : Nat) (ps : List Piece) :
    Text.trimEnd (flat pad n ps) = flat pad n (trimEnd ps) := by
  induction ps using List.reverseRecOn with
  | nil => simp [trimEnd, flat, Text.trimEnd]
  | append_singleton ps p ih =>
      rw [trimEnd, List.rdropWhile_concat]
      cases p with
      | char c =>
          rw [flat_concat_char, trimEnd_concat, isBlank]
          split
          · exact ih
          · rw [flat_concat_char]
      | list inner =>
          obtain ⟨cs, d, hflat, hd⟩ := flat_concat_list hpad n ps inner
          rw [if_neg (by simp [isBlank]), hflat, trimEnd_concat, not_white_of_isDigit hd]
          rfl

theorem trim_flat (n : Nat) (ps : List Piece) :
    Text.trim (flat pad n ps) = flat pad n (trim ps) := by
  rw [Text.trim, trimStart_flat, trimEnd_flat hpad, trim]

omit hpad in
theorem stripMark_cons (c : Char) (rs : List Char) :
    stripMark (c :: rs) = if c = '?' then (rs.dropWhile Text.isWhiteSpace, true)
      else (c :: rs, false) := by
  unfold stripMark
  split
  · rename_i heq
    cases heq
    rfl
  · rename_i hne
    rw [if_neg]
    rintro rfl
    exact hne rs rfl

omit hpad in
theorem dropWhile_reverse (cs : List Char) :
    cs.reverse.dropWhile Text.isWhiteSpace = (Text.trimEnd cs).reverse := by
  rw [Text.trimEnd, List.reverse_reverse]

theorem stripMark_flat (n : Nat) (ps : List Piece) :
    stripMark (flat pad n ps).reverse =
      ((flat pad n (takeMark ps).1).reverse, (takeMark ps).2) := by
  cases ps using List.reverseRecOn with
  | nil => simp [flat, stripMark, takeMark, endsIn]
  | append_singleton ps p =>
      rw [takeMark, endsIn, List.getLast?_concat, List.dropLast_concat]
      cases p with
      | char c =>
          rw [flat_concat_char, List.reverse_concat, stripMark_cons, dropWhile_reverse,
            trimEnd_flat hpad]
          by_cases hc : c = '?' <;> simp [is, hc, flat_concat_char]
      | list inner =>
          obtain ⟨cs, d, hflat, hd⟩ := flat_concat_list hpad n ps inner
          have hne : d ≠ '?' := by rintro rfl; exact absurd hd (by decide)
          rw [hflat, List.reverse_concat, stripMark_cons, if_neg hne]
          simp [is, hflat]

omit hpad in
theorem stripArrays_pair (cs : List Char) :
    stripArrays (']' :: '[' :: cs.reverse) =
      ((stripArrays (Text.trimEnd cs).reverse).1,
        (stripArrays (Text.trimEnd cs).reverse).2 + 1) := by
  rw [stripArrays, dropWhile_reverse]

omit hpad in
theorem stripArrays_other {rs : List Char} (h : ∀ rest, rs ≠ ']' :: '[' :: rest) :
    stripArrays rs = (rs, 0) := by
  rw [stripArrays]
  exact h

theorem getLast?_flat {c : Char} (hc : c.isDigit = false) (n : Nat) (ps : List Piece) :
    (flat pad n ps).getLast? = some c ↔ endsIn c ps = true := by
  cases ps using List.reverseRecOn with
  | nil => simp [flat, endsIn]
  | append_singleton ps p =>
      rw [endsIn, List.getLast?_concat]
      cases p with
      | char d => simp [flat_concat_char, is]
      | list inner =>
          obtain ⟨cs, d, hflat, hd⟩ := flat_concat_list hpad n ps inner
          have hne : d ≠ c := by rintro rfl; rw [hd] at hc; exact absurd hc (by decide)
          simp [hflat, is, hne]

theorem stripArrays_flat (n : Nat) (ps : List Piece) :
    stripArrays (flat pad n ps).reverse =
      ((flat pad n (takeArrays ps).1).reverse, (takeArrays ps).2) := by
  fun_induction takeArrays ps with
  | case1 ps h taken ih =>
      obtain ⟨hclose, hopen⟩ := Bool.and_eq_true_iff.1 h
      obtain ⟨qs, rfl⟩ := endsIn_iff.1 hclose
      rw [List.dropLast_concat] at hopen
      obtain ⟨qs, rfl⟩ := endsIn_iff.1 hopen
      simp only [List.dropLast_concat] at ih
      rw [flat_concat_char, flat_concat_char, List.reverse_concat, List.reverse_concat,
        stripArrays_pair, trimEnd_flat hpad, ih]
      simp [taken]
  | case2 ps h =>
      refine stripArrays_other fun rest heq => h ?_
      have hps : flat pad n ps = rest.reverse ++ ['['] ++ [']'] := by
        rw [← List.reverse_reverse (flat pad n ps), heq]
        simp
      have hclose := (getLast?_flat (c := ']') hpad (by decide) n ps).1
        (by rw [hps, List.getLast?_concat])
      obtain ⟨qs, rfl⟩ := endsIn_iff.1 hclose
      rw [flat_concat_char] at hps
      have hqs := (List.append_inj' hps rfl).1
      have hopen := (getLast?_flat (c := '[') hpad (by decide) n qs).1
        (by rw [hqs, List.getLast?_concat])
      rw [List.dropLast_concat, hclose, hopen, Bool.and_self]

theorem stripMarks_flat (n : Nat) (ps : List Piece) :
    stripMarks (flat pad n ps) = {
      core := flat pad n (takeMarks ps).core, dimensions := (takeMarks ps).dimensions,
      nullable := (takeMarks ps).nullable } := by
  simp [stripMarks, takeMarks, stripMark_flat hpad, stripArrays_flat hpad]

/-! ## Names, bounds and segments -/

omit hpad

theorem recorded_append (n : Nat) (ps qs : List Piece) :
    recorded pad n (ps ++ qs) = recorded pad n ps ++ recorded pad (n + count ps) qs := by
  induction ps generalizing n with
  | nil => simp [recorded, count]
  | cons p ps ih => cases p <;> simp [recorded, count, ih, Nat.add_assoc]

theorem count_of_isChar {ps : List Piece} (h : ∀ p ∈ ps, p.isChar = true) : count ps = 0 := by
  induction ps with
  | nil => rw [count]
  | cons p ps ih =>
      cases p with
      | char c => rw [count, ih fun p hp => h p (by simp [hp])]
      | list inner => exact absurd (h (.list inner) (by simp)) Bool.false_ne_true

/-- The characters around a core hold no lists. -/
theorem IsCore.count_eq {core ps : List Piece} (h : IsCore core ps) : count core = count ps := by
  obtain ⟨front, back, rfl, hfront, hback⟩ := h
  rw [count_append, count_append, count_of_isChar hfront, count_of_isChar hback]
  omega

theorem IsCore.recorded_eq {core ps : List Piece} (h : IsCore core ps) (n : Nat) :
    recorded pad n core = recorded pad n ps := by
  obtain ⟨front, back, rfl, hfront, hback⟩ := h
  have hnil : ∀ {qs : List Piece} (m : Nat), (∀ p ∈ qs, p.isChar = true) →
      recorded pad m qs = [] := by
    intro qs m hqs
    exact List.eq_nil_of_length_eq_zero (by rw [length_recorded, count_of_isChar hqs])
  rw [recorded_append, recorded_append, hnil _ hfront, hnil _ hback, count_of_isChar hfront]
  simp

theorem takeWhile_flat {ps : List Piece} (hmark : '#' ∉ chars ps) (n : Nat) :
    (flat pad n ps).takeWhile (· != markerStart) = texts (ps.takeWhile isChar) := by
  induction ps with
  | nil => simp [flat, texts]
  | cons p ps ih =>
      cases p with
      | char c =>
          rw [chars, List.mem_cons, not_or] at hmark
          have hc : (c != markerStart) = true := bne_iff_ne.2 (Ne.symm hmark.1)
          rw [flat, List.takeWhile_cons, if_pos hc, ih hmark.2, List.takeWhile_cons]
          simp [isChar, texts]
      | list inner => simp [flat, marker, texts, isChar]

theorem dropWhile_flat {ps : List Piece} (hmark : '#' ∉ chars ps) (n : Nat) :
    (flat pad n ps).dropWhile (· != markerStart) = flat pad n (ps.dropWhile isChar) := by
  induction ps with
  | nil => simp [flat]
  | cons p ps ih =>
      cases p with
      | char c =>
          rw [chars, List.mem_cons, not_or] at hmark
          have hc : (c != markerStart) = true := bne_iff_ne.2 (Ne.symm hmark.1)
          rw [flat, List.dropWhile_cons, if_pos hc, ih hmark.2, List.dropWhile_cons]
          simp [isChar]
      | list inner => simp [flat, marker, isChar]

/-- A word at the front of a flat text is one at the front of the pieces. -/
theorem after?_flat (pad : Nat → List Char) {word : List Char} (hword : '#' ∉ word) (n : Nat) (ps : List Piece) :
    (after? word ps).elim (¬ word <+: flat pad n ps)
      fun rest => flat pad n ps = word ++ flat pad n rest := by
  fun_induction after? word ps with
  | case1 ps => rfl
  | case2 c cs d ps hd ih =>
      obtain rfl := beq_iff_eq.1 hd
      have ih := ih fun h => hword (List.mem_cons_of_mem _ h)
      cases hrest : after? cs ps with
      | none =>
          rw [hrest] at ih
          simpa [flat] using ih
      | some rest =>
          rw [hrest] at ih
          simpa [flat] using ih
  | case3 c cs d ps hd =>
      rw [Option.elim_none, flat, List.cons_prefix_cons]
      exact fun h => hd (beq_iff_eq.2 h.1.symm)
  | case4 c cs ps hps =>
      cases ps with
      | nil => simp [flat]
      | cons p ps =>
          cases p with
          | char d => exact absurd rfl (hps d ps)
          | list inner =>
              rw [Option.elim_none, flat, marker, List.cons_append, List.cons_prefix_cons]
              rintro ⟨rfl, -⟩
              exact hword (List.mem_cons_self ..)

theorem boundTarget?_flat {keyword : String} (hword : '#' ∉ keyword.toList) (n : Nat)
    (ps : List Piece) :
    boundTarget? keyword (flat pad n ps) = (target? keyword ps).map (flat pad n) := by
  have hafter := after?_flat pad hword n ps
  unfold boundTarget? target?
  cases hrest : after? keyword.toList ps with
  | none =>
      rw [hrest] at hafter
      rw [if_neg]
      · rfl
      · rw [List.isPrefixOf_iff_prefix]
        exact fun h => hafter ((List.prefix_append _ _).trans h)
  | some rest =>
      rw [hrest, Option.elim_some] at hafter
      have hspace : (keyword.toList ++ [' ']).isPrefixOf (flat pad n ps) =
          rest.head?.any (is ' ') := by
        rw [hafter, Bool.eq_iff_iff, List.isPrefixOf_iff_prefix, List.prefix_append_right_inj]
        cases rest with
        | nil => simp [flat]
        | cons p rest =>
            cases p with
            | char c => simp [flat, is, eq_comm (a := ' ')]
            | list inner => simp [flat, marker, markerStart, is]
      rw [hspace, Option.filter_some]
      split
      · rw [hafter, ← String.length_toList, List.drop_left]
        rfl
      · rfl

/-- The flat texts of runs whose lists are numbered one run after the other. -/
def flats (pad : Nat → List Char) (n : Nat) : List (List Piece) → List (List Char)
  | [] => []
  | q :: qs => flat pad n q :: flats pad (n + count q) qs

/-- The segments of a flat text are the flat texts of the segments. -/
theorem pieces_flat (hpad : ∀ k, ∀ c ∈ pad k, c.isDigit = true) (n : Nat) (ps : List Piece) :
    Text.pieces ',' (flat pad n ps) = flats pad n (segments ps) := by
  induction ps generalizing n with
  | nil => simp [flat, Text.pieces, segments, flats]
  | cons p ps ih =>
      cases p with
      | char c =>
          cases hc : c == ',' with
          | true =>
              rw [segments_comma (p := .char c) hc, flat, Text.pieces, hc, flats]
              simp [ih, flat, count]
          | false =>
              obtain ⟨q, qs, hqs, heq⟩ := segments_cons (p := .char c) hc ps
              have ih := ih n
              rw [hqs, flats] at ih
              rw [heq, flat, Text.pieces, hc, ih, flats, flat, count]
              rfl
      | list inner =>
          obtain ⟨q, qs, hqs, heq⟩ := segments_cons (p := .list inner) rfl ps
          have ih := ih (n + count inner + 1)
          rw [hqs, flats] at ih
          obtain ⟨ds, hds, -, hdigit⟩ := marker_append hpad (n + count inner)
          have hcomma : ∀ c ∈ marker (n + count inner) ++ pad (n + count inner), c ≠ ',' := by
            rw [hds]
            intro c hc
            rcases List.mem_cons.1 hc with rfl | hc
            · decide
            · rintro rfl
              exact absurd (hdigit _ hc) (by decide)
          rw [heq, flat, ← List.append_assoc, Text.pieces_append hcomma ih, flats, flat, count]
          simp [Nat.add_assoc]

theorem count_flatten_segments (ps : List Piece) : count (segments ps).flatten = count ps := by
  induction ps with
  | nil => simp [segments, count]
  | cons p ps ih =>
      cases hp : p.is ',' with
      | true =>
          rw [segments_comma hp, List.flatten_cons, List.nil_append, ih]
          exact (IsCore.tail (isChar_of_is hp) ps).count_eq
      | false =>
          obtain ⟨q, qs, hqs, heq⟩ := segments_cons hp ps
          rw [hqs] at ih
          rw [heq]
          cases p <;> simp_all [count]

theorem recorded_flatten_segments (n : Nat) (ps : List Piece) :
    recorded pad n (segments ps).flatten = recorded pad n ps := by
  induction ps generalizing n with
  | nil => simp [segments]
  | cons p ps ih =>
      cases hp : p.is ',' with
      | true =>
          rw [segments_comma hp, List.flatten_cons, List.nil_append, ih]
          exact (IsCore.tail (isChar_of_is hp) ps).recorded_eq n
      | false =>
          obtain ⟨q, qs, hqs, heq⟩ := segments_cons hp ps
          rw [hqs] at ih
          rw [heq]
          cases p <;> simp_all [recorded]

end Outline.TypeRef.Piece
