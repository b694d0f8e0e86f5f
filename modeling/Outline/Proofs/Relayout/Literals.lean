import Outline.Proofs.Relayout.Scanning

/-!
# Scanning string literals and comments in another layout

String literals and comments may hold blank characters.  They are read alike where no run inside
them is replaced, because how they end is seen from what is read, up to one character behind a
verbatim literal.

* `Recognizer.scanThrough_of_take` — a comment that is kept.
* `Recognizer.scanThrough_eq_none_relaid` — a comment that never ends does so in every layout.
* `StringStyle.scan_of_take` — a string literal is read from its characters.
* `StringStyle.scan_relaid` — a string literal that is kept.
-/

namespace Outline

open Text (isBlank)

variable {allowed : Nat → List Char → Nat → List Char → Prop} {p q : Nat} {cs ds : List Char}

/-- The text behind a character that both texts start with. -/
theorem exists_cons_of_take {c : Char} {n : Nat} (h : ds.take (n + 1) = (c :: cs).take (n + 1)) :
    ∃ rest, ds = c :: rest ∧ rest.take n = cs.take n := by
  cases ds with
  | nil => simp at h
  | cons d ds => simp_all

/-! ## Comments -/

namespace Recognizer

theorem length_le_of_scanThrough {closing : List Char} {n : Nat}
    (h : scanThrough closing cs = some n) : closing.length ≤ n := by
  induction cs generalizing n with
  | nil => cases h
  | cons c cs ih =>
      unfold scanThrough at h
      split at h
      · rw [Option.some.injEq] at h
        exact h.le
      · obtain ⟨m, hm, rfl⟩ := Option.map_eq_some_iff.1 h
        exact (ih hm).trans (Nat.le_succ m)

/-- What is read up to a closing depends only on the characters that are read. -/
theorem scanThrough_of_take {closing : List Char} (hclosing : closing ≠ []) {n : Nat}
    (h : scanThrough closing cs = some n) (hkept : ds.take n = cs.take n) :
    scanThrough closing ds = some n := by
  have hlong := length_le_of_scanThrough h
  have hpos := List.length_pos_iff.2 hclosing
  induction cs generalizing ds n with
  | nil => cases h
  | cons c cs ih =>
      have hstarts : closing.isPrefixOf ds = closing.isPrefixOf (c :: cs) := by
        have htake : ∀ xs : List Char, closing <+: xs ↔ closing <+: xs.take n := fun xs => by
          rw [List.prefix_take_iff, and_iff_left hlong]
        rw [Bool.eq_iff_iff, List.isPrefixOf_iff_prefix, List.isPrefixOf_iff_prefix, htake ds,
          htake (c :: cs), hkept]
      obtain ⟨k, rfl⟩ : ∃ k, n = k + 1 := ⟨n - 1, by omega⟩
      obtain ⟨ds, rfl, htail⟩ := exists_cons_of_take hkept
      unfold scanThrough at h ⊢
      rw [hstarts]
      split at h
      · exact (if_pos (by assumption)).trans h
      · rename_i hno
        obtain ⟨m, hm, hmk⟩ := Option.map_eq_some_iff.1 h
        obtain rfl : m = k := by omega
        rw [if_neg hno, ih hm htail (length_le_of_scanThrough hm), Option.map_some]

/-- No closing starts inside a run of blank characters. -/
theorem scanThrough_append_eq_none_iff {w : Char} {ws b : List Char} (xs : List Char)
    (hw : isBlank w = false) (hb : ∀ c ∈ b, isBlank c = true) :
    scanThrough (w :: ws) (b ++ xs) = none ↔ scanThrough (w :: ws) xs = none := by
  induction b with
  | nil => rfl
  | cons c b ih =>
      have hne : (w == c) = false := Bool.eq_false_iff.2 fun hwc => by
        rw [beq_iff_eq.1 hwc, hb c (by simp)] at hw
        cases hw
      rw [List.cons_append, scanThrough, if_neg (by simp [List.isPrefixOf, hne]),
        Option.map_eq_none_iff]
      exact ih fun d hd => hb d (by simp [hd])

/-- A closing that is nowhere in a text is nowhere in the text in another layout. -/
theorem scanThrough_eq_none_relaid {closing : List Char} (hclosing : closing ≠ [])
    (hsolid : ∀ c ∈ closing, isBlank c = false) (h : Relaid allowed p cs q ds)
    (hnone : scanThrough closing cs = none) : scanThrough closing ds = none := by
  obtain ⟨w, ws, rfl⟩ := List.exists_cons_of_ne_nil hclosing
  have hw : isBlank w = false := hsolid w (by simp)
  induction h with
  | nil => rfl
  | @keep c p q cs ds tail ih =>
      have hstarts := (Relaid.keep c tail).isPrefixOf_eq hsolid
      unfold scanThrough at hnone ⊢
      rw [hstarts]
      split at hnone
      · cases hnone
      · rename_i hno
        rw [if_neg hno, ih (Option.map_eq_none_iff.1 hnone)]
        rfl
  | replace old new _ _ ih =>
      rw [scanThrough_append_eq_none_iff _ hw old.blank] at hnone
      rw [scanThrough_append_eq_none_iff _ hw new.blank]
      exact ih hnone

end Recognizer

/-! ## String literals -/

namespace StringStyle

theorem scanQuoted_cons (quote : Char) (multiline : Bool) {c : Char} (hc : c ≠ '\\')
    (cs : List Char) :
    scanQuoted quote multiline (c :: cs) = if c == quote then some 1
      else if Text.isLineEnd c && !multiline then none
      else (scanQuoted quote multiline cs).map (· + 1) := by
  rw [scanQuoted]
  · exact fun h => absurd h hc
  · exact fun _ _ h => absurd h hc

theorem scanQuoted_of_take {quote : Char} {multiline : Bool} {n : Nat}
    (h : scanQuoted quote multiline cs = some n) (hkept : ds.take n = cs.take n) :
    scanQuoted quote multiline ds = some n := by
  fun_induction scanQuoted quote multiline cs generalizing ds n with
  | case1 => cases h
  | case2 => cases h
  | case3 c cs ih =>
      obtain ⟨m, hm, rfl⟩ := Option.map_eq_some_iff.1 h
      obtain ⟨rest, rfl, hrest⟩ := exists_cons_of_take hkept
      obtain ⟨ds, rfl, htail⟩ := exists_cons_of_take hrest
      rw [scanQuoted, ih hm htail, Option.map_some]
  | case4 c cs hlast hescape hc =>
      cases h
      have hslash : c ≠ '\\' := by
        cases cs with
        | nil => exact fun h => hlast h rfl
        | cons d cs => exact fun h => hescape d cs h rfl
      obtain ⟨ds, rfl, -⟩ := exists_cons_of_take hkept
      rw [scanQuoted_cons quote multiline hslash, if_pos hc]
  | case5 => cases h
  | case6 c cs hlast hescape hc hend ih =>
      have hslash : c ≠ '\\' := by
        cases cs with
        | nil => exact fun h => hlast h rfl
        | cons d cs => exact fun h => hescape d cs h rfl
      obtain ⟨m, hm, rfl⟩ := Option.map_eq_some_iff.1 h
      obtain ⟨ds, rfl, htail⟩ := exists_cons_of_take hkept
      rw [scanQuoted_cons quote multiline hslash, if_neg hc, if_neg hend, ih hm htail,
        Option.map_some]

/-- A verbatim literal ends at a quote behind which there is no other one. -/
theorem scanVerbatim_of_take {n : Nat} (h : scanVerbatim cs = some n)
    (hkept : ds.take n = cs.take n)
    (hnext : (ds.drop n).head? = some '"' → (cs.drop n).head? = some '"') :
    scanVerbatim ds = some n := by
  fun_induction scanVerbatim cs generalizing ds n with
  | case1 => cases h
  | case2 cs ih =>
      obtain ⟨m, hm, rfl⟩ := Option.map_eq_some_iff.1 h
      obtain ⟨rest, rfl, hrest⟩ := exists_cons_of_take hkept
      obtain ⟨ds, rfl, htail⟩ := exists_cons_of_take hrest
      rw [scanVerbatim, ih hm htail (by simpa using hnext), Option.map_some]
  | case3 cs hcs =>
      cases h
      obtain ⟨ds, rfl, -⟩ := exists_cons_of_take hkept
      rw [scanVerbatim]
      rintro rest rfl
      obtain ⟨rest', rfl⟩ := List.head?_eq_some_iff.1 (hnext rfl)
      exact hcs rest' rfl
  | case4 c cs hpair hc ih =>
      obtain ⟨m, hm, rfl⟩ := Option.map_eq_some_iff.1 h
      obtain ⟨ds, rfl, htail⟩ := exists_cons_of_take hkept
      rw [scanVerbatim, ih hm htail (by simpa using hnext), Option.map_some]
      · exact fun rest hc' _ => hc hc'
      · exact hc

theorem three_le_of_scanTextBlock {n : Nat} (h : scanTextBlock cs = some n) : 3 ≤ n := by
  fun_induction scanTextBlock cs generalizing n with
  | case1 => cases h
  | case2 => cases h
  | case3 c cs ih =>
      obtain ⟨m, hm, rfl⟩ := Option.map_eq_some_iff.1 h
      exact (ih hm).trans (Nat.le_add_right m 2)
  | case4 => exact (Option.some.inj h).le
  | case5 c cs _ _ _ ih =>
      obtain ⟨m, hm, rfl⟩ := Option.map_eq_some_iff.1 h
      exact (ih hm).trans (Nat.le_add_right m 1)

theorem scanTextBlock_of_take {n : Nat} (h : scanTextBlock cs = some n)
    (hkept : ds.take n = cs.take n) : scanTextBlock ds = some n := by
  fun_induction scanTextBlock cs generalizing ds n with
  | case1 => cases h
  | case2 => cases h
  | case3 c cs ih =>
      obtain ⟨m, hm, rfl⟩ := Option.map_eq_some_iff.1 h
      obtain ⟨rest, rfl, hrest⟩ := exists_cons_of_take hkept
      obtain ⟨ds, rfl, htail⟩ := exists_cons_of_take hrest
      rw [scanTextBlock, ih hm htail, Option.map_some]
  | case4 cs =>
      cases h
      obtain ⟨rest, rfl, hrest⟩ := exists_cons_of_take hkept
      obtain ⟨rest', rfl, hrest'⟩ := exists_cons_of_take hrest
      obtain ⟨ds, rfl, -⟩ := exists_cons_of_take hrest'
      rw [scanTextBlock]
  | case5 c cs hlast hescape hquotes ih =>
      obtain ⟨m, hm, rfl⟩ := Option.map_eq_some_iff.1 h
      obtain ⟨k, rfl⟩ : ∃ k, m = k + 3 :=
        ⟨m - 3, by have := three_le_of_scanTextBlock hm; omega⟩
      obtain ⟨ds, rfl, htail⟩ := exists_cons_of_take hkept
      have hslash : c ≠ '\\' := by
        cases cs with
        | nil => exact fun h => hlast h rfl
        | cons d cs => exact fun h => hescape d cs h rfl
      rw [scanTextBlock, ih hm htail, Option.map_some]
      · exact fun h => absurd h hslash
      · exact fun _ _ h => absurd h hslash
      · rintro rest hc rfl
        obtain ⟨rest', rfl, hrest'⟩ := exists_cons_of_take htail.symm
        obtain ⟨cs, rfl, -⟩ := exists_cons_of_take hrest'
        exact hquotes cs hc rfl

/-- The marks in front of a verbatim or interpolated literal, one pair or triple after the
other. -/
theorem scanMarked_eq (style : StringStyle) (cs : List Char) :
    style.scanMarked cs =
      if ['@', '"'].isPrefixOf cs then
        if style.verbatim then some ((scanVerbatim (cs.drop 2)).map (· + 2)) else none
      else if ['$', '@', '"'].isPrefixOf cs || ['@', '$', '"'].isPrefixOf cs then
        if style.verbatim then some ((scanVerbatim (cs.drop 3)).map (· + 3)) else none
      else if ['$', '"'].isPrefixOf cs then
        if style.interpolated then some ((scanQuoted '"' false (cs.drop 2)).map (· + 2)) else none
      else none := by
  unfold scanMarked
  split
  · simp
  · simp
  · simp
  · simp
  · rename_i h₁ h₂ h₃ h₄
    have hno : ∀ w : List Char, (∀ rest, cs ≠ w ++ rest) → w.isPrefixOf cs = false := by
      intro w hw
      refine Bool.eq_false_iff.2 fun hpre => ?_
      obtain ⟨rest, rfl⟩ := List.isPrefixOf_iff_prefix.1 hpre
      exact hw rest rfl
    rw [hno ['@', '"'] fun rest h => h₁ rest h, hno ['$', '@', '"'] fun rest h => h₂ rest h,
      hno ['@', '$', '"'] fun rest h => h₃ rest h, hno ['$', '"'] fun rest h => h₄ rest h]
    rfl

theorem scan_cons (style : StringStyle) (c : Char) (cs : List Char) :
    style.scan (c :: cs) =
      if style.textBlocks && ['"', '"', '"'].isPrefixOf (c :: cs) then
        (scanTextBlock (cs.drop 2)).map (· + 3)
      else if style.templates && c == '`' then (scanQuoted '`' true cs).map (· + 1)
      else (style.scanMarked (c :: cs)).getD
        (if style.quotes.contains c then (scanQuoted c false cs).map (· + 1) else none) := by
  unfold scan
  split
  · rename_i rest htext hcs
    cases hcs
    simp [htext]
  · rename_i hnil
    cases hnil
  · rename_i heq hno
    cases heq
    have hplain : (style.textBlocks && ['"', '"', '"'].isPrefixOf (c :: cs)) = false := by
      refine Bool.eq_false_iff.2 fun hboth => ?_
      obtain ⟨htext, hpre⟩ := Bool.and_eq_true_iff.1 hboth
      obtain ⟨rest, hrest⟩ := List.isPrefixOf_iff_prefix.1 hpre
      cases hrest
      exact hno rest htext rfl rfl
    rw [hplain, if_neg Bool.false_ne_true]
    split
    · rfl
    · cases style.scanMarked (c :: cs) <;> rfl

/-- A scanner behind `k` characters that are kept. -/
theorem map_add_of_take {scan scan' : List Char → Option Nat} {s t : List Char} {k n : Nat}
    (hlocal : ∀ m, scan (s.drop k) = some m → m + k = n → scan' (t.drop k) = some m)
    (h : (scan (s.drop k)).map (· + k) = some n) : (scan' (t.drop k)).map (· + k) = some n := by
  obtain ⟨m, hm, rfl⟩ := Option.map_eq_some_iff.1 h
  rw [hlocal m hm rfl, Option.map_some]

/-- What may open a literal, from two characters on. -/
def openings : List (List Char) :=
  [['"', '"', '"'], ['@', '"'], ['$', '@', '"'], ['@', '$', '"'], ['$', '"']]

section Taken

variable {s t : List Char} {n k m : Nat}

theorem take_drop_of_take (hkept : t.take n = s.take n) (hn : m + k = n) :
    (t.drop k).take m = (s.drop k).take m := by
  subst hn
  have hdrop : ∀ xs : List Char, (xs.drop k).take m = (xs.take (m + k)).drop k := fun xs => by
    rw [List.drop_take, Nat.add_sub_cancel]
  rw [hdrop, hdrop, hkept]

theorem scanVerbatim_drop_of_take (hkept : t.take n = s.take n)
    (hnext : (t.drop n).head? = some '"' → (s.drop n).head? = some '"')
    (hm : scanVerbatim (s.drop k) = some m) (hn : m + k = n) :
    scanVerbatim (t.drop k) = some m := by
  refine scanVerbatim_of_take hm (take_drop_of_take hkept hn) ?_
  rw [List.drop_drop, List.drop_drop, Nat.add_comm k m, hn]
  exact hnext

theorem scanQuoted_drop_of_take (hkept : t.take n = s.take n) {quote : Char} {multiline : Bool}
    (hm : scanQuoted quote multiline (s.drop k) = some m) (hn : m + k = n) :
    scanQuoted quote multiline (t.drop k) = some m :=
  scanQuoted_of_take hm (take_drop_of_take hkept hn)

/-- Neither text begins with a mark, or the literal behind the mark is read from its characters
alone, but for a quote right behind it. -/
theorem scanMarked_of_take (style : StringStyle) (hkept : t.take n = s.take n)
    (hmarks : ∀ w ∈ openings, w.isPrefixOf t = w.isPrefixOf s)
    (hnext : (t.drop n).head? = some '"' → (s.drop n).head? = some '"') :
    style.scanMarked t = none ∧ style.scanMarked s = none ∨
      ∃ result, style.scanMarked s = some result ∧
        (result = some n → style.scanMarked t = some result) := by
  have hverbatim : ∀ k m, scanVerbatim (s.drop k) = some m → m + k = n →
      scanVerbatim (t.drop k) = some m := fun _ _ => scanVerbatim_drop_of_take hkept hnext
  rw [scanMarked_eq, scanMarked_eq, hmarks _ (by decide), hmarks _ (by decide),
    hmarks _ (by decide), hmarks _ (by decide)]
  split
  · split
    · exact .inr ⟨_, rfl, fun hn => by rw [hn, map_add_of_take (hverbatim 2) hn]⟩
    · exact .inl ⟨rfl, rfl⟩
  · split
    · split
      · exact .inr ⟨_, rfl, fun hn => by rw [hn, map_add_of_take (hverbatim 3) hn]⟩
      · exact .inl ⟨rfl, rfl⟩
    · split
      · split
        · exact .inr ⟨_, rfl, fun hn => by
            rw [hn, map_add_of_take (fun _ => scanQuoted_drop_of_take hkept) hn]⟩
        · exact .inl ⟨rfl, rfl⟩
      · exact .inl ⟨rfl, rfl⟩

end Taken

/-- A string literal is read from its characters alone, but for what may open it and for a quote
right behind it. -/
theorem scan_of_take {style : StringStyle} {c : Char} {n : Nat}
    (hscan : style.scan (c :: cs) = some n) (hkept : (c :: ds).take n = (c :: cs).take n)
    (hmarks : ∀ w ∈ openings, w.isPrefixOf (c :: ds) = w.isPrefixOf (c :: cs))
    (hnext : ((c :: ds).drop n).head? = some '"' → ((c :: cs).drop n).head? = some '"') :
    style.scan (c :: ds) = some n := by
  have hquoted : ∀ quote multiline m, scanQuoted quote multiline cs = some m →
      m + 1 = n → scanQuoted quote multiline ds = some m :=
    fun _ _ _ => scanQuoted_drop_of_take (s := c :: cs) (t := c :: ds) (k := 1) hkept
  rw [scan_cons] at hscan ⊢
  rw [hmarks _ (by decide)]
  split at hscan
  · rename_i htext
    rw [if_pos htext]
    exact map_add_of_take (s := c :: cs) (t := c :: ds) (k := 3)
      (fun m hm hn => scanTextBlock_of_take hm (take_drop_of_take hkept hn)) hscan
  · rename_i htext
    rw [if_neg htext]
    split at hscan
    · rename_i htemplate
      rw [if_pos htemplate]
      exact map_add_of_take (s := c :: cs) (t := c :: ds) (k := 1) (hquoted '`' true) hscan
    · rename_i htemplate
      rw [if_neg htemplate]
      rcases scanMarked_of_take style hkept hmarks hnext with ⟨hds, hcs⟩ | ⟨result, hcs, hds⟩
      · rw [hcs, Option.getD_none] at hscan
        rw [hds, Option.getD_none]
        split at hscan
        · rename_i hquote
          rw [if_pos hquote]
          exact map_add_of_take (s := c :: cs) (t := c :: ds) (k := 1) (hquoted c false) hscan
        · cases hscan
      · rw [hcs, Option.getD_some] at hscan
        rw [hds hscan, hscan, Option.getD_some]

/-- A string literal that is kept is read alike in every layout of the text around it. -/
theorem scan_relaid {style : StringStyle} {c : Char}
    (h : Relaid allowed p (c :: cs) q (c :: ds)) {n : Nat} (hscan : style.scan (c :: cs) = some n)
    (hkept : (c :: ds).take n = (c :: cs).take n)
    (hrest : Relaid allowed (p + n) ((c :: cs).drop n) (q + n) ((c :: ds).drop n)) :
    style.scan (c :: ds) = some n := by
  have hsolid : (openings.all fun w => w.all fun d => !isBlank d) = true := by decide
  refine scan_of_take hscan hkept (fun w hw => ?_) (hrest.head?_eq_some (by decide)).1
  exact h.isPrefixOf_eq (Text.solid_of_all (List.all_eq_true.1 hsolid w hw))

end StringStyle

end Outline
