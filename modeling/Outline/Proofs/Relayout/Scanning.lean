import Outline.Proofs.Relayout.Blanks
import Outline.Proofs.Relayout.Relaid
import Outline.Proofs.Token.Scanning

/-!
# Scanning words in another layout

Names, array brackets, words and numbers hold no blank characters, and where they end depends only
on whether a blank follows, not on which one.  So they are read alike in every layout.

* `Solid` — what is read holds no blank characters; each scanner has a lemma for it.
* `IdentifierStyle.scanDotted_relaid`, `Recognizer.longestWord_relaid`, `NumberLiteral.scan_relaid`
  — what is read is the same.
-/

namespace Outline

open Text (isBlank isBlank_of_isAlphanumeric)

variable {allowed : Nat → List Char → Nat → List Char → Prop} {p q : Nat} {cs ds : List Char}

/-- The characters that a scanner reads are not blank. -/
def Solid (scan : List Char → Option Nat) : Prop :=
  ∀ cs n, scan cs = some n → ∀ c ∈ cs.take n, isBlank c = false

/-- A scanner behind a solid one. -/
theorem solid_add {n m : Nat} (hn : ∀ c ∈ cs.take n, isBlank c = false)
    (hm : ∀ c ∈ (cs.drop n).take m, isBlank c = false) :
    ∀ c ∈ cs.take (n + m), isBlank c = false := by
  intro c hc
  rw [List.take_add, List.mem_append] at hc
  exact hc.elim (hn c) (hm c)

/-- A character in front of a solid scan. -/
theorem solid_succ {c : Char} (hc : isBlank c = false) {n : Nat}
    (hn : ∀ d ∈ cs.take n, isBlank d = false) :
    ∀ d ∈ (c :: cs).take (n + 1), isBlank d = false := by
  intro d hd
  rw [List.take_succ_cons, List.mem_cons] at hd
  rcases hd with rfl | hd
  · exact hc
  · exact hn d hd

namespace Relaid

theorem takeWhile_eq {f : Char → Bool} (hf : ∀ c, f c = true → isBlank c = false)
    (h : Relaid allowed p cs q ds) : ds.takeWhile f = cs.takeWhile f := by
  have hblank : ∀ {b : List Char}, BlankRun b → ∀ cs, (b ++ cs).takeWhile f = [] := by
    intro b hb cs
    obtain ⟨c, rest, rfl, hc, -⟩ := hb.exists_cons
    have : f c = false := Bool.eq_false_iff.2 fun hfc => by simp [hf c hfc] at hc
    simp [this]
  induction h with
  | nil => rfl
  | keep c _ ih => rw [List.takeWhile_cons, List.takeWhile_cons, ih]
  | replace old new => rw [hblank old, hblank new]

theorem head?_eq_some {c : Char} (hc : isBlank c = false) (h : Relaid allowed p cs q ds) :
    ds.head? = some c ↔ cs.head? = some c := by
  have himp : ∀ {allowed : Nat → List Char → Nat → List Char → Prop} {p q : Nat}
      {cs ds : List Char}, Relaid allowed p cs q ds → cs.head? = some c → ds.head? = some c := by
    intro _ _ _ cs ds h hcs
    obtain ⟨rest, rfl⟩ := List.head?_eq_some_iff.1 hcs
    obtain ⟨rest', rfl, -⟩ := h.exists_cons hc
    rfl
  exact ⟨himp h.symm, himp h⟩

theorem any_head?_eq {f : Char → Bool} (hf : ∀ c, f c = true → isBlank c = false)
    (h : Relaid allowed p cs q ds) : ds.head?.any f = cs.head?.any f := by
  have hchar : ∀ xs : List Char, xs.head?.any f = !(xs.takeWhile f).isEmpty := by
    intro xs
    cases xs with
    | nil => rfl
    | cons c xs =>
        rw [List.takeWhile_cons]
        cases hc : f c <;> simp [hc]
  rw [hchar, hchar, h.takeWhile_eq hf]

theorem isPrefixOf_eq {w : List Char} (hw : ∀ c ∈ w, isBlank c = false)
    (h : Relaid allowed p cs q ds) : w.isPrefixOf ds = w.isPrefixOf cs := by
  induction w generalizing p q cs ds with
  | nil => rfl
  | cons c w ih =>
      have hc := hw c (by simp)
      by_cases hcs : cs.head? = some c
      · obtain ⟨cs, rfl⟩ := List.head?_eq_some_iff.1 hcs
        obtain ⟨ds, rfl, tail⟩ := h.exists_cons hc
        simp only [List.isPrefixOf, beq_self_eq_true, Bool.true_and]
        exact ih (fun d hd => hw d (by simp [hd])) tail
      · have hds := mt (h.head?_eq_some hc).1 hcs
        have hno : ∀ xs : List Char, xs.head? ≠ some c → (c :: w).isPrefixOf xs = false := by
          intro xs hxs
          cases xs with
          | nil => rfl
          | cons d xs =>
              have : c ≠ d := fun hcd => hxs (by simp [hcd])
              simp [List.isPrefixOf, this]
        rw [hno cs hcs, hno ds hds]

/-- Behind a word that the text starts with. -/
theorem drop_of_isPrefixOf {w : List Char} (hw : ∀ c ∈ w, isBlank c = false)
    (h : Relaid allowed p cs q ds) ( hprefix : w.isPrefixOf cs = true) :
    Relaid allowed (p + w.length) (cs.drop w.length) (q + w.length) (ds.drop w.length) := by
  have hpre := List.isPrefixOf_iff_prefix.1 hprefix
  refine (h.split_solid hpre.length_le fun c hc => hw c ?_).2
  rwa [← List.prefix_iff_eq_take.1 hpre] at hc

end Relaid

/-! ## Names -/

namespace IdentifierStyle

/-- The marks of a style are not blank, so that its names hold no blank characters. -/
structure SolidMarks (style : IdentifierStyle) : Prop where
  /-- The marks that may start a name. -/
  starts : ∀ c ∈ style.extraStart, isBlank c = false
  /-- The marks that may follow. -/
  continues : ∀ c ∈ style.extraPart, isBlank c = false

variable {style : IdentifierStyle}

theorem SolidMarks.isBlank_of_starts (hs : style.SolidMarks) {c : Char}
    (h : style.starts c = true) : isBlank c = false := by
  rw [IdentifierStyle.starts, Bool.or_eq_true, Bool.or_eq_true, List.contains_iff_mem,
    beq_iff_eq] at h
  rcases h with (h | rfl) | h
  · exact isBlank_of_isAlphanumeric (by rw [Text.isAlphanumeric, h, Bool.true_or])
  · decide
  · exact hs.starts c h

theorem SolidMarks.isBlank_of_continues (hs : style.SolidMarks) {c : Char}
    (h : style.continues c = true) : isBlank c = false := by
  rw [IdentifierStyle.continues, Bool.or_eq_true, Bool.or_eq_true, List.contains_iff_mem,
    beq_iff_eq] at h
  rcases h with (h | rfl) | h
  · exact isBlank_of_isAlphanumeric h
  · decide
  · exact hs.continues c h

theorem scanName_relaid (hs : style.SolidMarks) (h : Relaid allowed p cs q ds) :
    style.scanName ds = style.scanName cs := by
  by_cases hhead : ∃ c, cs.head? = some c ∧ style.starts c = true
  · obtain ⟨c, hcs, hc⟩ := hhead
    obtain ⟨cs, rfl⟩ := List.head?_eq_some_iff.1 hcs
    obtain ⟨ds, rfl, tail⟩ := h.exists_cons (hs.isBlank_of_starts hc)
    rw [scanName, scanName, tail.takeWhile_eq fun c => hs.isBlank_of_continues]
  · have hnone : ∀ xs : List Char, xs.head?.any style.starts = false →
        style.scanName xs = none := by
      intro xs hxs
      cases xs with
      | nil => rfl
      | cons c xs => rw [scanName, if_neg (by simpa using hxs)]
    have hcs : cs.head?.any style.starts = false := by
      cases hcs : cs.head? with
      | none => rfl
      | some c => simpa using fun hc => hhead ⟨c, hcs, hc⟩
    rw [hnone cs hcs, hnone ds (by rwa [h.any_head?_eq fun c => hs.isBlank_of_starts])]

theorem solid_scanName (hs : style.SolidMarks) : Solid style.scanName := by
  intro cs n h c hc
  cases cs with
  | nil => simp [scanName] at h
  | cons d cs =>
      simp only [scanName] at h
      split at h
      · rename_i hd
        split at h
        · cases h
        · rw [Option.some.injEq] at h
          rw [← h, List.take_succ_cons, List.mem_cons] at hc
          rcases hc with rfl | hc
          · exact hs.isBlank_of_starts hd
          · rw [← List.prefix_iff_eq_take.1 (List.takeWhile_prefix _)] at hc
            exact hs.isBlank_of_continues (List.mem_takeWhile_imp hc)
      · cases h

theorem pos_of_scanName {n : Nat} (h : style.scanName cs = some n) : 0 < n := by
  cases cs with
  | nil => cases h
  | cons c cs =>
      simp only [scanName] at h
      split at h
      · split at h
        · cases h
        · exact Option.some.inj h ▸ Nat.succ_pos _
      · cases h

theorem pos_of_scanDotted {n : Nat} (h : style.scanDotted cs = some n) : 0 < n := by
  obtain ⟨k, hk, rfl⟩ := Option.map_eq_some_iff.1 h
  exact (pos_of_scanName hk).trans_le (Nat.le_add_right k _)

theorem solid_scanDots (hs : style.SolidMarks) (cs : List Char) :
    ∀ c ∈ cs.take (style.scanDots cs), isBlank c = false := by
  fun_induction scanDots style cs with
  | case1 cs n hn ih =>
      rw [Nat.add_right_comm]
      exact solid_succ (by decide) (solid_add (solid_scanName hs cs n hn) ih)
  | case2 => simp
  | case3 => simp

theorem scanDots_relaid (hs : style.SolidMarks) (h : Relaid allowed p cs q ds) :
    style.scanDots ds = style.scanDots cs := by
  fun_induction scanDots style cs generalizing p q ds with
  | case1 cs n hn ih =>
      obtain ⟨ds, rfl, tail⟩ := h.exists_cons (by decide)
      have hsplit := tail.split_solid (bounded_scanName style cs n hn) (solid_scanName hs cs n hn)
      rw [scanDots, scanName_relaid hs tail, hn]
      simp only [ih hsplit.2]
  | case2 cs hn =>
      obtain ⟨ds, rfl, tail⟩ := h.exists_cons (by decide)
      rw [scanDots, scanName_relaid hs tail, hn]
  | case3 cs hcs =>
      have hdot : cs.head? ≠ some '.' := fun hhead => by
        obtain ⟨rest, rfl⟩ := List.head?_eq_some_iff.1 hhead
        exact hcs rest rfl
      have hds := mt (h.head?_eq_some (c := '.') (by decide)).1 hdot
      rw [scanDots]
      rintro rest rfl
      exact hds rfl

theorem scanDotted_relaid (hs : style.SolidMarks) (h : Relaid allowed p cs q ds) :
    style.scanDotted ds = style.scanDotted cs := by
  rw [scanDotted, scanDotted, scanName_relaid hs h]
  cases hn : style.scanName cs with
  | none => rfl
  | some n =>
      have hsplit := h.split_solid (bounded_scanName style cs n hn) (solid_scanName hs cs n hn)
      rw [Option.map_some, Option.map_some, scanDots_relaid hs hsplit.2]

theorem solid_scanDotted (hs : style.SolidMarks) : Solid style.scanDotted := by
  intro cs n h
  obtain ⟨k, hk, rfl⟩ := Option.map_eq_some_iff.1 h
  exact solid_add (solid_scanName hs cs k hk) (solid_scanDots hs _)

theorem solid_scanArrays (cs : List Char) : ∀ c ∈ cs.take (scanArrays cs), isBlank c = false := by
  fun_induction scanArrays cs with
  | case1 cs ih =>
      rw [Nat.add_comm]
      exact solid_succ (by decide) (solid_succ (by decide) ih)
  | case2 => simp

theorem scanArrays_relaid (h : Relaid allowed p cs q ds) : scanArrays ds = scanArrays cs := by
  fun_induction scanArrays cs generalizing p q ds with
  | case1 cs ih =>
      obtain ⟨ds, rfl, inner⟩ := h.exists_cons (by decide)
      obtain ⟨ds, rfl, tail⟩ := inner.exists_cons (by decide)
      rw [scanArrays, ih tail]
  | case2 cs hcs =>
      have hpair : (['[', ']'].isPrefixOf cs) = false := by
        refine Bool.eq_false_iff.2 fun hpre => ?_
        obtain ⟨rest, rfl⟩ := List.isPrefixOf_iff_prefix.1 hpre
        exact hcs rest rfl
      rw [← h.isPrefixOf_eq (w := ['[', ']']) (Text.solid_of_all (by decide))] at hpair
      rw [scanArrays]
      rintro rest rfl
      simp at hpair

end IdentifierStyle

/-! ## Words -/

theorem Recognizer.longestWord_relaid {words : List String}
    (hwords : ∀ w ∈ words, ∀ c ∈ w.toList, isBlank c = false) (h : Relaid allowed p cs q ds) :
    longestWord words ds = longestWord words cs := by
  have hfilter : words.filter (fun w => w.toList.isPrefixOf ds) =
      words.filter (fun w => w.toList.isPrefixOf cs) :=
    List.filter_congr fun w hw => h.isPrefixOf_eq (hwords w hw)
  rw [longestWord, longestWord, hfilter]

/-- The longest word is one of the words. -/
theorem Recognizer.exists_of_longestWord {words : List String} {n : Nat}
    (h : longestWord words cs = some n) :
    ∃ w ∈ words, w.toList.length = n ∧ w.toList <+: cs := by
  obtain ⟨w, hw, rfl⟩ := List.mem_map.1 (List.max?_mem h)
  obtain ⟨hmem, hprefix⟩ := List.mem_filter.1 hw
  exact ⟨w, hmem, String.length_toList, List.isPrefixOf_iff_prefix.1 hprefix⟩

/-! ## Numbers -/

namespace NumberLiteral

theorem isBlank_of_isDigit {c : Char} (h : c.isDigit = true) : isBlank c = false := by
  refine isBlank_of_isAlphanumeric ?_
  have hsmall : c.toNat < 0x80 := by
    have hnine : '9'.toNat < 0x80 := by decide
    have := (Char.isDigit_iff_toNat.1 h).2
    omega
  rw [Text.isAlphanumeric, Text.isNumeric, if_pos hsmall, h, Bool.or_true]

theorem isBlank_of_isHexDigit {c : Char} (h : isHexDigit c = true) : isBlank c = false := by
  refine Bool.eq_false_iff.2 fun hblank => ?_
  have hmem := Text.mem_blanks_of_isBlank hblank
  have hnone : (Text.blanks.all fun n => !isHexDigit (Char.ofNat n)) = true := by decide
  have := List.all_eq_true.1 hnone _ hmem
  rw [Char.ofNat_toNat, h] at this
  cases this

/-- A class of digits without blank characters stays so with the underscore. -/
theorem isBlank_of_digit {digit : Char → Bool} (hd : ∀ c, digit c = true → isBlank c = false)
    {c : Char} (h : (digit c || c == '_') = true) : isBlank c = false := by
  rcases Bool.or_eq_true_iff.1 h with h | h
  · exact hd c h
  · rw [beq_iff_eq.1 h]
    decide

theorem digitRun_relaid {digit : Char → Bool} (hd : ∀ c, digit c = true → isBlank c = false)
    (h : Relaid allowed p cs q ds) : digitRun digit ds = digitRun digit cs := by
  rw [digitRun, digitRun, h.takeWhile_eq fun c => isBlank_of_digit hd]

theorem solid_digitRun {digit : Char → Bool} (hd : ∀ c, digit c = true → isBlank c = false)
    (cs : List Char) : ∀ c ∈ cs.take (digitRun digit cs), isBlank c = false := by
  intro c hc
  rw [digitRun, ← List.prefix_iff_eq_take.1 (List.takeWhile_prefix _)] at hc
  exact isBlank_of_digit hd (List.mem_takeWhile_imp (p := fun c => digit c || c == '_') hc)

theorem startsWithDigit_relaid (h : Relaid allowed p cs q ds) :
    startsWithDigit ds = startsWithDigit cs :=
  h.any_head?_eq fun _ => isBlank_of_isDigit

theorem scanFraction_relaid (h : Relaid allowed p cs q ds) :
    scanFraction ds = scanFraction cs := by
  by_cases hdot : cs.head? = some '.'
  · obtain ⟨cs, rfl⟩ := List.head?_eq_some_iff.1 hdot
    obtain ⟨ds, rfl, tail⟩ := h.exists_cons (by decide)
    rw [scanFraction, scanFraction, startsWithDigit_relaid tail,
      digitRun_relaid (fun _ => isBlank_of_isDigit) tail]
  · have hnone : ∀ xs : List Char, xs.head? ≠ some '.' → scanFraction xs = 0 := by
      intro xs hxs
      unfold scanFraction
      split
      · simp at hxs
      · rfl
    rw [hnone cs hdot, hnone ds (mt (h.head?_eq_some (by decide)).1 hdot)]

theorem solid_scanFraction (cs : List Char) :
    ∀ c ∈ cs.take (scanFraction cs), isBlank c = false := by
  unfold scanFraction
  split
  · split
    · rw [Nat.add_comm]
      exact solid_succ (by decide) (solid_digitRun (fun _ => isBlank_of_isDigit) _)
    · simp
  · simp

theorem scanExponent_relaid (h : Relaid allowed p cs q ds) :
    scanExponent ds = scanExponent cs := by
  have hnone : ∀ xs : List Char, xs.head? ≠ some 'e' → xs.head? ≠ some 'E' →
      scanExponent xs = 0 := by
    intro xs he hE
    cases xs with
    | nil => rfl
    | cons c xs => simp_all [scanExponent]
  have hsome : ∀ c, c = 'e' ∨ c = 'E' → cs.head? = some c → scanExponent ds = scanExponent cs := by
    intro c hc hcs
    obtain ⟨cs, rfl⟩ := List.head?_eq_some_iff.1 hcs
    have hblank : isBlank c = false := by rcases hc with rfl | rfl <;> decide
    have hletter : (c == 'e' || c == 'E') = true := by simpa using hc
    obtain ⟨ds, rfl, tail⟩ := h.exists_cons hblank
    have hplus : (ds.head? == some '+' || ds.head? == some '-') =
        (cs.head? == some '+' || cs.head? == some '-') := by
      rw [Bool.eq_iff_iff]
      simp only [Bool.or_eq_true, beq_iff_eq]
      rw [tail.head?_eq_some (by decide), tail.head?_eq_some (by decide)]
    rw [scanExponent, scanExponent, if_pos hletter, if_pos hletter, hplus]
    -- the text behind the sign, if there is one
    have hsign : ∃ p q, Relaid allowed p
        (cs.drop (if (cs.head? == some '+' || cs.head? == some '-') = true then 1 else 0)) q
        (ds.drop (if (cs.head? == some '+' || cs.head? == some '-') = true then 1 else 0)) := by
      split
      · rename_i hs
        obtain ⟨s, cs, rfl⟩ : ∃ s rest, cs = s :: rest := by
          cases cs with
          | nil => simp at hs
          | cons s rest => exact ⟨s, rest, rfl⟩
        have hs : isBlank s = false := by
          rcases Bool.or_eq_true_iff.1 hs with hs | hs <;>
            (obtain rfl : s = _ := by simpa using hs) <;> decide
        obtain ⟨ds, rfl, behind⟩ := tail.exists_cons hs
        exact ⟨_, _, behind⟩
      · exact ⟨_, _, tail⟩
    obtain ⟨p', q', hdigits⟩ := hsign
    simp only [startsWithDigit_relaid hdigits,
      digitRun_relaid (fun _ => isBlank_of_isDigit) hdigits]
  by_cases he : cs.head? = some 'e'
  · exact hsome 'e' (by simp) he
  by_cases hE : cs.head? = some 'E'
  · exact hsome 'E' (by simp) hE
  · rw [hnone cs he hE, hnone ds (mt (h.head?_eq_some (by decide)).1 he)
      (mt (h.head?_eq_some (by decide)).1 hE)]

theorem solid_scanExponent (cs : List Char) :
    ∀ c ∈ cs.take (scanExponent cs), isBlank c = false := by
  cases cs with
  | nil => simp
  | cons e cs =>
      by_cases he : (e == 'e' || e == 'E') = true
      · have hletter : isBlank e = false := by
          rcases Bool.or_eq_true_iff.1 he with he | he <;> rw [beq_iff_eq.1 he] <;> decide
        have hsign : ∀ c ∈ cs.take
            (if (cs.head? == some '+' || cs.head? == some '-') = true then 1 else 0),
            isBlank c = false := by
          cases cs with
          | nil => simp
          | cons s cs =>
              split
              · rename_i hs
                refine solid_succ (n := 0) ?_ (by simp)
                rcases Bool.or_eq_true_iff.1 hs with hs | hs <;>
                  (obtain rfl : s = _ := by simpa using hs) <;> decide
              · simp
        simp only [scanExponent, if_pos he]
        generalize (if (cs.head? == some '+' || cs.head? == some '-') = true then 1 else 0) = k at *
        split
        · rw [Nat.add_assoc, Nat.add_comm]
          exact solid_succ hletter
            (solid_add hsign (solid_digitRun (fun _ => isBlank_of_isDigit) _))
        · simp
      · simp [scanExponent, he]

theorem solid_decimal (cs : List Char) :
    ∀ c ∈ cs.take (scanDigits.decimal cs), isBlank c = false := by
  have hrun := solid_digitRun (fun _ => isBlank_of_isDigit) cs
  exact solid_add (solid_add hrun (solid_scanFraction _)) (solid_scanExponent _)

theorem solid_scanDigits (cs : List Char) : ∀ c ∈ cs.take (scanDigits cs), isBlank c = false := by
  unfold scanDigits
  split
  · rename_i c cs
    have hprefixed : ∀ {digit : Char → Bool}, isBlank c = false →
        (∀ d, digit d = true → isBlank d = false) →
        ∀ d ∈ ('0' :: c :: cs).take (2 + digitRun digit cs), isBlank d = false := by
      intro digit hc hd
      rw [Nat.add_comm]
      exact solid_succ (by decide) (solid_succ hc (solid_digitRun hd cs))
    split
    · rename_i hc
      refine hprefixed ?_ fun _ => isBlank_of_isHexDigit
      rcases Bool.or_eq_true_iff.1 hc with hc | hc <;> rw [beq_iff_eq.1 hc] <;> decide
    · split
      · rename_i hc
        refine hprefixed ?_ fun d hd => ?_
        · rcases Bool.or_eq_true_iff.1 hc with hc | hc <;> rw [beq_iff_eq.1 hc] <;> decide
        · rcases Bool.or_eq_true_iff.1 hd with hd | hd <;> rw [beq_iff_eq.1 hd] <;> decide
      · exact solid_decimal _
  · exact solid_decimal _

theorem decimal_relaid (h : Relaid allowed p cs q ds) :
    scanDigits.decimal ds = scanDigits.decimal cs := by
  have hrun := digitRun_relaid (fun _ => isBlank_of_isDigit) h
  have hwhole := h.split_solid (digitRun_le Char.isDigit cs)
    (solid_digitRun (fun _ => isBlank_of_isDigit) cs)
  have hfraction := scanFraction_relaid hwhole.2
  have hfrac := hwhole.2.split_solid (scanFraction_le _) (solid_scanFraction _)
  have hexponent := scanExponent_relaid hfrac.2
  simp only [List.drop_drop] at hexponent
  simp only [scanDigits.decimal, hrun, hfraction, hexponent]

theorem scanDigits_relaid (h : Relaid allowed p cs q ds) : scanDigits ds = scanDigits cs := by
  have hdecimal := decimal_relaid h
  by_cases hzero : cs.head? = some '0'
  · obtain ⟨cs, rfl⟩ := List.head?_eq_some_iff.1 hzero
    obtain ⟨ds, rfl, tail⟩ := h.exists_cons (by decide)
    -- what the letter behind the zero decides
    have hletter : ∀ c, isBlank c = false → cs.head? = some c →
        scanDigits ('0' :: ds) = scanDigits ('0' :: cs) := by
      intro c hc hcs
      obtain ⟨cs, rfl⟩ := List.head?_eq_some_iff.1 hcs
      obtain ⟨ds, rfl, behind⟩ := tail.exists_cons hc
      rw [scanDigits, scanDigits, digitRun_relaid (fun _ => isBlank_of_isHexDigit) behind,
        digitRun_relaid ?_ behind, hdecimal]
      intro d hd
      rcases Bool.or_eq_true_iff.1 hd with hd | hd <;> rw [beq_iff_eq.1 hd] <;> decide
    have hother : ∀ xs : List Char, xs.head?.all isBlank = true →
        scanDigits ('0' :: xs) = scanDigits.decimal ('0' :: xs) := by
      intro xs hxs
      cases xs with
      | nil => simp [scanDigits]
      | cons c xs =>
          have hne : ∀ d, isBlank d = false → (c == d) = false := by
            intro d hd
            refine Bool.eq_false_iff.2 fun hcd => ?_
            rw [← beq_iff_eq.1 hcd] at hd
            simp [hd] at hxs
          rw [scanDigits, hne 'x' (by decide), hne 'X' (by decide), hne 'b' (by decide),
            hne 'B' (by decide)]
          rfl
    cases cs with
    | nil => rw [tail.eq_nil]
    | cons c cs =>
        cases hc : isBlank c with
        | false => exact hletter c hc rfl
        | true =>
            obtain ⟨d, rest, rfl, hd⟩ := tail.exists_blank hc
            rw [hother (c :: cs) (by simpa using hc), hother (d :: rest) (by simpa using hd),
              hdecimal]
  · have hnone : ∀ xs : List Char, xs.head? ≠ some '0' →
        scanDigits xs = scanDigits.decimal xs := by
      intro xs hxs
      unfold scanDigits
      split
      · simp at hxs
      · rfl
    rw [hnone cs hzero, hnone ds (mt (h.head?_eq_some (by decide)).1 hzero), hdecimal]

theorem isBlank_of_suffix {c : Char} (h : suffixes.contains c = true) : isBlank c = false := by
  have hnone : (suffixes.all fun c => !isBlank c) = true := by decide
  simpa using List.all_eq_true.1 hnone c (List.contains_iff_mem.1 h)

theorem solid_scan : Solid scan := by
  intro cs n h
  unfold scan at h
  split at h
  · rw [Option.some.injEq] at h
    rw [← h]
    refine solid_add (solid_scanDigits cs) fun c hc => ?_
    rw [← List.prefix_iff_eq_take.1 (List.takeWhile_prefix _)] at hc
    exact isBlank_of_suffix (List.mem_takeWhile_imp hc)
  · cases h

/-- A number is read alike in every layout. -/
theorem scan_relaid (h : Relaid allowed p cs q ds) : scan ds = scan cs := by
  have hdigits := scanDigits_relaid h
  have hrest := (h.split_solid (scanDigits_le cs) (solid_scanDigits cs)).2
  rw [scan, scan, startsWithDigit_relaid h]
  simp only [hdigits, hrest.takeWhile_eq fun _ => isBlank_of_suffix]

end NumberLiteral

end Outline
