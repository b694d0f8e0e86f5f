import Outline.Text.Alphabetic
import Outline.Text.Blank

/-!
# Blank characters are no part of words

The tables of blank, alphabetic and number characters have no character in common.  A table is a
list of switches, so membership is first read off a list of intervals.

* `Text.mem_blanks_of_isBlank` — the blank characters, one by one.
* `Text.isBlank_of_isAlphanumeric` — no character of a word is blank.
-/

namespace Outline.Text

/-! ## Switches and intervals -/

/-- Whether `n` lies in one of the intervals that the switches bound. -/
def inInterval (n : Nat) : List Nat → Bool
  | first :: last :: switches => (first ≤ n && n < last) || inInterval n switches
  | [first] => first ≤ n
  | [] => false

theorem countP_of_lt {n : Nat} {switches : List Nat} (h : ∀ s ∈ switches, n < s) :
    switches.countP (· ≤ n) = 0 :=
  List.countP_eq_zero.2 fun s hs => by simpa using h s hs

theorem countP_odd_eq_inInterval {n : Nat} {switches : List Nat}
    (hsorted : switches.Pairwise (· < ·)) :
    (switches.countP (· ≤ n) % 2 == 1) = inInterval n switches := by
  fun_induction inInterval n switches with
  | case1 first last switches ih =>
      obtain ⟨hfirst, hlast, hrest⟩ : (∀ s ∈ last :: switches, first < s) ∧
          (∀ s ∈ switches, last < s) ∧ switches.Pairwise (· < ·) := by
        rwa [List.pairwise_cons, List.pairwise_cons] at hsorted
      have hlt := hfirst last (by simp)
      rw [← ih hrest, List.countP_cons, List.countP_cons]
      by_cases hn : last ≤ n
      · -- both switches lie below `n`
        have : first ≤ n := by omega
        simp [hn, this, Nat.add_assoc, Nat.not_lt.2 hn]
      · have hnone : switches.countP (· ≤ n) = 0 :=
          countP_of_lt fun s hs => by have := hlast s hs; omega
        rw [hnone]
        by_cases hf : first ≤ n
        · simp [hf, hn, Nat.lt_of_not_le hn]
        · simp [hf, hn]
  | case2 first => by_cases hf : first ≤ n <;> simp [hf]
  | case3 => rfl

theorem switchedOn_eq_inInterval {switches : Array Nat} {n : Nat}
    (hsorted : switches.toList.Pairwise (· < ·)) :
    switchedOn switches n = inInterval n switches.toList := by
  rw [switchedOn, ← Array.countP_toList, countP_odd_eq_inInterval hsorted]

/-! ## Blank characters -/

/-- The code points of the blank characters. -/
def blanks : List Nat :=
  [0x9, 0xa, 0xb, 0xc, 0xd, 0x20, 0x85, 0xa0, 0x1680, 0x2000, 0x2001, 0x2002, 0x2003, 0x2004,
    0x2005, 0x2006, 0x2007, 0x2008, 0x2009, 0x200a, 0x2028, 0x2029, 0x202f, 0x205f, 0x3000, 0xfeff]

theorem mem_blanks_of_isBlank {c : Char} (h : isBlank c = true) : c.toNat ∈ blanks := by
  rcases Bool.or_eq_true_iff.1 h with hwhite | hmark
  · rw [isWhiteSpace, switchedOn_eq_inInterval (by decide)] at hwhite
    simp only [whiteSpaceSwitches, inInterval, Bool.or_eq_true, Bool.and_eq_true,
      decide_eq_true_eq, Bool.false_eq_true, or_false] at hwhite
    simp only [blanks, List.mem_cons, List.not_mem_nil, or_false]
    omega
  · rw [beq_iff_eq.1 hmark]
    decide

/-! ## Characters of words -/

/-- No character of a given word is blank, by evaluation. -/
theorem solid_of_all {cs : List Char} (h : (cs.all fun c => !isBlank c) = true) :
    ∀ c ∈ cs, isBlank c = false := fun c hc => by
  simpa using List.all_eq_true.1 h c hc

/-- No blank character is beyond a switch of the given table. -/
theorem not_switchedOn_of_mem_blanks {switches : Array Nat} {n : Nat}
    (htable : (blanks.all fun n => n < 0x80 ||
      switches.toList.countP (Nat.ble · n) % 2 == 0) = true) (hn : n ∈ blanks) (hbig : ¬ n < 0x80) :
    switchedOn switches n = false := by
  have h := List.all_eq_true.1 htable n hn
  have hble : (fun s => decide (s ≤ n)) = (Nat.ble · n) := by
    funext s
    rw [Bool.eq_iff_iff, decide_eq_true_eq, Nat.ble_eq]
  rw [decide_eq_false hbig, Bool.false_or, beq_iff_eq] at h
  rw [switchedOn, ← Array.countP_toList, hble, h]
  rfl

/-- The blank characters of ASCII are neither letters nor digits. -/
theorem not_isAlphanum_of_mem_blanks {c : Char} (hc : c.toNat ∈ blanks) (hsmall : c.toNat < 0x80) :
    c.isAlpha = false ∧ c.isDigit = false := by
  have hall : (blanks.all fun n => !(n < 0x80) ||
      (!(Char.ofNat n).isAlpha && !(Char.ofNat n).isDigit)) = true := by decide
  have h := List.all_eq_true.1 hall _ hc
  rw [Char.ofNat_toNat, decide_eq_true hsmall] at h
  simpa using h

/-- No character of a word is blank. -/
theorem isBlank_of_isAlphanumeric {c : Char} (h : isAlphanumeric c = true) : isBlank c = false := by
  refine Bool.eq_false_iff.2 fun hblank => ?_
  have hmem := mem_blanks_of_isBlank hblank
  by_cases hsmall : c.toNat < 0x80
  · obtain ⟨halpha, hdigit⟩ := not_isAlphanum_of_mem_blanks hmem hsmall
    simp [isAlphanumeric, isAlphabetic, isNumeric, hsmall, halpha, hdigit] at h
  · have halpha : switchedOn alphabeticSwitches c.toNat = false :=
      not_switchedOn_of_mem_blanks (by decide +kernel) hmem hsmall
    have hnumber : switchedOn numberSwitches c.toNat = false :=
      not_switchedOn_of_mem_blanks (by decide +kernel) hmem hsmall
    simp [isAlphanumeric, isAlphabetic, isNumeric, hsmall, halpha, hnumber] at h

end Outline.Text
