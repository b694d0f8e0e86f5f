import Mathlib.Data.List.TakeWhile
import Outline.Token.Reading

/-!
# Scans stay inside the text

Every scanner takes the text that is left and answers how many characters it reads from the front.
This file shows that no scanner answers more characters than there are, and that the match of a
rule reads at least one:

* `IdentifierStyle.bounded_scan`, `StringStyle.bounded_scan`, `NumberLiteral.bounded_scan` — one
  bound for each family of literals, built from one bound for each part of its grammar.
* `Recognizer.scan_bounds` — a match of a recognizer is not empty and lies inside the text.
* `RuleSet.match?_reads` and `RuleSet.match?_opens` — what is known of the rule behind a match.
-/

namespace Outline

/-- A scanner that never reads more characters than are left. -/
def Bounded (scan : List Char → Option Nat) : Prop :=
  ∀ cs n, scan cs = some n → n ≤ cs.length

theorem length_takeWhile_le {α : Type} (p : α → Bool) (xs : List α) :
    (xs.takeWhile p).length ≤ xs.length :=
  (List.takeWhile_prefix p).length_le

/-! ## Identifiers -/

namespace IdentifierStyle

variable (style : IdentifierStyle)

theorem spaces_le (cs : List Char) : spaces cs ≤ cs.length :=
  length_takeWhile_le _ cs

theorem bounded_scanName : Bounded style.scanName := by
  intro cs n h
  cases cs with
  | nil => simp [scanName] at h
  | cons c cs =>
      have hrun := length_takeWhile_le style.continues cs
      simp only [scanName] at h
      split at h
      · split at h
        · simp at h
        · rw [Option.some.injEq] at h
          rw [List.length_cons]
          omega
      · simp at h

theorem scanDots_le (cs : List Char) : style.scanDots cs ≤ cs.length := by
  fun_induction scanDots style cs with
  | case1 cs n hname ih =>
      have hn := bounded_scanName style cs n hname
      rw [List.length_drop] at ih
      rw [List.length_cons]
      omega
  | case2 => omega
  | case3 => omega

theorem bounded_scanDotted : Bounded style.scanDotted := by
  intro cs n h
  obtain ⟨k, hname, rfl⟩ := Option.map_eq_some_iff.1 h
  have hk := bounded_scanName style cs k hname
  have hdots := scanDots_le style (cs.drop k)
  rw [List.length_drop] at hdots
  omega

theorem scanArrays_le (cs : List Char) : scanArrays cs ≤ cs.length := by
  fun_induction scanArrays cs with
  | case1 cs ih =>
      simp only [List.length_cons]
      omega
  | case2 => omega

theorem bounded_scanArguments (arg : List Char → Option Nat) : Bounded (scanArguments arg) := by
  intro cs n h
  fun_induction scanArguments arg cs generalizing n with
  | case1 => simp at h
  | case2 cs k hk stop rest hrest skip ih =>
      -- an argument, a comma and the arguments after it
      have hlen := congrArg List.length hrest
      have hskip := spaces_le rest
      obtain ⟨m, hm, rfl⟩ := Option.map_eq_some_iff.1 h
      have := ih m hm
      simp only [List.length_drop, List.length_cons] at hlen this
      omega
  | case3 cs k hk stop rest hrest =>
      have hlen := congrArg List.length hrest
      simp only [List.length_drop, List.length_cons] at hlen
      rw [Option.some.injEq] at h
      omega
  | case4 => simp at h

theorem bounded_scanBrackets (arg : List Char → Option Nat) : Bounded (scanBrackets arg) := by
  intro cs n h
  unfold scanBrackets at h
  split at h
  · rename_i cs
    obtain ⟨m, hm, rfl⟩ := Option.map_eq_some_iff.1 h
    have hm := bounded_scanArguments arg _ m hm
    have hskip := spaces_le cs
    rw [List.length_drop] at hm
    rw [List.length_cons]
    omega
  · simp at h

/-- The marks after a type lie inside the text if the type does. -/
theorem finish_le (nested : Bool) (cs : List Char) (n : Nat) (h : n ≤ cs.length) :
    scanType.finish nested cs n ≤ cs.length := by
  simp only [scanType.finish]
  split
  · rename_i hmark
    rw [Bool.and_eq_true, beq_iff_eq, List.head?_drop] at hmark
    have hlt : n < cs.length := (List.getElem?_eq_some_iff.1 hmark.2).1
    have harrays := scanArrays_le (cs.drop (n + 1))
    rw [List.length_drop] at harrays
    omega
  · have harrays := scanArrays_le (cs.drop n)
    rw [List.length_drop] at harrays
    omega

theorem bounded_scanType (depth : Nat) (nested : Bool) :
    Bounded (style.scanType depth nested) := by
  induction depth generalizing nested with
  | zero =>
      intro cs n h
      simp only [scanType, Option.bind_eq_bind, Option.bind_eq_some_iff] at h
      obtain ⟨k, hk, h⟩ := h
      have hk := bounded_scanDotted style cs k hk
      split at h
      · simp at h
      · rw [Option.some.injEq] at h
        rw [← h]
        exact finish_le nested cs k hk
  | succ depth ih =>
      intro cs n h
      simp only [scanType, Option.bind_eq_bind, Option.bind_eq_some_iff] at h
      obtain ⟨k, hk, h⟩ := h
      have hk := bounded_scanDotted style cs k hk
      split at h
      · split at h
        · rename_i m hm
          have hm := bounded_scanBrackets _ _ m hm
          rw [List.length_drop] at hm
          rw [Option.some.injEq] at h
          rw [← h]
          exact finish_le nested cs (k + m) (by omega)
        · split at h
          · simp at h
          · rw [Option.some.injEq] at h
            rw [← h]
            exact finish_le nested cs k hk
      · rw [Option.some.injEq] at h
        rw [← h]
        exact finish_le nested cs k hk

/-- An identifier lies inside the text, whatever the style and the depth. -/
theorem bounded_scan : Bounded style.scan :=
  bounded_scanType style style.maxDepth false

end IdentifierStyle

/-! ## String literals -/

namespace StringStyle

theorem bounded_scanQuoted (quote : Char) (multiline : Bool) :
    Bounded (scanQuoted quote multiline) := by
  intro cs n h
  fun_induction scanQuoted quote multiline cs generalizing n with
  | case1 => simp at h
  | case2 => simp at h
  | case3 c cs ih =>
      obtain ⟨m, hm, rfl⟩ := Option.map_eq_some_iff.1 h
      have := ih m hm
      simp only [List.length_cons]
      omega
  | case4 c cs =>
      rw [Option.some.injEq] at h
      rw [List.length_cons]
      omega
  | case5 => simp at h
  | case6 c cs _ _ _ _ ih =>
      obtain ⟨m, hm, rfl⟩ := Option.map_eq_some_iff.1 h
      have := ih m hm
      rw [List.length_cons]
      omega

theorem bounded_scanVerbatim : Bounded scanVerbatim := by
  intro cs n h
  fun_induction scanVerbatim cs generalizing n with
  | case1 => simp at h
  | case2 cs ih =>
      obtain ⟨m, hm, rfl⟩ := Option.map_eq_some_iff.1 h
      have := ih m hm
      simp only [List.length_cons]
      omega
  | case3 cs =>
      rw [Option.some.injEq] at h
      rw [List.length_cons]
      omega
  | case4 c cs _ _ ih =>
      obtain ⟨m, hm, rfl⟩ := Option.map_eq_some_iff.1 h
      have := ih m hm
      rw [List.length_cons]
      omega

theorem bounded_scanTextBlock : Bounded scanTextBlock := by
  intro cs n h
  fun_induction scanTextBlock cs generalizing n with
  | case1 => simp at h
  | case2 => simp at h
  | case3 c cs ih =>
      obtain ⟨m, hm, rfl⟩ := Option.map_eq_some_iff.1 h
      have := ih m hm
      simp only [List.length_cons]
      omega
  | case4 cs =>
      rw [Option.some.injEq] at h
      simp only [List.length_cons]
      omega
  | case5 c cs _ _ _ ih =>
      obtain ⟨m, hm, rfl⟩ := Option.map_eq_some_iff.1 h
      have := ih m hm
      rw [List.length_cons]
      omega

/-- The opening marks of a literal and what follows them lie inside the text together. -/
theorem length_of_map_add {scan : List Char → Option Nat} (hscan : Bounded scan) {cs : List Char}
    {k n : Nat} (h : (scan cs).map (· + k) = some n) : n ≤ cs.length + k := by
  obtain ⟨m, hm, rfl⟩ := Option.map_eq_some_iff.1 h
  have := hscan cs m hm
  omega

theorem scanMarked_le (style : StringStyle) {cs : List Char} {n : Nat}
    (h : style.scanMarked cs = some (some n)) : n ≤ cs.length := by
  unfold scanMarked at h
  split at h
  · obtain ⟨-, h⟩ := Option.ite_none_right_eq_some.1 h
    simpa using length_of_map_add bounded_scanVerbatim (Option.some.inj h)
  · obtain ⟨-, h⟩ := Option.ite_none_right_eq_some.1 h
    simpa using length_of_map_add bounded_scanVerbatim (Option.some.inj h)
  · obtain ⟨-, h⟩ := Option.ite_none_right_eq_some.1 h
    simpa using length_of_map_add bounded_scanVerbatim (Option.some.inj h)
  · obtain ⟨-, h⟩ := Option.ite_none_right_eq_some.1 h
    simpa using length_of_map_add (bounded_scanQuoted _ _) (Option.some.inj h)
  · simp at h

/-- A string literal lies inside the text, whatever the style. -/
theorem bounded_scan (style : StringStyle) : Bounded style.scan := by
  intro cs n h
  unfold scan at h
  split at h
  · simpa using length_of_map_add bounded_scanTextBlock h
  · simp at h
  · split at h
    · exact length_of_map_add (bounded_scanQuoted _ _) h
    · split at h
      · rename_i result hmarked
        subst h
        exact scanMarked_le style hmarked
      · split at h
        · exact length_of_map_add (bounded_scanQuoted _ _) h
        · simp at h

end StringStyle

/-! ## Numbers -/

namespace NumberLiteral

theorem digitRun_le (digit : Char → Bool) (cs : List Char) : digitRun digit cs ≤ cs.length :=
  length_takeWhile_le _ cs

theorem scanFraction_le (cs : List Char) : scanFraction cs ≤ cs.length := by
  unfold scanFraction
  split
  · rename_i cs
    have := digitRun_le Char.isDigit cs
    rw [List.length_cons]
    split <;> omega
  · omega

/-- A digit after `k` characters leaves room for them. -/
theorem digitRun_drop_le {k : Nat} {cs : List Char} (h : startsWithDigit (cs.drop k) = true)
    (digit : Char → Bool) : k + digitRun digit (cs.drop k) ≤ cs.length := by
  have hrun := digitRun_le digit (cs.drop k)
  cases hd : cs.drop k with
  | nil => rw [hd] at h; simp [startsWithDigit] at h
  | cons d ds =>
      have hlen := congrArg List.length hd
      rw [hd] at hrun
      rw [List.length_drop, List.length_cons] at hlen
      rw [List.length_cons] at hrun
      omega

theorem scanExponent_le (cs : List Char) : scanExponent cs ≤ cs.length := by
  cases cs with
  | nil => simp [scanExponent]
  | cons c cs =>
      rw [List.length_cons]
      by_cases he : (c == 'e' || c == 'E') = true
      · simp only [scanExponent, if_pos he]
        by_cases hdigits : startsWithDigit (cs.drop
            (if (cs.head? == some '+' || cs.head? == some '-') = true then 1 else 0)) = true
        · have := digitRun_drop_le hdigits Char.isDigit
          rw [if_pos hdigits]
          omega
        · rw [if_neg hdigits]
          omega
      · simp [scanExponent, he]

theorem decimal_le (cs : List Char) : scanDigits.decimal cs ≤ cs.length := by
  simp only [scanDigits.decimal]
  have hrun := digitRun_le Char.isDigit cs
  have hfraction := scanFraction_le (cs.drop (digitRun Char.isDigit cs))
  have hexponent := scanExponent_le
    (cs.drop (digitRun Char.isDigit cs + scanFraction (cs.drop (digitRun Char.isDigit cs))))
  rw [List.length_drop] at hfraction hexponent
  omega

theorem scanDigits_le (cs : List Char) : scanDigits cs ≤ cs.length := by
  unfold scanDigits
  split
  · rename_i c cs
    split
    · have := digitRun_le isHexDigit cs
      simp only [List.length_cons]
      omega
    · split
      · have := digitRun_le (fun d => d == '0' || d == '1') cs
        simp only [List.length_cons]
        omega
      · exact decimal_le _
  · exact decimal_le _

/-- A number lies inside the text. -/
theorem bounded_scan : Bounded scan := by
  intro cs n h
  unfold scan at h
  split at h
  · simp only [Option.some.injEq] at h
    have hdigits := scanDigits_le cs
    have hsuffix := length_takeWhile_le suffixes.contains (cs.drop (scanDigits cs))
    rw [List.length_drop] at hsuffix
    omega
  · simp at h

end NumberLiteral

/-! ## Recognizers -/

namespace Recognizer

theorem bounded_scanThrough (closing : List Char) : Bounded (scanThrough closing) := by
  intro cs n h
  induction cs generalizing n with
  | nil => simp [scanThrough] at h
  | cons c cs ih =>
      unfold scanThrough at h
      split at h
      · rename_i hprefix
        rw [Option.some.injEq] at h
        rw [← h]
        exact (List.isPrefixOf_iff_prefix.1 hprefix).length_le
      · obtain ⟨m, hm, rfl⟩ := Option.map_eq_some_iff.1 h
        have := ih m hm
        rw [List.length_cons]
        omega

theorem bounded_longestWord (words : List String) : Bounded (longestWord words) := by
  intro cs n h
  have hmem := List.max?_mem h
  obtain ⟨w, hw, rfl⟩ := List.mem_map.1 hmem
  have hprefix := List.isPrefixOf_iff_prefix.1 (List.mem_filter.1 hw).2
  have hlen := hprefix.length_le
  rwa [String.length_toList] at hlen

theorem length_of_isPrefixOf {opening : String} {cs : List Char}
    (h : opening.toList.isPrefixOf cs = true) : opening.length ≤ cs.length := by
  have hlen := (List.isPrefixOf_iff_prefix.1 h).length_le
  rwa [String.length_toList] at hlen

theorem restOfLine_le (cs : List Char) : restOfLine cs ≤ cs.length :=
  length_takeWhile_le _ cs

theorem bounded_read (r : Recognizer) : Bounded r.read := by
  intro cs n h
  cases r with
  | whitespace =>
      simp only [read, Option.some.injEq] at h
      rw [← h]
      exact length_takeWhile_le _ cs
  | lineComment opening =>
      simp only [read] at h
      split at h
      · rename_i hprefix
        have hopening := length_of_isPrefixOf hprefix
        have hrest := restOfLine_le (cs.drop opening.length)
        rw [List.length_drop] at hrest
        rw [Option.some.injEq] at h
        omega
      · simp at h
  | blockComment opening closing =>
      simp only [read] at h
      split at h
      · rename_i hprefix
        have hopening := length_of_isPrefixOf hprefix
        obtain ⟨m, hm, rfl⟩ := Option.map_eq_some_iff.1 h
        have hm := bounded_scanThrough _ _ m hm
        rw [List.length_drop] at hm
        omega
      · simp at h
  | string style => exact style.bounded_scan cs n h
  | block opening closing => simp [read] at h
  | identifier style => exact style.bounded_scan cs n h
  | operators words => exact bounded_longestWord words cs n h
  | separators words => exact bounded_longestWord words cs n h
  | number => exact NumberLiteral.bounded_scan cs n h
  | directive mark =>
      simp only [read] at h
      split at h
      · rw [Option.some.injEq] at h
        rw [← h]
        exact restOfLine_le cs
      · simp at h

/-- The match of a recognizer is not empty and lies inside the text. -/
theorem scan_bounds {r : Recognizer} {cs : List Char} {n : Nat} (h : r.scan cs = some n) :
    0 < n ∧ n ≤ cs.length := by
  obtain ⟨hread, hpos⟩ := Option.filter_eq_some_iff.1 h
  exact ⟨of_decide_eq_true hpos, bounded_read r cs n hread⟩

end Recognizer

/-! ## Matches -/

namespace Rule

/-- A rule that is about no bracket pair reads what its recognizer scans. -/
theorem match?_leaf {r : Rule} (hr : ∀ opening closing, r.recognizer ≠ .block opening closing)
    (cs : List Char) : r.match? cs = (r.recognizer.scan cs).map (.reads · r.classifier) := by
  unfold match?
  split
  · rename_i hblock
    exact absurd hblock (hr _ _)
  · rfl

theorem match?_reads {r : Rule} {cs : List Char} {n : Nat} {classifier : Classifier}
    (h : r.match? cs = some (.reads n classifier)) :
    r.recognizer.scan cs = some n ∧ r.classifier = classifier := by
  unfold match? at h
  split at h
  · split at h <;> simp at h
  · obtain ⟨m, hm, heq⟩ := Option.map_eq_some_iff.1 h
    rw [RuleMatch.reads.injEq] at heq
    exact ⟨heq.1 ▸ hm, heq.2⟩

theorem match?_opens {r : Rule} {cs : List Char} {closing : Char}
    (h : r.match? cs = some (.opens closing)) :
    ∃ opening, r.recognizer = .block opening closing ∧ cs.head? = some opening := by
  unfold match? at h
  split at h
  · rename_i opening close hrec
    split at h
    · rename_i hhead
      rw [Option.some.injEq, RuleMatch.opens.injEq] at h
      exact ⟨opening, h ▸ hrec, beq_iff_eq.1 hhead⟩
    · simp at h
  · obtain ⟨m, -, heq⟩ := Option.map_eq_some_iff.1 h
    simp at heq

end Rule

namespace RuleSet

theorem mem_rules_of_mem_candidateRules {s : RuleSet} {c : Char} {r : Rule}
    (h : r ∈ s.candidateRules c) : r ∈ s.rules := by
  obtain ⟨n, -, hn⟩ := List.mem_filterMap.1 h
  exact List.mem_of_getElem? hn

theorem exists_rule_of_match? {s : RuleSet} {c : Char} {cs : List Char} {m : RuleMatch}
    (h : s.match? c cs = some m) : ∃ r ∈ s.rules, r.match? (c :: cs) = some m := by
  obtain ⟨before, r, after, hrules, hr, -⟩ := List.findSome?_eq_some_iff.1 h
  refine ⟨r, mem_rules_of_mem_candidateRules (c := c) ?_, hr⟩
  rw [hrules]
  exact List.mem_append_right _ (List.mem_cons_self ..)

/-- Behind a match that reads characters stands a rule whose recognizer reads them; there is at
least one, and they lie inside the text. -/
theorem match?_reads {s : RuleSet} {c : Char} {cs : List Char} {n : Nat} {classifier : Classifier}
    (h : s.match? c cs = some (.reads n classifier)) :
    (∃ r ∈ s.rules, r.recognizer.scan (c :: cs) = some n ∧ r.classifier = classifier) ∧
      0 < n ∧ n ≤ (c :: cs).length := by
  obtain ⟨r, hr, hmatch⟩ := exists_rule_of_match? h
  have hscan := Rule.match?_reads hmatch
  exact ⟨⟨r, hr, hscan⟩, Recognizer.scan_bounds hscan.1⟩

/-- Behind a match that opens a block stands the rule of a bracket pair. -/
theorem match?_opens {s : RuleSet} {c : Char} {cs : List Char} {closing : Char}
    (h : s.match? c cs = some (.opens closing)) :
    ∃ r ∈ s.rules, r.recognizer = .block c closing := by
  obtain ⟨r, hr, hmatch⟩ := exists_rule_of_match? h
  obtain ⟨opening, hrec, hhead⟩ := Rule.match?_opens hmatch
  rw [List.head?_cons, Option.some.injEq] at hhead
  exact ⟨r, hr, hhead ▸ hrec⟩

end RuleSet

end Outline
