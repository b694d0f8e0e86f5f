import Outline.Proofs.Relayout.Literals
import Outline.Proofs.Token.Cutting
import Outline.Proofs.Token.Layout

/-!
# Reading the text inside a block

The token tree of a text can be computed block by block: the text between the two brackets of a
block, read on its own, has the trees that the block owns, only further to the left.

A recognizer looks ahead as far as it likes, but no match that ends in front of a closing bracket
depends on what stands from the bracket on, and no rule matches in front of it for the only reason
that the text ends there.

* `Recognizer.StopsAt` — both facts about one recognizer.
* `Dialect.match?_cut` — the first rule that matches is the same one.
* `TokenTree.Reads.cut` — a reading that ends in front of a closing bracket.
* `TokenTree.read_inside` — the text inside a block.
-/

namespace Outline

open Rose (subtreesAll)

variable {xs ys : List Char} {c : Char}

/-! ## Fronts of texts -/

theorem length_takeWhile_append_le (f : Char → Bool) (xs ys : List Char) :
    (xs.takeWhile f).length ≤ ((xs ++ ys).takeWhile f).length := by
  rw [List.takeWhile_append]
  split
  · rw [List.length_append]
    omega
  · exact le_rfl

theorem isPrefixOf_append_of_le {w : List Char} (h : w.length ≤ xs.length) :
    w.isPrefixOf (xs ++ ys) = w.isPrefixOf xs := by
  rw [Bool.eq_iff_iff, List.isPrefixOf_iff_prefix, List.isPrefixOf_iff_prefix]
  constructor
  · intro hpre
    exact List.prefix_of_prefix_length_le hpre (List.prefix_append xs ys) h
  · intro hpre
    exact hpre.trans (List.prefix_append xs ys)

/-- A word does not reach over a character that it does not hold. -/
theorem isPrefixOf_append_cons {w : List Char} (hc : c ∉ w) :
    w.isPrefixOf (xs ++ c :: ys) = w.isPrefixOf xs := by
  by_cases hlen : w.length ≤ xs.length
  · exact isPrefixOf_append_of_le hlen
  · rw [Bool.eq_iff_iff, List.isPrefixOf_iff_prefix, List.isPrefixOf_iff_prefix]
    constructor
    · intro hpre
      have hfront : xs ++ [c] <+: xs ++ c :: ys := ⟨ys, by rw [List.append_assoc]; rfl⟩
      have hinside : xs ++ [c] <+: w := by
        apply List.prefix_of_prefix_length_le hfront hpre
        rw [List.length_append, List.length_singleton]
        omega
      exact absurd (hinside.subset (List.mem_append_right xs List.mem_cons_self)) hc
    · intro hpre
      exact absurd hpre.length_le hlen

theorem head?_append_of_ne_nil (h : xs ≠ []) : (xs ++ ys).head? = xs.head? := by
  rw [List.head?_append, Option.or_of_isSome (List.isSome_head?.2 h)]

/-! ## Numbers -/

namespace NumberLiteral

/-- A count of characters at the front that is the same where the text behind them is cut off. -/
def LocalRun (run : List Char → Nat) : Prop :=
  ∀ xs ys, run (xs ++ ys) ≤ xs.length → run xs = run (xs ++ ys)

/-- One run behind another one. -/
theorem LocalRun.seq {f g : List Char → Nat} (hf : LocalRun f) (hg : LocalRun g) :
    LocalRun fun cs => f cs + g (cs.drop (f cs)) := by
  intro xs ys h
  dsimp only at h ⊢
  have hfirst : f xs = f (xs ++ ys) := hf xs ys (by omega)
  have hdrop : (xs ++ ys).drop (f (xs ++ ys)) = xs.drop (f xs) ++ ys := by
    rw [hfirst, List.drop_append_of_le_length (by omega)]
  rw [hdrop] at h ⊢
  have hsecond : g (xs.drop (f xs)) = g (xs.drop (f xs) ++ ys) := by
    apply hg
    rw [List.length_drop]
    omega
  rw [hsecond, hfirst]

theorem localRun_takeWhile (f : Char → Bool) : LocalRun fun cs => (cs.takeWhile f).length := by
  intro xs ys h
  dsimp only at h ⊢
  rw [takeWhile_append_of_le h]

theorem localRun_digitRun (digit : Char → Bool) : LocalRun (digitRun digit) :=
  localRun_takeWhile _

theorem startsWithDigit_append (h : startsWithDigit xs = true) :
    startsWithDigit (xs ++ ys) = true := by
  cases xs with
  | nil => cases h
  | cons c xs => exact h

theorem startsWithDigit_of_append (h : startsWithDigit (xs ++ ys) = true) (hxs : xs ≠ []) :
    startsWithDigit xs = true := by
  cases xs with
  | nil => exact absurd rfl hxs
  | cons c xs => exact h

theorem digitRun_pos {cs : List Char} (h : startsWithDigit cs = true) :
    0 < digitRun Char.isDigit cs := by
  cases cs with
  | nil => cases h
  | cons c cs =>
      have hc : c.isDigit = true := h
      rw [digitRun, List.takeWhile_cons_of_pos (by rw [hc]; rfl), List.length_cons]
      omega

/-- Digits that end in the text in front start there. -/
theorem startsWithDigit_eq (h : startsWithDigit (xs ++ ys) = true →
    digitRun Char.isDigit (xs ++ ys) ≤ xs.length) :
    startsWithDigit xs = startsWithDigit (xs ++ ys) := by
  rw [Bool.eq_iff_iff]
  constructor
  · exact startsWithDigit_append
  · intro hdigit
    apply startsWithDigit_of_append hdigit
    rintro rfl
    exact absurd (digitRun_pos hdigit) (Nat.not_lt.2 (h hdigit))

theorem localRun_scanFraction : LocalRun scanFraction := by
  intro xs ys h
  cases xs with
  | nil => exact (Nat.le_zero.1 h).symm
  | cons c xs =>
      rw [List.cons_append] at h ⊢
      by_cases hc : c = '.'
      · subst hc
        rw [scanFraction] at h
        have hstart : startsWithDigit xs = startsWithDigit (xs ++ ys) := by
          apply startsWithDigit_eq
          intro hdigit
          rw [if_pos hdigit, List.length_cons] at h
          omega
        rw [scanFraction, scanFraction, hstart]
        split at h
        · rename_i hdigit
          rw [List.length_cons] at h
          rw [if_pos hdigit, if_pos hdigit, localRun_digitRun _ xs ys (by omega)]
        · rename_i hdigit
          rw [if_neg hdigit, if_neg hdigit]
      · have hno : ∀ cs : List Char, scanFraction (c :: cs) = 0 := by
          intro cs
          rw [scanFraction]
          intro rest hrest
          exact hc (List.cons.inj hrest).1
        rw [hno, hno]

/-- The length of the sign in front of the digits of an exponent. -/
def signLength (cs : List Char) : Nat :=
  if cs.head? == some '+' || cs.head? == some '-' then 1 else 0

theorem scanExponent_of_mark {c : Char} (hc : (c == 'e' || c == 'E') = true) (cs : List Char) :
    scanExponent (c :: cs) = if startsWithDigit (cs.drop (signLength cs)) then
      1 + signLength cs + digitRun Char.isDigit (cs.drop (signLength cs)) else 0 :=
  if_pos hc

theorem scanExponent_of_not_mark {c : Char} (hc : ¬ (c == 'e' || c == 'E') = true)
    (cs : List Char) : scanExponent (c :: cs) = 0 :=
  if_neg hc

theorem signLength_le (cs : List Char) : signLength cs ≤ 1 := by
  unfold signLength
  split <;> omega

theorem localRun_scanExponent : LocalRun scanExponent := by
  intro xs ys h
  cases xs with
  | nil => exact (Nat.le_zero.1 h).symm
  | cons c xs =>
      rw [List.cons_append] at h ⊢
      rw [List.length_cons] at h
      by_cases hc : (c == 'e' || c == 'E') = true
      case neg => rw [scanExponent_of_not_mark hc, scanExponent_of_not_mark hc]
      rw [scanExponent_of_mark hc] at h
      rw [scanExponent_of_mark hc, scanExponent_of_mark hc]
      cases xs with
      | nil =>
          rw [List.nil_append, List.length_nil] at h
          by_cases hdigit : startsWithDigit (ys.drop (signLength ys)) = true
          · have hpos := digitRun_pos hdigit
            rw [if_pos hdigit] at h
            omega
          · rw [List.nil_append, if_neg hdigit]
            rfl
      | cons a xs =>
          have hsign : signLength (a :: xs ++ ys) = signLength (a :: xs) := rfl
          have hle := signLength_le (a :: xs)
          rw [hsign, List.drop_append_of_le_length (by rw [List.length_cons]; omega)] at h ⊢
          generalize signLength (a :: xs) = sign at h hle ⊢
          have hrest : ((a :: xs).drop sign).length = (a :: xs).length - sign := List.length_drop
          have hstart : startsWithDigit ((a :: xs).drop sign) =
              startsWithDigit ((a :: xs).drop sign ++ ys) := by
            apply startsWithDigit_eq
            intro hdigit
            rw [if_pos hdigit] at h
            omega
          rw [hstart]
          split at h
          · rename_i hdigit
            rw [if_pos hdigit, if_pos hdigit,
              localRun_digitRun _ ((a :: xs).drop sign) ys (by omega)]
          · rename_i hdigit
            rw [if_neg hdigit, if_neg hdigit]

theorem localRun_decimal : LocalRun scanDigits.decimal :=
  ((localRun_digitRun Char.isDigit).seq localRun_scanFraction).seq localRun_scanExponent

theorem scanDigits_prefixed (c : Char) (cs : List Char) :
    scanDigits ('0' :: c :: cs) =
      if c == 'x' || c == 'X' then 2 + digitRun isHexDigit cs
      else if c == 'b' || c == 'B' then 2 + digitRun (fun d => d == '0' || d == '1') cs
      else scanDigits.decimal ('0' :: c :: cs) := rfl

theorem scanDigits_single (c : Char) : scanDigits [c] = scanDigits.decimal [c] := by
  rw [scanDigits]
  intro d cs h
  cases h

theorem scanDigits_other {c : Char} (hc : c ≠ '0') (cs : List Char) :
    scanDigits (c :: cs) = scanDigits.decimal (c :: cs) := by
  rw [scanDigits]
  intro d ds h
  exact hc (List.cons.inj h).1

theorem localRun_scanDigits : LocalRun scanDigits := by
  intro xs ys h
  cases xs with
  | nil => exact (Nat.le_zero.1 h).symm
  | cons a xs =>
      by_cases ha : a = '0'
      case neg =>
        rw [List.cons_append, scanDigits_other ha] at h
        rw [List.cons_append, scanDigits_other ha, scanDigits_other ha]
        exact localRun_decimal (a :: xs) ys h
      subst ha
      cases xs with
      | nil =>
          rw [scanDigits_single]
          cases ys with
          | nil => rw [List.append_nil, scanDigits_single]
          | cons b ys =>
              rw [List.cons_append, List.nil_append, scanDigits_prefixed] at h ⊢
              rw [List.length_singleton] at h
              -- a prefix for another base takes two characters
              split_ifs at h ⊢ with hhex hbin
              · omega
              · omega
              · exact localRun_decimal ['0'] (b :: ys) h
      | cons b xs =>
          rw [List.cons_append, List.cons_append, scanDigits_prefixed] at h ⊢
          rw [List.length_cons, List.length_cons] at h
          rw [scanDigits_prefixed]
          split_ifs at h ⊢ with hhex hbin
          · rw [localRun_digitRun _ xs ys (by omega)]
          · rw [localRun_digitRun _ xs ys (by omega)]
          · exact localRun_decimal ('0' :: b :: xs) ys h

theorem scanDigits_pos {cs : List Char} (h : startsWithDigit cs = true) : 0 < scanDigits cs := by
  have hdecimal : 0 < scanDigits.decimal cs := by
    have hpos := digitRun_pos h
    simp only [scanDigits.decimal]
    omega
  unfold scanDigits
  split
  · split
    · omega
    · split
      · omega
      · exact hdecimal
  · exact hdecimal

theorem scan_of_startsWithDigit {cs : List Char} (h : startsWithDigit cs = true) :
    scan cs = some (scanDigits cs +
      ((cs.drop (scanDigits cs)).takeWhile suffixes.contains).length) :=
  if_pos h

theorem startsWithDigit_of_scan {cs : List Char} {n : Nat} (h : scan cs = some n) :
    startsWithDigit cs = true :=
  (Option.ite_none_right_eq_some.1 h).1

/-- Numbers can be cut off. -/
theorem local_scan : Local scan := by
  intro xs ys n h hn
  have hdigit := startsWithDigit_of_scan h
  rw [scan_of_startsWithDigit hdigit, Option.some.injEq] at h
  subst h
  have hxs : xs ≠ [] := by
    rintro rfl
    have hpos := scanDigits_pos hdigit
    rw [List.length_nil] at hn
    omega
  rw [scan_of_startsWithDigit (startsWithDigit_of_append hdigit hxs)]
  exact congrArg some (localRun_scanDigits.seq (localRun_takeWhile suffixes.contains) xs ys hn)

/-- A number stays one where text is added, though it may become longer. -/
theorem scan_append {n : Nat} (h : scan xs = some n) : ∃ m, 0 < m ∧ scan (xs ++ ys) = some m := by
  have hdigit : startsWithDigit (xs ++ ys) = true :=
    startsWithDigit_append (startsWithDigit_of_scan h)
  refine ⟨_, ?_, scan_of_startsWithDigit hdigit⟩
  have hpos := scanDigits_pos hdigit
  omega

end NumberLiteral

/-! ## Identifiers -/

/-- An identifier is not empty. -/
theorem IdentifierStyle.pos_of_scan {style : IdentifierStyle} {cs : List Char} {n : Nat}
    (h : style.scan cs = some n) : 0 < n := by
  rw [scan, scanType_eq, Option.bind_eq_some_iff] at h
  obtain ⟨m, hm, h⟩ := h
  have hpos := pos_of_scanDotted hm
  have hfinish : ∀ k, m ≤ k → 0 < scanType.finish false cs k := by
    intro k hk
    have hle := le_finish false cs k
    omega
  split at h
  · split at h
    · rw [← Option.some.inj h]
      exact hfinish _ (Nat.le_add_right _ _)
    · rw [← Option.some.inj h]
      exact hfinish _ le_rfl
  · rw [← Option.some.inj h]
    exact hfinish _ le_rfl

/-! ## Recognizers in front of a closing bracket -/

namespace Recognizer

/-- A recognizer that reads in front of the character `c` whether or not the text goes on. -/
structure StopsAt (r : Recognizer) (c : Char) : Prop where
  /-- What ends in front of the character is read without it, too. -/
  cut : ∀ xs ys n, r.read (xs ++ c :: ys) = some n → 0 < n → n ≤ xs.length → r.read xs = some n
  /-- Where something is read without the character, something is read with it. -/
  lasts : ∀ xs ys n, r.read xs = some n → 0 < n → ∃ m, 0 < m ∧ r.read (xs ++ c :: ys) = some m

variable {r : Recognizer}

theorem scan_eq_some_iff {cs : List Char} {n : Nat} :
    r.scan cs = some n ↔ r.read cs = some n ∧ 0 < n := by
  rw [scan, Option.filter_eq_some_iff, decide_eq_true_eq]

theorem StopsAt.scan_cut (h : r.StopsAt c) {n : Nat} (hscan : r.scan (xs ++ c :: ys) = some n)
    (hn : n ≤ xs.length) : r.scan xs = some n := by
  obtain ⟨hread, hpos⟩ := scan_eq_some_iff.1 hscan
  exact scan_eq_some_iff.2 ⟨h.cut xs ys n hread hpos hn, hpos⟩

theorem StopsAt.scan_eq_none (h : r.StopsAt c) (hscan : r.scan (xs ++ c :: ys) = none) :
    r.scan xs = none := by
  cases hxs : r.scan xs with
  | none => rfl
  | some n =>
      obtain ⟨hread, hpos⟩ := scan_eq_some_iff.1 hxs
      obtain ⟨m, hm, hlong⟩ := h.lasts xs ys n hread hpos
      have hsome := scan_eq_some_iff.2 ⟨hlong, hm⟩
      rw [hscan] at hsome
      cases hsome

theorem stopsAt_whitespace : StopsAt whitespace c where
  cut := by
    intro xs ys n h _ hn
    rw [read, Option.some.injEq] at h ⊢
    rw [← takeWhile_append_of_le (h ▸ hn)]
    exact h
  lasts := by
    intro xs ys n h hpos
    rw [read, Option.some.injEq] at h
    refine ⟨_, ?_, rfl⟩
    have hle := length_takeWhile_append_le Text.isBlank xs (c :: ys)
    omega

theorem restOfLine_append_of_le (h : restOfLine (xs ++ ys) ≤ xs.length) :
    restOfLine (xs ++ ys) = restOfLine xs := by
  unfold restOfLine at h ⊢
  rw [takeWhile_append_of_le h]

theorem stopsAt_lineComment (opening : String) : StopsAt (lineComment opening) c where
  cut := by
    intro xs ys n h _ hn
    rw [read] at h ⊢
    obtain ⟨hpre, hlen⟩ := Option.ite_none_right_eq_some.1 h
    rw [Option.some.injEq] at hlen
    have hopening : opening.toList.length ≤ xs.length := by
      rw [String.length_toList]
      omega
    rw [isPrefixOf_append_of_le hopening] at hpre
    rw [String.length_toList] at hopening
    rw [List.drop_append_of_le_length hopening] at hlen
    rw [restOfLine_append_of_le (by rw [List.length_drop]; omega)] at hlen
    rw [if_pos hpre, hlen]
  lasts := by
    intro xs ys n h hpos
    rw [read] at h ⊢
    obtain ⟨hpre, hlen⟩ := Option.ite_none_right_eq_some.1 h
    rw [Option.some.injEq] at hlen
    have hopening := length_of_isPrefixOf hpre
    have hlong : opening.toList.isPrefixOf (xs ++ c :: ys) = true := by
      rw [isPrefixOf_append_of_le (by rwa [String.length_toList])]
      exact hpre
    refine ⟨_, ?_, if_pos hlong⟩
    have hle := length_takeWhile_append_le (fun c => !Text.isLineEnd c)
      (xs.drop opening.length) (c :: ys)
    rw [List.drop_append_of_le_length hopening]
    unfold restOfLine at hlen ⊢
    omega

theorem stopsAt_directive (mark : Char) : StopsAt (directive mark) c where
  cut := by
    intro xs ys n h hpos hn
    rw [read] at h ⊢
    obtain ⟨hhead, hlen⟩ := Option.ite_none_right_eq_some.1 h
    rw [Option.some.injEq] at hlen
    have hxs : xs ≠ [] := by
      rintro rfl
      rw [List.length_nil] at hn
      omega
    rw [head?_append_of_ne_nil hxs] at hhead
    rw [if_pos hhead, ← restOfLine_append_of_le (hlen ▸ hn), hlen]
  lasts := by
    intro xs ys n h hpos
    rw [read] at h ⊢
    obtain ⟨hhead, hlen⟩ := Option.ite_none_right_eq_some.1 h
    rw [Option.some.injEq] at hlen
    have hxs : xs ≠ [] := by
      rintro rfl
      cases hhead
    rw [head?_append_of_ne_nil hxs, if_pos hhead]
    refine ⟨_, ?_, rfl⟩
    have hle := length_takeWhile_append_le (fun c => !Text.isLineEnd c) xs (c :: ys)
    unfold restOfLine at hlen ⊢
    omega

theorem stopsAt_blockComment (opening : String) {closing : String} (hclosing : closing ≠ "") :
    StopsAt (blockComment opening closing) c := by
  have hne : closing.toList ≠ [] := fun h => hclosing (String.toList_eq_nil_iff.1 h)
  constructor
  case cut =>
    intro xs ys n h _ hn
    rw [read] at h ⊢
    obtain ⟨hpre, hscan⟩ := Option.ite_none_right_eq_some.1 h
    obtain ⟨k, hk, rfl⟩ := Option.map_eq_some_iff.1 hscan
    have hopening : opening.length ≤ xs.length := by omega
    rw [isPrefixOf_append_of_le (by rwa [String.length_toList])] at hpre
    rw [List.drop_append_of_le_length hopening] at hk
    rw [if_pos hpre, scanThrough_of_take hne hk, Option.map_some]
    rw [List.take_append_of_le_length]
    rw [List.length_drop]
    omega
  case lasts =>
    intro xs ys n h hpos
    rw [read] at h ⊢
    obtain ⟨hpre, hscan⟩ := Option.ite_none_right_eq_some.1 h
    obtain ⟨k, hk, rfl⟩ := Option.map_eq_some_iff.1 hscan
    have hopening := length_of_isPrefixOf hpre
    have hbound := bounded_scanThrough closing.toList _ k hk
    refine ⟨opening.length + k, hpos, ?_⟩
    rw [isPrefixOf_append_of_le (by rwa [String.length_toList]), if_pos hpre,
      List.drop_append_of_le_length hopening, scanThrough_of_take hne hk, Option.map_some]
    exact List.take_append_of_le_length hbound

/-- No opening of a string literal reaches over the character, and it is no quote itself. -/
theorem stopsAt_string (style : StringStyle) (hc : c ∉ ['"', '@', '$']) :
    StopsAt (string style) c := by
  have hmarks : ∀ w ∈ StringStyle.openings, ∀ xs ys : List Char,
      w.isPrefixOf (xs ++ c :: ys) = w.isPrefixOf xs := by
    intro w hw xs ys
    apply isPrefixOf_append_cons
    intro hcw
    have hall : (StringStyle.openings.all fun w => w.all ['"', '@', '$'].contains) = true := by
      decide
    exact hc (List.contains_iff_mem.1 (List.all_eq_true.1 (List.all_eq_true.1 hall w hw) c hcw))
  constructor
  case cut =>
    intro xs ys n h hpos hn
    cases xs with
    | nil =>
        rw [List.length_nil] at hn
        omega
    | cons e xs =>
        apply StringStyle.scan_of_take h
        · exact (List.take_append_of_le_length hn).symm
        · intro w hw
          exact (hmarks w hw (e :: xs) ys).symm
        · intro hquote
          show ((e :: xs ++ c :: ys).drop n).head? = some '"'
          rw [List.drop_append_of_le_length hn, List.head?_append, hquote]
          rfl
  case lasts =>
    intro xs ys n h hpos
    refine ⟨n, hpos, ?_⟩
    have hn := StringStyle.bounded_scan style xs n h
    cases xs with
    | nil =>
        rw [List.length_nil] at hn
        omega
    | cons e xs =>
        apply StringStyle.scan_of_take h
        · exact List.take_append_of_le_length hn
        · intro w hw
          exact hmarks w hw (e :: xs) ys
        · intro hquote
          change ((e :: xs ++ c :: ys).drop n).head? = some '"' at hquote
          rw [List.drop_append_of_le_length hn, List.head?_append] at hquote
          cases hhead : ((e :: xs).drop n).head? with
          | some d => rwa [hhead] at hquote
          | none =>
              rw [hhead, Option.none_or, List.head?_cons, Option.some.injEq] at hquote
              exact absurd (by rw [hquote]; decide) hc

theorem stopsAt_identifier (style : IdentifierStyle) : StopsAt (identifier style) c where
  cut xs ys n h _ hn := style.local_scan xs (c :: ys) n h hn
  lasts := by
    intro xs ys n h _
    rw [read] at h
    have hne : style.scan xs ≠ none := by
      rw [h]
      exact Option.some_ne_none n
    obtain ⟨m, hm⟩ : ∃ m, style.scan (xs ++ c :: ys) = some m :=
      Option.ne_none_iff_exists'.1 (IdentifierStyle.scan_append_ne_none hne)
    exact ⟨m, IdentifierStyle.pos_of_scan hm, hm⟩

/-- Of the words that the text starts with, the longest is the same one. -/
theorem longestWord_cut {words : List String} {n : Nat}
    (h : longestWord words (xs ++ ys) = some n) (hn : n ≤ xs.length) :
    longestWord words xs = some n := by
  rw [← h, longestWord, longestWord]
  congr 2
  apply List.filter_congr
  intro w hw
  by_cases hlong : w.toList.isPrefixOf (xs ++ ys) = true
  · have hmem : w.length ∈ (words.filter fun w => w.toList.isPrefixOf (xs ++ ys)).map
        (·.length) := List.mem_map_of_mem (List.mem_filter.2 ⟨hw, hlong⟩)
    have hle := (List.max?_eq_some_iff.1 h).2 _ hmem
    rw [isPrefixOf_append_of_le]
    rw [String.length_toList]
    omega
  · have hshort : w.toList.isPrefixOf xs = false := by
      refine Bool.eq_false_iff.2 fun hpre => hlong ?_
      rw [isPrefixOf_append_of_le (List.isPrefixOf_iff_prefix.1 hpre).length_le]
      exact hpre
    rw [Bool.not_eq_true] at hlong
    rw [hshort, hlong]

theorem longestWord_lasts {words : List String} {n : Nat} (h : longestWord words xs = some n) :
    ∃ m, n ≤ m ∧ longestWord words (xs ++ ys) = some m := by
  obtain ⟨w, hw, rfl⟩ := List.mem_map.1 (List.max?_mem h)
  obtain ⟨hword, hpre⟩ := List.mem_filter.1 hw
  have hmem : w.length ∈ (words.filter fun w => w.toList.isPrefixOf (xs ++ ys)).map
      (·.length) := by
    apply List.mem_map_of_mem
    rw [List.mem_filter, isPrefixOf_append_of_le (List.isPrefixOf_iff_prefix.1 hpre).length_le]
    exact ⟨hword, hpre⟩
  cases hm : longestWord words (xs ++ ys) with
  | none =>
      rw [longestWord, List.max?_eq_none_iff] at hm
      rw [hm] at hmem
      cases hmem
  | some m => exact ⟨m, (List.max?_eq_some_iff.1 hm).2 _ hmem, rfl⟩

theorem stopsAt_number : StopsAt number c where
  cut xs ys n h _ hn := NumberLiteral.local_scan xs (c :: ys) n h hn
  lasts _ _ _ h _ := NumberLiteral.scan_append h

/-- Every recognizer of other texts than string literals stops at every character. -/
theorem stopsAt_of_ne_string (hstring : ∀ style, r ≠ .string style)
    (hr : ∀ opening, r ≠ .blockComment opening "") : r.StopsAt c := by
  have hlongest : ∀ (words : List String) (xs ys : List Char) (n : Nat),
      longestWord words xs = some n → 0 < n →
        ∃ m, 0 < m ∧ longestWord words (xs ++ c :: ys) = some m := by
    intro words xs ys n h hpos
    obtain ⟨m, hm, hlong⟩ := longestWord_lasts h
    exact ⟨m, by omega, hlong⟩
  cases r with
  | whitespace => exact stopsAt_whitespace
  | lineComment opening => exact stopsAt_lineComment opening
  | blockComment opening closing =>
      apply stopsAt_blockComment
      rintro rfl
      exact hr opening rfl
  | string style => exact absurd rfl (hstring style)
  | block opening closing =>
      constructor
      · intro xs ys n h
        cases h
      · intro xs ys n h
        cases h
  | identifier style => exact stopsAt_identifier style
  | operators words => exact ⟨fun _ _ _ h _ hn => longestWord_cut h hn, hlongest words⟩
  | separators words => exact ⟨fun _ _ _ h _ hn => longestWord_cut h hn, hlongest words⟩
  | number => exact stopsAt_number
  | directive mark => exact stopsAt_directive mark

/-- Every recognizer stops at a character that is no part of the opening of a string literal. -/
theorem stopsAt (hc : c ∉ ['"', '@', '$']) (hr : ∀ opening, r ≠ .blockComment opening "") :
    r.StopsAt c := by
  by_cases hstring : ∃ style, r = .string style
  · obtain ⟨style, rfl⟩ := hstring
    exact stopsAt_string style hc
  · exact stopsAt_of_ne_string (fun style heq => hstring ⟨style, heq⟩) hr

end Recognizer

/-! ## Matches in front of a closing bracket -/

theorem Rule.match?_cut {r : Rule} (hr : r.recognizer.StopsAt c) {e : Char} :
    (∀ m, r.match? (e :: (xs ++ c :: ys)) = some m →
      (∀ n classifier, m = .reads n classifier → n ≤ xs.length + 1) →
        r.match? (e :: xs) = some m) ∧
      (r.match? (e :: (xs ++ c :: ys)) = none → r.match? (e :: xs) = none) := by
  by_cases hblock : ∃ opening closing, r.recognizer = .block opening closing
  · -- a bracket is one character
    obtain ⟨opening, closing, hrec⟩ := hblock
    have hsame : r.match? (e :: (xs ++ c :: ys)) = r.match? (e :: xs) := by
      rw [match?, match?, hrec]
      rfl
    rw [hsame]
    exact ⟨fun m h _ => h, fun h => h⟩
  · have hleaf : ∀ opening closing, r.recognizer ≠ .block opening closing :=
      fun opening closing h => hblock ⟨opening, closing, h⟩
    rw [Rule.match?_leaf hleaf, Rule.match?_leaf hleaf]
    constructor
    · intro m h hm
      obtain ⟨n, hn, rfl⟩ := Option.map_eq_some_iff.1 h
      have hle : n ≤ (e :: xs).length := hm n r.classifier rfl
      have hcut : r.recognizer.scan (e :: xs) = some n := hr.scan_cut hn hle
      rw [hcut, Option.map_some]
    · intro h
      rw [Option.map_eq_none_iff] at h ⊢
      exact hr.scan_eq_none h

namespace Dialect

variable {d : Dialect}

/-- Whether a rule that is about comments between two marks closes them with a mark of its own. -/
def isClosingRule (r : Rule) : Bool :=
  match r.recognizer with
  | .blockComment _ closing => closing != ""
  | _ => true

/-- No comment of a language is closed by nothing. -/
theorem ne_blockComment {r : Rule} (hr : r ∈ d.ruleSet.rules) (opening : String) :
    r.recognizer ≠ .blockComment opening "" := by
  have hclosings : (d.language.rules d.maxDepth).all isClosingRule = true := by
    cases d.language <;> rfl
  intro hrec
  have hclosing := List.all_eq_true.1 hclosings r hr
  rw [isClosingRule, hrec] at hclosing
  cases hclosing

/-- The recognizers of a language stop at its closing brackets. -/
theorem stopsAt_of_isCloser (hc : d.ruleSet.isCloser c = true) {r : Rule}
    (hr : r ∈ d.ruleSet.rules) : r.recognizer.StopsAt c := by
  have hquotes : ((d.language.rules d.maxDepth).filterMap Rule.closer?).all
      (fun c => !(['"', '@', '$'].contains c)) = true := by
    cases d.language <;> rfl
  refine Recognizer.stopsAt ?_ (ne_blockComment hr)
  have hquote := List.all_eq_true.1 hquotes c (List.contains_iff_mem.1 hc)
  simpa using hquote

/-- The first rule that matches is the same one where the text is cut off in front of a closing
bracket, unless the match goes on behind it. -/
theorem match?_cut (hc : d.ruleSet.isCloser c = true) {e : Char} {m : RuleMatch}
    (h : d.ruleSet.match? e (xs ++ c :: ys) = some m)
    (hm : ∀ n classifier, m = .reads n classifier → n ≤ xs.length + 1) :
    d.ruleSet.match? e xs = some m := by
  obtain ⟨before, r, after, hrules, hr, hbefore⟩ := List.findSome?_eq_some_iff.1 h
  have hstops : ∀ rule ∈ before ++ r :: after, rule.recognizer.StopsAt c := by
    intro rule hrule
    rw [← hrules] at hrule
    exact stopsAt_of_isCloser hc (RuleSet.mem_rules_of_mem_candidateRules hrule)
  apply List.findSome?_eq_some_iff.2
  refine ⟨before, r, after, hrules, ?_, ?_⟩
  · exact (Rule.match?_cut (hstops r (by simp))).1 m hr hm
  · intro rule hrule
    exact (Rule.match?_cut (hstops rule (by simp [hrule]))).2 (hbefore rule hrule)

end Dialect

/-! ## Readings in front of a closing bracket -/

/-- The token with its offset moved by `n`, without its lines and columns. -/
def Token.moved (n : Nat) (t : Token) : Token :=
  { t with span := { offset := t.span.offset + n, len := t.span.len } }

namespace TokenTree

mutual

/-- The tree with all offsets moved by `n`, without lines and columns. -/
def moved (n : Nat) : TokenTree → TokenTree
  | .node t ts => .node (t.moved n) (movedAll n ts)

/-- The trees with all offsets moved by `n`, without lines and columns. -/
def movedAll (n : Nat) : List TokenTree → List TokenTree
  | [] => []
  | t :: ts => t.moved n :: movedAll n ts

end

variable {d : Dialect} {source source' : Source} {s p q : Nat} {back : List Char}
  {ts : List TokenTree}

theorem moved_leaf (n : Nat) (t : Token) : (leaf t).moved n = leaf (t.moved n) := by
  rw [leaf, moved, movedAll, leaf]

/-- The text that is left at an offset, before and after the cut. -/
theorem exists_drop_cut {c : Char} (hcut : source.chars.drop s = source'.chars ++ c :: back)
    {e : Char} {cs : List Char} (hp : s ≤ p) (hlt : p < s + source'.chars.length)
    (rest : source.chars.drop p = e :: cs) :
    ∃ cs', source'.chars.drop (p - s) = e :: cs' ∧ cs = cs' ++ c :: back := by
  obtain ⟨k, rfl⟩ := Nat.exists_eq_add_of_le hp
  rw [← List.drop_drop, hcut] at rest
  rw [Nat.add_sub_cancel_left]
  exact exists_of_drop_append (by omega) rest

/-- A rule reads the same characters before and after the cut, if they stand in front of it. -/
theorem exists_reads_cut {c : Char} (hc : d.ruleSet.isCloser c = true)
    (hcut : source.chars.drop s = source'.chars ++ c :: back) {e : Char} {cs : List Char}
    {len : Nat} {classifier : Classifier} (hp : s ≤ p)
    (hlen : p + len ≤ s + source'.chars.length) (rest : source.chars.drop p = e :: cs)
    (found : d.ruleSet.match? e cs = some (.reads len classifier)) :
    ∃ cs', source'.chars.drop (p - s) = e :: cs' ∧
      d.ruleSet.match? e cs' = some (.reads len classifier) ∧
        (e :: cs).take len = (e :: cs').take len := by
  obtain ⟨-, hpos, -⟩ := RuleSet.match?_reads found
  obtain ⟨cs', hdrop, rfl⟩ := exists_drop_cut hcut hp (by omega) rest
  have hshort : len ≤ (e :: cs').length := by
    rw [← hdrop, List.length_drop]
    omega
  refine ⟨cs', hdrop, ?_, ?_⟩
  · refine Dialect.match?_cut hc found fun n classifier h => ?_
    cases h
    exact hshort
  · rw [← List.cons_append, List.take_append_of_le_length hshort]

/-- A stretch that ends in front of a closing bracket reads the same where the text is cut off at
the bracket and in front of the offset `s`. -/
theorem Reads.cut (hc : d.ruleSet.isCloser c = true)
    (hcut : source.chars.drop s = source'.chars ++ c :: back)
    (h : Reads d.language d.ruleSet source p q ts) (hp : s ≤ p)
    (hq : q ≤ s + source'.chars.length) :
    ∃ ts', Reads d.language d.ruleSet source' (p - s) (q - s) ts' ∧
      movedAll s ts' = movedAll 0 ts := by
  induction h with
  | nil p => exact ⟨[], .nil _, rfl⟩
  | @skip p q len e cs classifier ts rest hopen found kind tail ih =>
      obtain ⟨cs', hdrop, hfound, htext⟩ := exists_reads_cut hc hcut hp (tail.le.trans hq) rest found
      obtain ⟨ts', hts', hmoved⟩ := ih (by omega) hq
      rw [htext] at kind
      rw [Nat.sub_add_comm hp] at hts'
      exact ⟨ts', .skip hdrop hopen hfound kind hts', hmoved⟩
  | @leaf p q len e cs classifier kind ts rest hopen found hkind tail ih =>
      obtain ⟨cs', hdrop, hfound, htext⟩ := exists_reads_cut hc hcut hp (tail.le.trans hq) rest found
      obtain ⟨ts', hts', hmoved⟩ := ih (by omega) hq
      rw [htext] at hkind ⊢
      rw [Nat.sub_add_comm hp] at hts'
      refine ⟨_, .leaf hdrop hopen hfound hkind hts', ?_⟩
      rw [movedAll, movedAll, hmoved, moved_leaf, moved_leaf]
      simp only [Token.moved, Source.span, Nat.sub_add_cancel hp, Nat.add_zero]
  | @block p m q e closing cs inner ts rest hopen found inside close tail ihinside ih =>
      have hin := inside.le
      have hle := tail.le
      obtain ⟨cs', hdrop, rfl⟩ := exists_drop_cut hcut hp (by omega) rest
      obtain ⟨inner', hinner', hmovedin⟩ := ihinside (by omega) (by omega)
      obtain ⟨ts', hts', hmoved⟩ := ih (by omega) hq
      have hfound := Dialect.match?_cut hc found fun n classifier h => by cases h
      have hclose : source'.chars[m - s]? = some closing := by
        have hget : (source.chars.drop s)[m - s]? = some closing := by
          rw [List.getElem?_drop, Nat.add_sub_cancel' (by omega), close]
        rwa [hcut, List.getElem?_append_left (by omega)] at hget
      have hlen : m + 1 - p ≤ (e :: cs').length := by
        rw [← hdrop, List.length_drop]
        omega
      rw [Nat.sub_add_comm hp] at hinner'
      rw [Nat.sub_add_comm (by omega)] at hts'
      refine ⟨_, .block hdrop hopen hfound hinner' hclose hts', ?_⟩
      have hshift : m - s + 1 - (p - s) = m + 1 - p := by omega
      rw [← List.cons_append, List.take_append_of_le_length hlen, movedAll, movedAll, moved, moved,
        hmovedin, hmoved, hshift]
      simp only [Token.moved, Source.span, Nat.sub_add_cancel hp, Nat.add_zero]

/-- A block among the trees of a reading, with the reading inside it. -/
theorem Reads.exists_block (h : Reads d.language d.ruleSet source p q ts) {b : TokenTree}
    (hb : b ∈ subtreesAll ts) (hblock : b.kind = .block) :
    ∃ s m closing, d.ruleSet.isCloser closing = true ∧
      Reads d.language d.ruleSet source (s + 1) m b.children ∧
      source.chars[m]? = some closing ∧ b.span = source.span s (m + 1 - s) := by
  induction h with
  | nil p => simp at hb
  | skip _ _ _ _ _ ih => exact ih hb
  | @leaf p q len e cs classifier kind ts rest hopen found hkind tail ih =>
      simp only [Rose.subtreesAll_cons, TokenTree.leaf, Rose.subtrees_node, Rose.subtreesAll_nil,
        List.cons_append, List.nil_append, List.mem_cons] at hb
      rcases hb with rfl | hb
      · have hleaf := isCompound_of_reads found hkind
        obtain rfl : kind = .block := hblock
        cases hleaf
      · exact ih hb
  | @block p m q e closing cs inner ts rest hopen found inside close tail ihinside ih =>
      simp only [Rose.subtreesAll_cons, Rose.subtrees_node, List.cons_append, List.mem_cons,
        List.mem_append] at hb
      rcases hb with rfl | hb | hb
      · exact ⟨p, m, closing, isCloser_of_match? found, inside, close, rfl⟩
      · exact ihinside hb
      · exact ih hb

/-- Tokens are a local matter: the text inside a block, between its two brackets, has a token tree
of its own, and what it owns is what the block owns, moved to its place behind the opening
bracket. -/
theorem read_inside {text : String} {document : TokenTree} (h : read d text = .ok document)
    {b : TokenTree} (hb : b ∈ subtreesAll document.children) (hblock : b.kind = .block) :
    ∃ document', read d (String.ofList
        ((text.toList.drop (b.span.offset + 1)).take (b.span.len - 2))) = .ok document' ∧
      movedAll (b.span.offset + 1) document'.children = movedAll 0 b.children := by
  obtain ⟨ts, rfl, hts⟩ := reads_of_read h
  obtain ⟨s, m, closing, hcloser, hinside, hclose, hspan⟩ := hts.exists_block hb hblock
  have hle := hinside.le
  have hlen : b.span.len - 2 = m - (s + 1) := by
    rw [hspan]
    show m + 1 - s - 2 = m - (s + 1)
    omega
  have hoffset : b.span.offset = s := by rw [hspan, Source.span]
  rw [hlen, hoffset]
  obtain ⟨hm, hget⟩ := List.getElem?_eq_some_iff.1 hclose
  have hcut : (Source.ofString text).chars.drop (s + 1) =
      (text.toList.drop (s + 1)).take (m - (s + 1)) ++
        closing :: (Source.ofString text).chars.drop (m + 1) := by
    have hback : ((Source.ofString text).chars.drop (s + 1)).drop (m - (s + 1)) =
        (Source.ofString text).chars.drop m := by
      rw [List.drop_drop, Nat.add_sub_cancel' hle]
    rw [← hget, ← List.drop_eq_getElem_cons hm, ← hback]
    exact (List.take_append_drop (m - (s + 1)) _).symm
  generalize (text.toList.drop (s + 1)).take (m - (s + 1)) = inside at hcut ⊢
  have hlength := congrArg List.length hcut
  rw [List.length_append, List.length_cons, List.length_drop, List.length_drop] at hlength
  have hchars : (Source.ofString (String.ofList inside)).chars = inside := String.toList_ofList
  obtain ⟨ts', hts', hmoved⟩ : ∃ ts', Reads d.language d.ruleSet
      (Source.ofString (String.ofList inside)) (s + 1 - (s + 1)) (m - (s + 1)) ts' ∧
        movedAll (s + 1) ts' = movedAll 0 b.children := by
    apply hinside.cut hcloser
    · rw [hchars]
      exact hcut
    · exact le_rfl
    · rw [hchars]
      omega
  have hend : m - (s + 1) = (Source.ofString (String.ofList inside)).chars.length := by
    rw [hchars]
    omega
  rw [Nat.sub_self, hend] at hts'
  exact ⟨_, read_of_reads hts', hmoved⟩

/-- A comparison between parentheses, which is not taken for the start of a list of type
arguments. -/
theorem read_inside_comparison :
    ∃ document b : TokenTree, read ⟨.java, 3⟩ "f(a<b)" = .ok document ∧
      b ∈ subtreesAll document.children ∧ b.kind = .block ∧
      (b.span.offset, b.span.len) = (1, 5) ∧
      ∃ document', read ⟨.java, 3⟩ "a<b" = .ok document' ∧
        movedAll 2 document'.children = movedAll 0 b.children := by
  obtain ⟨document, hread, hany⟩ := exists_read_of_any ⟨.java, 3⟩ "f(a<b)"
    (fun document => (subtreesAll document.children).any fun b =>
      b.value.kind == .block && (b.value.span.offset, b.value.span.len) == (1, 5))
    (by decide +kernel)
  obtain ⟨b, hb, hboth⟩ := List.any_eq_true.1 hany
  obtain ⟨hblock, hspan⟩ := Bool.and_eq_true_iff.1 hboth
  have hplace := Prod.mk.inj (beq_iff_eq.1 hspan)
  obtain ⟨document', hread', hmoved⟩ := read_inside hread hb (beq_iff_eq.1 hblock)
  have hinside : String.ofList (("f(a<b)".toList.drop (1 + 1)).take (5 - 2)) = "a<b" := rfl
  rw [hplace.1, hplace.2, hinside] at hread'
  rw [hplace.1] at hmoved
  exact ⟨document, b, hread, hb, beq_iff_eq.1 hblock, beq_iff_eq.1 hspan, document', hread', hmoved⟩

end TokenTree

end Outline
