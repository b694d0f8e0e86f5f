import Outline.Proofs.Token.Scanning

/-!
# The index of rules by first character

At each character the reader of tokens tries only the rules that the index lists there.  The index
is built from first characters that each recognizer declares apart from its scan: some in ASCII,
and for the characters beyond ASCII a single answer.

* `Recognizer.declares_of_scan` — every match starts with a character that is declared.
* `RuleSet.mem_startingAt`, `RuleSet.ascending_startingAt` — the index lists these rules in order.
* `Dialect.candidateRules_of_string` — the rules that the index lists where a string literal may
  start.
* `Dialect.firstCandidate_isFirst` — the first rule that matches of those in the index is the
  first rule that matches at all.
-/

namespace Outline

/-! ## Where matches start -/

/-- Whether a character is in ASCII. -/
abbrev Text.IsAscii (c : Char) : Prop := c.toNat < 0x80

namespace Text

/-- What holds of all characters in ASCII by evaluation holds of each of them. -/
theorem of_isAscii {p : Char → Bool} {c : Char}
    (h : ((List.range 0x80).all fun n => p (Char.ofNat n)) = true) (hc : IsAscii c) :
    p c = true := by
  have hp := List.all_eq_true.1 h c.toNat (List.mem_range.2 hc)
  rwa [Char.ofNat_toNat] at hp

end Text

namespace StringStyle

/-- Whether the literals of a style start in ASCII and at declared characters: verbatim literals
may start with the mark of interpolated ones. -/
def startsInAscii (style : StringStyle) : Bool :=
  style.quotes.all (fun c => decide (Text.IsAscii c)) && (!style.verbatim || style.interpolated)

variable {style : StringStyle} {c : Char} {cs : List Char}

theorem start_of_scanMarked {result : Option Nat}
    (h : style.scanMarked (c :: cs) = some result) :
    c = '@' ∧ style.verbatim = true ∨
      c = '$' ∧ (style.verbatim = true ∨ style.interpolated = true) := by
  unfold scanMarked at h
  split at h
  · rename_i heq
    exact .inl ⟨(List.cons.inj heq).1, (Option.ite_none_right_eq_some.1 h).1⟩
  · rename_i heq
    exact .inr ⟨(List.cons.inj heq).1, .inl (Option.ite_none_right_eq_some.1 h).1⟩
  · rename_i heq
    exact .inl ⟨(List.cons.inj heq).1, (Option.ite_none_right_eq_some.1 h).1⟩
  · rename_i heq
    exact .inr ⟨(List.cons.inj heq).1, .inr (Option.ite_none_right_eq_some.1 h).1⟩
  · cases h

/-- A literal starts with a quote, a backtick or a mark that the style accepts. -/
theorem start_of_scan {n : Nat} (h : style.scan (c :: cs) = some n) :
    c ∈ style.quotes ∨ c = '@' ∧ style.verbatim = true ∨
      c = '$' ∧ (style.verbatim = true ∨ style.interpolated = true) ∨
      c = '"' ∧ style.textBlocks = true ∨ c = '`' ∧ style.templates = true := by
  unfold scan at h
  split at h
  · rename_i htext heq
    exact .inr (.inr (.inr (.inl ⟨(List.cons.inj heq).1, htext⟩)))
  · rename_i heq
    cases heq
  · rename_i heq _
    obtain ⟨rfl, rfl⟩ := List.cons.inj heq
    split at h
    · rename_i htemplate
      obtain ⟨htemplates, hc⟩ := Bool.and_eq_true_iff.1 htemplate
      exact .inr (.inr (.inr (.inr ⟨beq_iff_eq.1 hc, htemplates⟩)))
    · split at h
      · rename_i result hmarked
        rcases start_of_scanMarked hmarked with hat | hdollar
        · exact .inr (.inl hat)
        · exact .inr (.inr (.inl hdollar))
      · obtain ⟨hquote, -⟩ := Option.ite_none_right_eq_some.1 h
        exact .inl (List.contains_iff_mem.1 hquote)

end StringStyle

namespace IdentifierStyle

variable {style : IdentifierStyle} {c : Char} {cs : List Char}

/-- An identifier starts with a name. -/
theorem scanName_of_scan {n : Nat} (h : style.scan (c :: cs) = some n) :
    style.scanName (c :: cs) ≠ none := by
  obtain ⟨k, hdotted⟩ : ∃ k, style.scanDotted (c :: cs) = some k := by
    rw [scan] at h
    cases hdepth : style.maxDepth with
    | zero =>
        rw [hdepth, scanType] at h
        obtain ⟨k, hk, -⟩ := Option.bind_eq_some_iff.1 h
        exact ⟨k, hk⟩
    | succ depth =>
        rw [hdepth, scanType] at h
        obtain ⟨k, hk, -⟩ := Option.bind_eq_some_iff.1 h
        exact ⟨k, hk⟩
  obtain ⟨m, hname, -⟩ := Option.map_eq_some_iff.1 hdotted
  rw [hname]
  exact Option.some_ne_none m

/-- A name in front of which nothing stands starts an identifier. -/
theorem starts_of_scan {n : Nat} (h : style.scan (c :: cs) = some n) : style.starts c = true := by
  obtain ⟨m, hname⟩ := Option.ne_none_iff_exists'.1 (scanName_of_scan h)
  exact (Option.ite_none_right_eq_some.1 hname).1

theorem mem_firstChars_of_starts (h : style.starts c = true) (hc : Text.IsAscii c) :
    c ∈ (Recognizer.identifier style).firstChars := by
  rw [starts, Text.isAlphabetic, if_pos hc, Bool.or_eq_true, Bool.or_eq_true,
    List.contains_iff_mem, beq_iff_eq] at h
  rw [Recognizer.firstChars, List.mem_append, List.mem_cons]
  rcases h with (h | h) | h
  · have hletter := Text.of_isAscii
      (p := fun c => !c.isAlpha || Recognizer.asciiLetters.contains c) (by decide) hc
    rw [h, Bool.not_true, Bool.false_or] at hletter
    exact .inl (List.contains_iff_mem.1 hletter)
  · exact .inr (.inl h)
  · exact .inr (.inr h)

end IdentifierStyle

/-- An at sign that starts a name starts no string literal. -/
theorem CSharp.scan_strings_of_scanName {depth : Nat} {cs : List Char}
    (h : (identifiers depth).scanName ('@' :: cs) ≠ none) : strings.scan ('@' :: cs) = none := by
  obtain ⟨c, rest, rfl, hc⟩ : ∃ c rest, cs = c :: rest ∧
      (identifiers depth).continues c = true := by
    cases cs with
    | nil => exact absurd rfl h
    | cons c rest =>
        refine ⟨c, rest, rfl, ?_⟩
        by_contra hc
        rw [IdentifierStyle.scanName, List.takeWhile_cons_of_neg hc] at h
        exact h rfl
  have hquote : c ≠ '"' := by
    rintro rfl
    cases hc
  have hdollar : c ≠ '$' := by
    rintro rfl
    cases hc
  have hmarked : strings.scanMarked ('@' :: c :: rest) = none := by
    simp [StringStyle.scanMarked, hquote, hdollar]
  simp only [StringStyle.scan, hmarked]
  rfl

namespace Recognizer

variable {c : Char} {cs : List Char} {n : Nat}

/-- Whether a recognizer that does not claim characters beyond ASCII starts all its matches in
ASCII, at characters that it declares. -/
def startsInAscii : Recognizer → Bool
  | lineComment opening | blockComment opening _ =>
    opening.toList.head?.any fun c => decide (Text.IsAscii c)
  | string style => style.startsInAscii
  | block opening _ => decide (Text.IsAscii opening)
  | operators words | separators words =>
    words.all fun w => w.toList.head?.all fun c => decide (Text.IsAscii c)
  | directive mark => decide (Text.IsAscii mark)
  | whitespace | identifier _ | number => true

/-- The declaration of a recognizer covers the character `c`. -/
def Declares (r : Recognizer) (c : Char) : Prop :=
  if Text.IsAscii c then c ∈ r.firstChars else r.acceptsUnicode = true

theorem declares_of_mem {r : Recognizer} (hc : Text.IsAscii c) (h : c ∈ r.firstChars) :
    r.Declares c := by
  rwa [Declares, if_pos hc]

theorem head?_of_isPrefixOf {opening : String} {d : Char} (h : opening.toList.isPrefixOf (c :: cs))
    (hd : opening.toList.head? = some d) : d = c := by
  obtain ⟨rest, hrest⟩ := List.isPrefixOf_iff_prefix.1 h
  obtain ⟨tail, htail⟩ := List.head?_eq_some_iff.1 hd
  rw [htail, List.cons_append] at hrest
  exact (List.cons.inj hrest).1

/-- A comment starts with the first character of its opening. -/
theorem start_of_opening {opening : String} (h : opening.toList.isPrefixOf (c :: cs))
    (hascii : (opening.toList.head?.any fun c => decide (Text.IsAscii c)) = true) :
    Text.IsAscii c ∧ c ∈ opening.toList.take 1 := by
  obtain ⟨d, hd, hsmall⟩ := (Option.any_eq_true _ _).1 hascii
  obtain rfl := head?_of_isPrefixOf h hd
  obtain ⟨tail, htail⟩ := List.head?_eq_some_iff.1 hd
  exact ⟨of_decide_eq_true hsmall, by simp [htail]⟩

/-- An operator or separator that is not empty starts with the first character of one of the
words. -/
theorem start_of_longestWord {words : List String} (h : longestWord words (c :: cs) = some n)
    (hpos : 0 < n)
    (hascii : (words.all fun w => w.toList.head?.all fun c => decide (Text.IsAscii c)) = true) :
    Text.IsAscii c ∧ c ∈ words.filterMap (·.toList.head?) := by
  obtain ⟨w, hw, rfl⟩ := List.mem_map.1 (List.max?_mem h)
  obtain ⟨hmem, hfront⟩ := List.mem_filter.1 hw
  rw [← String.length_toList] at hpos
  obtain ⟨d, hd⟩ : ∃ d, w.toList.head? = some d := by
    rw [← Option.isSome_iff_exists, List.isSome_head?]
    simpa using List.ne_nil_of_length_pos hpos
  obtain rfl := head?_of_isPrefixOf hfront hd
  have hsmall := List.all_eq_true.1 hascii w hmem
  rw [hd, Option.all_some] at hsmall
  exact ⟨of_decide_eq_true hsmall, List.mem_filterMap.2 ⟨w, hmem, hd⟩⟩

theorem start_of_string {style : StringStyle} (hstyle : style.startsInAscii = true)
    (h : style.scan (c :: cs) = some n) : (string style).Declares c := by
  obtain ⟨hquotes, hmarks⟩ := Bool.and_eq_true_iff.1 hstyle
  have hinterpolated (h : style.verbatim = true ∨ style.interpolated = true) :
      style.interpolated = true := by
    rcases h with h | h
    · simpa [h] using hmarks
    · exact h
  rcases StringStyle.start_of_scan h with hc | ⟨rfl, hc⟩ | ⟨rfl, hc⟩ | ⟨rfl, hc⟩ | ⟨rfl, hc⟩
  · exact declares_of_mem (of_decide_eq_true (List.all_eq_true.1 hquotes c hc))
      (by simp [firstChars, hc])
  · exact declares_of_mem (by decide) (by simp [firstChars, hc])
  · exact declares_of_mem (by decide) (by simp [firstChars, hinterpolated hc])
  · exact declares_of_mem (by decide) (by simp [firstChars, hc])
  · exact declares_of_mem (by decide) (by simp [firstChars, hc])

/-- A match starts with a character that the recognizer declares. -/
theorem declares_of_scan {r : Recognizer} (hr : r.startsInAscii = true)
    (h : r.scan (c :: cs) = some n) : r.Declares c := by
  obtain ⟨hread, hpos⟩ := Option.filter_eq_some_iff.1 h
  have hpos := of_decide_eq_true hpos
  cases r with
  | whitespace =>
      have hblank : Text.isBlank c = true := by
        by_contra hnot
        rw [read, List.takeWhile_cons_of_neg hnot, Option.some.injEq] at hread
        simp [← hread] at hpos
      by_cases hc : Text.IsAscii c
      · have hfirst := Text.of_isAscii
          (p := fun c => !Text.isBlank c || whitespace.firstChars.contains c)
          (by decide +kernel) hc
        rw [hblank, Bool.not_true, Bool.false_or] at hfirst
        exact declares_of_mem hc (List.contains_iff_mem.1 hfirst)
      · rw [Declares, if_neg hc]
        rfl
  | lineComment opening =>
      obtain ⟨hfront, -⟩ := Option.ite_none_right_eq_some.1 hread
      obtain ⟨hc, hmem⟩ := start_of_opening hfront hr
      exact declares_of_mem hc hmem
  | blockComment opening closing =>
      obtain ⟨hfront, -⟩ := Option.ite_none_right_eq_some.1 hread
      obtain ⟨hc, hmem⟩ := start_of_opening hfront hr
      exact declares_of_mem hc hmem
  | string style => exact start_of_string hr hread
  | block opening closing => cases hread
  | identifier style =>
      have hstarts := IdentifierStyle.starts_of_scan hread
      by_cases hc : Text.IsAscii c
      · exact declares_of_mem hc (IdentifierStyle.mem_firstChars_of_starts hstarts hc)
      · rw [Declares, if_neg hc]
        rfl
  | operators words =>
      obtain ⟨hc, hmem⟩ := start_of_longestWord hread hpos hr
      exact declares_of_mem hc hmem
  | separators words =>
      obtain ⟨hc, hmem⟩ := start_of_longestWord hread hpos hr
      exact declares_of_mem hc hmem
  | number =>
      obtain ⟨hdigit, -⟩ := Option.ite_none_right_eq_some.1 hread
      have hdigit : c.isDigit = true := hdigit
      have hc : Text.IsAscii c := by
        have hnine := (Bool.and_eq_true_iff.1 hdigit).2
        have hnine : c.toNat ≤ 57 := of_decide_eq_true hnine
        exact Nat.lt_of_le_of_lt hnine (by decide)
      have hfirst := Text.of_isAscii (p := fun c => !c.isDigit || number.firstChars.contains c)
        (by decide) hc
      rw [hdigit, Bool.not_true, Bool.false_or] at hfirst
      exact declares_of_mem hc (List.contains_iff_mem.1 hfirst)
  | directive mark =>
      obtain ⟨hhead, -⟩ := Option.ite_none_right_eq_some.1 hread
      obtain rfl : c = mark := by simpa using hhead
      exact declares_of_mem (of_decide_eq_true hr) List.mem_cons_self

end Recognizer

namespace Rule

variable {r : Rule} {c : Char} {cs : List Char} {m : RuleMatch}

theorem mayStart_of_declares (h : r.recognizer.Declares c) : r.mayStart c = true := by
  rw [Recognizer.Declares] at h
  rw [mayStart]
  split
  · rename_i hc
    rw [if_pos hc] at h
    exact List.contains_iff_mem.2 h
  · rename_i hc
    rwa [if_neg hc] at h

/-- A rule that matches is listed by the index at the first character of its match. -/
theorem mayStart_of_match? (hr : r.recognizer.startsInAscii = true)
    (h : r.match? (c :: cs) = some m) : r.mayStart c = true := by
  refine mayStart_of_declares ?_
  cases m with
  | opens closing =>
      obtain ⟨opening, hrec, hhead⟩ := match?_opens h
      obtain rfl : c = opening := by simpa using hhead
      rw [hrec] at hr ⊢
      exact Recognizer.declares_of_mem (of_decide_eq_true hr) List.mem_cons_self
  | reads n classifier => exact Recognizer.declares_of_scan hr (match?_reads h).1

/-- The rule at the place `i` is the first one of a list that matches at the front of a text. -/
structure IsFirst (rules : List Rule) (cs : List Char) (i : Nat) (m : RuleMatch) : Prop where
  /-- It matches. -/
  found : ∃ r, rules[i]? = some r ∧ r.match? cs = some m
  /-- The rules in front of it do not. -/
  before : ∀ j r, j < i → rules[j]? = some r → r.match? cs = none

end Rule

/-! ## The index -/

namespace RuleSet

/-- The index lists the rules that declare a character. -/
theorem candidates_ofRules (rules : List Rule) (c : Char) :
    (ofRules rules).candidates c = startingAt rules c := by
  unfold candidates ofRules
  split
  · rename_i hsmall
    simp only [Array.getElem?_ofFn, hsmall, dif_pos, Option.getD_some, Char.ofNat_toNat]
  · rename_i hbig
    have hmay : ∀ r : Rule, r.mayStart (Char.ofNat 0x80) = r.mayStart c := by
      intro r
      rw [Rule.mayStart, Rule.mayStart, if_neg (by decide), if_neg hbig]
    simp only [startingAt, hmay]

theorem filterMap_zipIdx_length (f : Rule → Bool) (front back : List Rule) :
    (((back.zipIdx front.length).filter (fun r => f r.1)).map (·.2)).filterMap
      ((front ++ back)[·]?) = back.filter f := by
  induction back generalizing front with
  | nil => rfl
  | cons r back ih =>
      have hget : (front ++ r :: back)[front.length]? = some r := by simp
      have ih := ih (front ++ [r])
      rw [List.length_append, List.length_singleton, List.append_assoc,
        List.singleton_append] at ih
      rw [List.zipIdx_cons]
      cases hr : f r with
      | true => simp only [List.filter_cons, hr, if_true, List.map_cons, List.filterMap_cons, hget, ih]
      | false => simpa only [List.filter_cons, hr, Bool.false_eq_true, if_false] using ih

theorem filterMap_zipIdx (rules : List Rule) (f : Rule → Bool) :
    ((rules.zipIdx.filter (fun r => f r.1)).map (·.2)).filterMap (rules[·]?) = rules.filter f :=
  filterMap_zipIdx_length f [] rules

theorem candidateRules_ofRules (rules : List Rule) (c : Char) :
    (ofRules rules).candidateRules c = rules.filter (·.mayStart c) := by
  rw [candidateRules, candidates_ofRules, startingAt]
  exact filterMap_zipIdx rules (·.mayStart c)

variable {rules : List Rule} {c : Char} {i : Nat}

theorem mem_startingAt :
    i ∈ startingAt rules c ↔ ∃ r, rules[i]? = some r ∧ r.mayStart c = true := by
  simp only [startingAt, List.mem_map, List.mem_filter, Prod.exists, exists_eq_right,
    List.mk_mem_zipIdx_iff_getElem?]

/-- The index keeps the order of the rules. -/
theorem ascending_startingAt (rules : List Rule) (c : Char) :
    (startingAt rules c).Pairwise (· < ·) := by
  have hall : (rules.zipIdx.map (·.2)).Pairwise (· < ·) := by
    rw [List.zipIdx_map_snd]
    exact List.pairwise_lt_range'
  exact hall.sublist (List.filter_sublist.map _)

/-- The first of the rules that the index lists at `c` that matches at the front of a text, by its
place, with its match. -/
def firstCandidate? (s : RuleSet) (c : Char) (cs : List Char) : Option (Nat × RuleMatch) :=
  (s.candidates c).findSome? fun i => ((s.rules[i]?).bind (·.match? cs)).map (i, ·)

theorem match?_eq_firstCandidate? (s : RuleSet) (c : Char) (cs : List Char) :
    s.match? c cs = (s.firstCandidate? c (c :: cs)).map (·.2) := by
  rw [match?, firstCandidate?, List.map_findSome?, candidateRules]
  induction s.candidates c with
  | nil => rfl
  | cons i places ih =>
      rw [List.filterMap_cons, List.findSome?_cons, Function.comp_apply, Option.map_map, ← ih]
      cases s.rules[i]? with
      | none => rfl
      | some r =>
          rw [List.findSome?_cons, Option.bind_some]
          cases r.match? (c :: cs) <;> rfl

section Listed

variable {cs : List Char} {m : RuleMatch}

/-- The rules of the index that match are all the rules that match. -/
theorem mem_candidates_of_match? (hrules : ∀ r ∈ rules, r.recognizer.startsInAscii = true)
    {r : Rule} (hr : rules[i]? = some r) (hmatch : r.match? (c :: cs) = some m) :
    i ∈ (ofRules rules).candidates c := by
  rw [candidates_ofRules, mem_startingAt]
  exact ⟨r, hr, Rule.mayStart_of_match? (hrules r (List.mem_of_getElem? hr)) hmatch⟩

/-- The first rule that matches of those in the index is the first rule that matches at all. -/
theorem firstCandidate?_eq_some_iff (hrules : ∀ r ∈ rules, r.recognizer.startsInAscii = true) :
    (ofRules rules).firstCandidate? c (c :: cs) = some (i, m) ↔
      Rule.IsFirst rules (c :: cs) i m := by
  have hascending := ascending_startingAt rules c
  rw [← candidates_ofRules] at hascending
  have hplace : ∀ j, (((ofRules rules).rules[j]?).bind (·.match? (c :: cs))).map (j, ·) =
      some (i, m) ↔ j = i ∧ ∃ r, rules[i]? = some r ∧ r.match? (c :: cs) = some m := by
    intro j
    rw [Option.map_eq_some_iff]
    constructor
    · rintro ⟨m', hm', heq⟩
      obtain ⟨rfl, rfl⟩ := Prod.mk.inj heq
      exact ⟨rfl, Option.bind_eq_some_iff.1 hm'⟩
    · rintro ⟨rfl, hfound⟩
      exact ⟨m, Option.bind_eq_some_iff.2 hfound, rfl⟩
  rw [firstCandidate?, List.findSome?_eq_some_iff]
  constructor
  · rintro ⟨front, j, back, hsplit, hj, hfront⟩
    obtain ⟨rfl, hfound⟩ := (hplace j).1 hj
    refine ⟨hfound, fun k r hk hr => ?_⟩
    -- a rule in front of the first one in the index that matches would be listed before it
    by_contra hnot
    obtain ⟨m', hm'⟩ := Option.ne_none_iff_exists'.1 hnot
    have hmem := mem_candidates_of_match? hrules hr hm'
    rw [hsplit] at hmem hascending
    obtain ⟨-, hback, -⟩ := List.pairwise_append.1 hascending
    have hbehind := (List.pairwise_cons.1 hback).1
    rcases List.mem_append.1 hmem with hmem | hmem
    · have hnone := hfront k hmem
      rw [show (ofRules rules).rules[k]? = some r from hr, Option.bind_some, hm'] at hnone
      cases hnone
    · rcases List.mem_cons.1 hmem with rfl | hmem
      · exact absurd hk (Nat.lt_irrefl _)
      · have := hbehind k hmem
        omega
  · rintro ⟨⟨r, hr, hmatch⟩, hbefore⟩
    obtain ⟨front, back, hsplit⟩ := List.append_of_mem (mem_candidates_of_match? hrules hr hmatch)
    refine ⟨front, i, back, hsplit, (hplace i).2 ⟨rfl, r, hr, hmatch⟩, fun k hk => ?_⟩
    rw [hsplit] at hascending
    have hlt := (List.pairwise_append.1 hascending).2.2 k hk i List.mem_cons_self
    cases hget : rules[k]? with
    | none =>
        rw [show (ofRules rules).rules[k]? = none from hget]
        rfl
    | some s =>
        rw [show (ofRules rules).rules[k]? = some s from hget, Option.bind_some,
          hbefore k s hlt hget]
        rfl

/-- If no rule of the index matches, no rule does. -/
theorem firstCandidate?_eq_none_iff (hrules : ∀ r ∈ rules, r.recognizer.startsInAscii = true) :
    (ofRules rules).firstCandidate? c (c :: cs) = none ↔
      ∀ r ∈ rules, r.match? (c :: cs) = none := by
  rw [firstCandidate?, List.findSome?_eq_none_iff]
  constructor
  · intro h r hr
    by_contra hnot
    obtain ⟨m, hm⟩ := Option.ne_none_iff_exists'.1 hnot
    obtain ⟨j, hj⟩ := List.mem_iff_getElem?.1 hr
    have hnone := h j (mem_candidates_of_match? hrules hj hm)
    rw [show (ofRules rules).rules[j]? = some r from hj, Option.bind_some, hm] at hnone
    cases hnone
  · intro h j _
    cases hget : rules[j]? with
    | none =>
        rw [show (ofRules rules).rules[j]? = none from hget]
        rfl
    | some r =>
        rw [show (ofRules rules).rules[j]? = some r from hget, Option.bind_some,
          h r (List.mem_of_getElem? hget)]
        rfl

end Listed

end RuleSet

/-- The recognizers of the languages start their matches in ASCII, as far as they claim no more. -/
theorem Language.startsInAscii_rules (l : Language) (depth : Nat) :
    ∀ r ∈ l.rules depth, r.recognizer.startsInAscii = true := by
  have hall : ((l.rules depth).all fun r => r.recognizer.startsInAscii) = true := by
    cases l <;> rfl
  exact List.all_eq_true.1 hall

/-- The string literals of a language. -/
def Language.strings : Language → StringStyle
  | csharp => CSharp.strings
  | java => Java.strings
  | typescript => TypeScript.strings

/-- A language has one rule for its string literals. -/
theorem Language.rule_of_string (l : Language) (depth : Nat) : ∀ r ∈ l.rules depth, ∀ style,
    r.recognizer = .string style → r = ⟨.string l.strings, .ofKind .string⟩ := by
  cases l <;> simp [rules, strings, CSharp.rules, Java.rules, TypeScript.rules]

namespace Dialect

variable {d : Dialect}

/-- Where a string literal may start, no other rule is tried, but for the at sign, which may start
a name, too. -/
theorem candidateRules_of_string {e : Char} {r : Rule} (hr : r ∈ d.ruleSet.candidateRules e)
    {style : StringStyle} (hstring : r.recognizer = .string style) :
    d.ruleSet.candidateRules e = [r] ∨ style = CSharp.strings ∧ e = '@' ∧
      d.ruleSet.candidateRules e =
        [r, ⟨.identifier (CSharp.identifiers d.maxDepth), .keywordOrIdentifier⟩] := by
  rw [ruleSet, RuleSet.candidateRules_ofRules] at hr ⊢
  obtain ⟨hmem, hstarts⟩ := List.mem_filter.1 hr
  obtain rfl := d.language.rule_of_string d.maxDepth r hmem style hstring
  cases hstring
  have hfirst : e ∈ (Recognizer.string d.language.strings).firstChars := by
    rw [Rule.mayStart] at hstarts
    split at hstarts
    · exact List.contains_iff_mem.1 hstarts
    · cases hstarts
  obtain ⟨language, depth⟩ := d
  cases language with
  | csharp =>
      have hchars : e ∈ ['"', '\'', '@', '$'] := hfirst
      simp only [List.mem_cons, List.not_mem_nil, or_false] at hchars
      rcases hchars with rfl | rfl | rfl | rfl
      · exact .inl rfl
      · exact .inl rfl
      · exact .inr ⟨rfl, rfl, rfl⟩
      · exact .inl rfl
  | java =>
      have hchars : e ∈ ['"', '\'', '"'] := hfirst
      simp only [List.mem_cons, List.not_mem_nil, or_false] at hchars
      rcases hchars with rfl | rfl | rfl <;> exact .inl rfl
  | typescript =>
      have hchars : e ∈ ['"', '\'', '`'] := hfirst
      simp only [List.mem_cons, List.not_mem_nil, or_false] at hchars
      rcases hchars with rfl | rfl | rfl <;> exact .inl rfl

end Dialect

/-- At every place of a text, the first rule that matches of those that the index lists at the
character there is the first rule that matches at all, with the same match; none of them matches
only if no rule does.  This is the match that the reader of tokens goes by. -/
theorem Dialect.firstCandidate_isFirst (d : Dialect) (text : String)
    (pos : Fin text.toList.length) :
    let rules := d.language.rules d.maxDepth
    let c := text.toList[pos]
    let rest := text.toList.drop pos
    (∀ i m, d.ruleSet.firstCandidate? c rest = some (i, m) ↔ Rule.IsFirst rules rest i m) ∧
      (d.ruleSet.firstCandidate? c rest = none ↔ ∀ r ∈ rules, r.match? rest = none) ∧
      d.ruleSet.match? c (text.toList.drop (pos + 1)) =
        (d.ruleSet.firstCandidate? c rest).map (·.2) := by
  intro rules c rest
  have hrest : rest = c :: text.toList.drop (pos + 1) := List.drop_eq_getElem_cons pos.isLt
  have hrules : ∀ r ∈ rules, r.recognizer.startsInAscii = true :=
    d.language.startsInAscii_rules d.maxDepth
  rw [hrest]
  exact ⟨fun _ _ => RuleSet.firstCandidate?_eq_some_iff hrules,
    RuleSet.firstCandidate?_eq_none_iff hrules, RuleSet.match?_eq_firstCandidate? _ _ _⟩

end Outline
