import Outline.Proofs.Token.Index
import Outline.Text.Literal

/-!
# The quotes of string literals

What a string literal is, told without the scanner: a text between marks, in which the closing mark
does not stand unless it is escaped or doubled.  Taking the quotes off a literal guesses its marks
again from its characters alone.

* `StringStyle.IsLiteral` — a literal with the marks around it.
* `StringStyle.scan_iff` — the literals of a language are the texts that are read as a whole.
* `Text.IsMisread` — the literals whose marks are not found again.
* `Text.unquote_iff_of_scan` — from all others the marks are taken off, and nothing else.
-/

namespace Outline

namespace StringStyle

/-! ## The inside of a literal -/

/-- The inside of a literal between two quotes.  A backslash escapes the character behind it; other
quotes do not stand inside, and line ends only where there may be several lines. -/
inductive IsQuoted (quote : Char) (multiline : Bool) : List Char → Prop where
  /-- Nothing. -/
  | nil : IsQuoted quote multiline []
  /-- An escaped character. -/
  | escape (c : Char) {cs : List Char} (rest : IsQuoted quote multiline cs) :
      IsQuoted quote multiline ('\\' :: c :: cs)
  /-- Another character. -/
  | char {c : Char} {cs : List Char} (plain : c ≠ '\\') (inside : c ≠ quote)
      (line : (Text.isLineEnd c && !multiline) = false) (rest : IsQuoted quote multiline cs) :
      IsQuoted quote multiline (c :: cs)

/-- The inside of a verbatim literal, where quotes are doubled. -/
inductive IsVerbatim : List Char → Prop where
  /-- Nothing. -/
  | nil : IsVerbatim []
  /-- A quote. -/
  | doubled {cs : List Char} (rest : IsVerbatim cs) : IsVerbatim ('"' :: '"' :: cs)
  /-- Another character. -/
  | char {c : Char} {cs : List Char} (inside : c ≠ '"') (rest : IsVerbatim cs) :
      IsVerbatim (c :: cs)

/-- The marks around a text block. -/
def blockMarks : List Char := ['"', '"', '"']

/-- The inside of a text block, behind whose start no three quotes stand before its end. -/
inductive IsTextBlock : List Char → Prop where
  /-- Nothing. -/
  | nil : IsTextBlock []
  /-- An escaped character. -/
  | escape (c : Char) {cs : List Char} (rest : IsTextBlock cs) : IsTextBlock ('\\' :: c :: cs)
  /-- Another character. -/
  | char {c : Char} {cs : List Char} (plain : c ≠ '\\')
      (inside : ¬ blockMarks <+: c :: cs ++ blockMarks) (rest : IsTextBlock cs) :
      IsTextBlock (c :: cs)

/-- The openings of verbatim literals. -/
def verbatimMarks : List (List Char) := [['@', '"'], ['$', '@', '"'], ['@', '$', '"']]

/-- A literal: the mark that opens it, its inside, and the mark that closes it. -/
inductive IsLiteral (style : StringStyle) : List Char → List Char → List Char → Prop where
  /-- Between two quotes. -/
  | quoted {quote : Char} {inner : List Char} (accepted : quote ∈ style.quotes)
      (inside : IsQuoted quote false inner) : IsLiteral style [quote] inner [quote]
  /-- Behind a dollar sign. -/
  | interpolated {inner : List Char} (accepted : style.interpolated = true)
      (inside : IsQuoted '"' false inner) : IsLiteral style ['$', '"'] inner ['"']
  /-- Behind an at sign, with or without a dollar sign. -/
  | verbatim {opening inner : List Char} (accepted : style.verbatim = true)
      (known : opening ∈ verbatimMarks) (inside : IsVerbatim inner) :
      IsLiteral style opening inner ['"']
  /-- Between three quotes. -/
  | textBlock {inner : List Char} (accepted : style.textBlocks = true)
      (inside : IsTextBlock inner) : IsLiteral style blockMarks inner blockMarks
  /-- Between backticks. -/
  | template {inner : List Char} (accepted : style.templates = true)
      (inside : IsQuoted '`' true inner) : IsLiteral style ['`'] inner ['`']

/-! ## What is read as a whole -/

variable {style : StringStyle} {quote : Char} {multiline : Bool} {cs inner : List Char}

theorem scanQuoted_cons_of_ne {c : Char} (plain : c ≠ '\\') (inside : c ≠ quote)
    (line : (Text.isLineEnd c && !multiline) = false) (cs : List Char) :
    scanQuoted quote multiline (c :: cs) = (scanQuoted quote multiline cs).map (· + 1) := by
  rw [scanQuoted, if_neg (by simpa using inside), if_neg (by simp [line])]
  · exact fun h => absurd h plain
  · exact fun _ _ h => absurd h plain

theorem IsQuoted.scan (hquote : quote ≠ '\\') (h : IsQuoted quote multiline inner) :
    scanQuoted quote multiline (inner ++ [quote]) = some (inner.length + 1) := by
  induction h with
  | nil =>
      rw [List.nil_append, scanQuoted, beq_self_eq_true, if_pos rfl]
      · rfl
      · exact fun h _ => hquote h
      · exact fun _ _ h => absurd h hquote
  | escape c _ ih =>
      rw [List.cons_append, List.cons_append, scanQuoted, ih]
      rfl
  | char plain inside line _ ih =>
      rw [List.cons_append, scanQuoted_cons_of_ne plain inside line, ih]
      rfl

theorem exists_of_scanQuoted (h : scanQuoted quote multiline cs = some cs.length) :
    ∃ inner, IsQuoted quote multiline inner ∧ cs = inner ++ [quote] := by
  fun_induction scanQuoted quote multiline cs with
  | case1 => cases h
  | case2 => cases h
  | case3 c cs ih =>
      obtain ⟨inner, hinner, rfl⟩ := ih (by simpa using h)
      exact ⟨_, .escape c hinner, rfl⟩
  | case4 c cs _ _ hc =>
      obtain rfl : cs = [] := List.length_eq_zero_iff.1 (by simpa using h.symm)
      exact ⟨[], .nil, by rw [beq_iff_eq.1 hc]; rfl⟩
  | case5 => cases h
  | case6 c cs hlast hescape hc hend ih =>
      have hslash : c ≠ '\\' := by
        cases cs with
        | nil => exact fun h => hlast h rfl
        | cons d cs => exact fun h => hescape d cs h rfl
      obtain ⟨inner, hinner, rfl⟩ := ih (by simpa using h)
      exact ⟨_, .char hslash (by simpa using hc) (by simpa using hend) hinner, rfl⟩

theorem IsVerbatim.scan (h : IsVerbatim inner) :
    scanVerbatim (inner ++ ['"']) = some (inner.length + 1) := by
  induction h with
  | nil => rfl
  | doubled _ ih =>
      rw [List.cons_append, List.cons_append, scanVerbatim, ih]
      rfl
  | char inside _ ih =>
      rw [List.cons_append, scanVerbatim, ih]
      · rfl
      · exact fun _ h => absurd h inside
      · exact fun h => absurd h inside

theorem exists_of_scanVerbatim (h : scanVerbatim cs = some cs.length) :
    ∃ inner, IsVerbatim inner ∧ cs = inner ++ ['"'] := by
  fun_induction scanVerbatim cs with
  | case1 => cases h
  | case2 cs ih =>
      obtain ⟨inner, hinner, rfl⟩ := ih (by simpa using h)
      exact ⟨_, .doubled hinner, rfl⟩
  | case3 cs =>
      obtain rfl : cs = [] := List.length_eq_zero_iff.1 (by simpa using h.symm)
      exact ⟨[], .nil, rfl⟩
  | case4 c cs _ hc ih =>
      obtain ⟨inner, hinner, rfl⟩ := ih (by simpa using h)
      exact ⟨_, .char hc hinner, rfl⟩

theorem IsTextBlock.scan (h : IsTextBlock inner) :
    scanTextBlock (inner ++ blockMarks) = some (inner.length + 3) := by
  induction h with
  | nil => rfl
  | escape c _ ih =>
      rw [List.cons_append, List.cons_append, scanTextBlock, ih]
      rfl
  | @char c cs plain inside _ ih =>
      rw [List.cons_append, scanTextBlock, ih]
      · rfl
      · exact fun h => absurd h plain
      · exact fun _ _ h => absurd h plain
      · rintro rest rfl hrest
        exact inside ⟨rest, by rw [List.cons_append, hrest]; rfl⟩

theorem exists_of_scanTextBlock (h : scanTextBlock cs = some cs.length) :
    ∃ inner, IsTextBlock inner ∧ cs = inner ++ blockMarks := by
  fun_induction scanTextBlock cs with
  | case1 => cases h
  | case2 => cases h
  | case3 c cs ih =>
      obtain ⟨inner, hinner, rfl⟩ := ih (by simpa using h)
      exact ⟨_, .escape c hinner, rfl⟩
  | case4 cs =>
      obtain rfl : cs = [] := List.length_eq_zero_iff.1 (by simpa using h.symm)
      exact ⟨[], .nil, rfl⟩
  | case5 c cs hlast hescape hclose ih =>
      have hslash : c ≠ '\\' := by
        cases cs with
        | nil => exact fun h => hlast h rfl
        | cons d cs => exact fun h => hescape d cs h rfl
      obtain ⟨inner, hinner, rfl⟩ := ih (by simpa using h)
      refine ⟨_, .char hslash ?_ hinner, rfl⟩
      rintro ⟨rest, hrest⟩
      simp only [blockMarks, List.cons_append, List.nil_append, List.cons.injEq] at hrest
      exact hclose rest hrest.1.symm hrest.2.symm

theorem exists_of_scanMarked (h : style.scanMarked cs = some (some cs.length)) :
    ∃ opening inner closing, style.IsLiteral opening inner closing ∧
      cs = opening ++ (inner ++ closing) := by
  have hverbatim (opening : List Char) {rest : List Char} (known : opening ∈ verbatimMarks)
      (h : (if style.verbatim then some ((scanVerbatim rest).map (· + opening.length)) else none) =
        some (some (rest.length + opening.length))) :
      ∃ opening' inner closing, style.IsLiteral opening' inner closing ∧
        opening ++ rest = opening' ++ (inner ++ closing) := by
    obtain ⟨accepted, h⟩ := Option.ite_none_right_eq_some.1 h
    obtain ⟨inner, hinner, rfl⟩ := @exists_of_scanVerbatim rest (by simpa using h)
    exact ⟨_, _, _, .verbatim accepted known hinner, rfl⟩
  unfold scanMarked at h
  split at h
  · exact hverbatim ['@', '"'] (by decide) h
  · exact hverbatim ['$', '@', '"'] (by decide) h
  · exact hverbatim ['@', '$', '"'] (by decide) h
  · rename_i rest
    obtain ⟨accepted, h⟩ := Option.ite_none_right_eq_some.1 h
    obtain ⟨inner, hinner, rfl⟩ := @exists_of_scanQuoted _ _ rest (by simpa using h)
    exact ⟨_, _, _, .interpolated accepted hinner, rfl⟩
  · cases h

/-- A text that is read as a whole is a literal. -/
theorem exists_of_scan (h : style.scan cs = some cs.length) :
    ∃ opening inner closing, style.IsLiteral opening inner closing ∧
      cs = opening ++ (inner ++ closing) := by
  unfold scan at h
  split at h
  · rename_i rest hblocks
    obtain ⟨inner, hinner, rfl⟩ := @exists_of_scanTextBlock rest (by simpa using h)
    exact ⟨_, _, _, .textBlock hblocks hinner, rfl⟩
  · cases h
  · rename_i c rest _
    split at h
    · rename_i htemplate
      obtain ⟨accepted, hc⟩ := Bool.and_eq_true_iff.1 htemplate
      obtain rfl := beq_iff_eq.1 hc
      obtain ⟨inner, hinner, rfl⟩ := @exists_of_scanQuoted _ _ rest (by simpa using h)
      exact ⟨_, _, _, .template accepted hinner, rfl⟩
    · split at h
      · rename_i result hmarked
        exact exists_of_scanMarked (hmarked.trans (congrArg some h))
      · split at h
        · rename_i accepted
          obtain ⟨inner, hinner, rfl⟩ := @exists_of_scanQuoted _ _ rest (by simpa using h)
          exact ⟨_, _, _, .quoted (List.contains_iff_mem.1 accepted) hinner, rfl⟩
        · cases h

/-- The inside does not start with the quote that ends it. -/
theorem IsQuoted.head?_ne (hquote : quote ≠ '\\') (h : IsQuoted quote multiline inner) :
    inner.head? ≠ some quote := by
  cases h with
  | nil => simp
  | escape => simpa using hquote.symm
  | char plain inside => simpa using inside

/-- The quotes of a language. -/
theorem quote_cases {l : Language} (h : quote ∈ l.strings.quotes) :
    quote = '"' ∨ quote = '\'' := by
  cases l <;>
    simpa [Language.strings, CSharp.strings, Java.strings, TypeScript.strings] using h

/-- A quote that does not start a text block opens a literal up to the next one. -/
theorem scan_quote {l : Language} (h : quote ∈ l.strings.quotes)
    (hhead : inner.head? ≠ some quote) :
    l.strings.scan (quote :: (inner ++ [quote])) =
      (scanQuoted quote false (inner ++ [quote])).map (· + 1) := by
  have hblock : ∀ rest, quote :: (inner ++ [quote]) ≠ '"' :: '"' :: '"' :: rest := by
    intro rest heq
    obtain ⟨rfl, heq⟩ := List.cons.inj heq
    cases inner with
    | nil => simp at heq
    | cons c cs => exact hhead (by simp [(List.cons.inj heq).1])
  unfold scan
  split
  · rename_i rest _ heq
    exact absurd heq (hblock rest)
  · simp_all
  · rename_i c rest heq _
    obtain ⟨rfl, rfl⟩ := List.cons.inj heq
    rcases quote_cases h with rfl | rfl <;> cases l <;> rfl

/-- The literals of a language are the texts that are read as a whole. -/
theorem scan_iff {l : Language} : l.strings.scan cs = some cs.length ↔
    ∃ opening inner closing, l.strings.IsLiteral opening inner closing ∧
      cs = opening ++ (inner ++ closing) := by
  refine ⟨exists_of_scan, ?_⟩
  rintro ⟨opening, inner, closing, hliteral, rfl⟩
  cases hliteral with
  | @quoted quote _ accepted inside =>
      have hslash : quote ≠ '\\' := by rcases quote_cases accepted with rfl | rfl <;> decide
      rw [List.singleton_append, scan_quote accepted (inside.head?_ne hslash), inside.scan hslash]
      simp
  | interpolated accepted inside =>
      have hscan : l.strings.scan ('$' :: '"' :: (inner ++ ['"'])) =
          (scanQuoted '"' false (inner ++ ['"'])).map (· + 2) := by
        cases l with
        | csharp => rfl
        | _ => cases accepted
      rw [List.cons_append, List.singleton_append, hscan, inside.scan (by decide)]
      simp
  | verbatim accepted known inside =>
      have hscan : l.strings.scan (opening ++ (inner ++ ['"'])) =
          (scanVerbatim (inner ++ ['"'])).map (· + opening.length) := by
        cases l with
        | csharp =>
            simp only [verbatimMarks, List.mem_cons, List.not_mem_nil, or_false] at known
            rcases known with rfl | rfl | rfl <;> rfl
        | _ => cases accepted
      rw [hscan, inside.scan]
      simp
      omega
  | textBlock accepted inside =>
      have hscan : l.strings.scan (blockMarks ++ (inner ++ blockMarks)) =
          (scanTextBlock (inner ++ blockMarks)).map (· + 3) := by
        cases l with
        | java => rfl
        | _ => cases accepted
      rw [hscan, inside.scan]
      simp [blockMarks]
  | template accepted inside =>
      have hscan : l.strings.scan ('`' :: (inner ++ ['`'])) =
          (scanQuoted '`' true (inner ++ ['`'])).map (· + 1) := by
        cases l with
        | typescript => rfl
        | _ => cases accepted
      rw [List.singleton_append, hscan, inside.scan (by decide)]
      simp

/-- A literal ends with a mark. -/
theorem IsLiteral.length_pos {opening closing : List Char}
    (h : style.IsLiteral opening inner closing) : 0 < closing.length := by
  cases h <;> simp [blockMarks]

end StringStyle

/-! ## Taking the quotes off -/

namespace Text

open StringStyle (IsLiteral blockMarks)

variable {mark cs inner : List Char}

theorem between?_marks (mark inner : List Char) :
    between? mark (mark ++ (inner ++ mark)) = some inner := by
  have hlength : (mark ++ (inner ++ mark)).length - 2 * mark.length = inner.length := by
    simp only [List.length_append]
    omega
  rw [between?, hlength, List.drop_left, List.take_left, if_pos]
  simp only [Bool.and_eq_true, decide_eq_true_eq, List.isPrefixOf_iff_prefix,
    List.isSuffixOf_iff_suffix, List.length_append]
  exact ⟨⟨by omega, List.prefix_append _ _⟩,
    (List.suffix_append _ _).trans (List.suffix_append _ _)⟩

theorem between?_eq_none_of_head? (hmark : mark ≠ []) (h : cs.head? ≠ mark.head?) :
    between? mark cs = none := by
  rw [between?, if_neg]
  simp only [Bool.and_eq_true, List.isPrefixOf_iff_prefix, not_and]
  rintro ⟨-, rest, rfl⟩
  cases mark with
  | nil => exact absurd rfl hmark
  | cons c cs => exact absurd rfl h

/-- The inside starts and ends with two quotes, which do not overlap. -/
def IsFramed (inner : List Char) : Prop :=
  4 ≤ inner.length ∧ ['"', '"'] <+: inner ∧ ['"', '"'] <:+ inner

instance (inner : List Char) : Decidable (IsFramed inner) :=
  inferInstanceAs (Decidable (4 ≤ inner.length ∧ ['"', '"'] <+: inner ∧ ['"', '"'] <:+ inner))

/-- Together with the quotes around it, such an inside looks like one between three quotes. -/
theorem between?_blockMarks_eq_none_iff :
    between? blockMarks ('"' :: (inner ++ ['"'])) = none ↔ ¬ IsFramed inner := by
  have hlong : 2 * blockMarks.length ≤ ('"' :: (inner ++ ['"'])).length ↔ 4 ≤ inner.length := by
    simp [blockMarks]
  have hstart (h : 4 ≤ inner.length) :
      blockMarks <+: '"' :: (inner ++ ['"']) ↔ ['"', '"'] <+: inner := by
    rw [blockMarks, List.cons_prefix_cons, and_iff_right rfl, List.prefix_concat_iff,
      or_iff_right]
    intro heq
    have := congrArg List.length heq
    simp at this
    omega
  have hend (h : 4 ≤ inner.length) :
      blockMarks <:+ '"' :: (inner ++ ['"']) ↔ ['"', '"'] <:+ inner := by
    rw [show blockMarks = ['"', '"'] ++ ['"'] from rfl, ← List.cons_append,
      List.suffix_append_self_iff, List.suffix_cons_iff, or_iff_right]
    intro heq
    have := congrArg List.length heq
    simp at this
    omega
  rw [between?, ite_eq_right_iff, IsFramed]
  simp only [Bool.and_eq_true, decide_eq_true_eq, List.isPrefixOf_iff_prefix,
    List.isSuffixOf_iff_suffix, hlong, reduceCtorEq, imp_false, and_assoc]
  refine not_congr (and_congr_right fun h => ?_)
  rw [hstart h, hend h]

theorem length_of_between? (h : between? mark cs = some inner) :
    inner.length + 2 * mark.length = cs.length := by
  obtain ⟨hmarks, heq⟩ := Option.ite_none_right_eq_some.1 h
  obtain rfl := Option.some.inj heq
  simp only [Bool.and_eq_true, decide_eq_true_eq] at hmarks
  rw [List.length_take, List.length_drop]
  omega

/-- The marks are tried in order. -/
theorem findSome?_quoteMarks (cs : List Char) :
    quoteMarks.findSome? (between? · cs) = (between? blockMarks cs).or
      ((between? ['"'] cs).or ((between? ['\''] cs).or (between? ['`'] cs))) := by
  rw [show quoteMarks = [blockMarks, ['"'], ['\''], ['`']] from rfl]
  simp only [List.findSome?_cons, List.findSome?_nil]
  cases between? blockMarks cs <;> cases between? ['"'] cs <;> cases between? ['\''] cs <;>
    cases between? ['`'] cs <;> rfl

/-- Two double quotes are the marks of what is between them, unless that looks like being between
three of them. -/
theorem findSome?_double_iff :
    quoteMarks.findSome? (between? · ('"' :: (inner ++ ['"']))) = some inner ↔
      ¬ IsFramed inner := by
  have hone : between? ['"'] ('"' :: (inner ++ ['"'])) = some inner := between?_marks ['"'] inner
  rw [← between?_blockMarks_eq_none_iff, findSome?_quoteMarks]
  cases hblock : between? blockMarks ('"' :: (inner ++ ['"'])) with
  | none => simp [hone]
  | some found =>
      -- what is found is shorter
      have hlength := length_of_between? hblock
      simp only [blockMarks, List.length_cons, List.length_nil, List.length_append] at hlength
      refine iff_of_false (fun heq => ?_) nofun
      obtain rfl := Option.some.inj heq
      omega

/-- Other quotes are the marks of what is between them. -/
theorem findSome?_single {quote : Char} (hquote : quote = '\'' ∨ quote = '`') :
    quoteMarks.findSome? (between? · (quote :: (inner ++ [quote]))) = some inner := by
  have hone : between? [quote] (quote :: (inner ++ [quote])) = some inner :=
    between?_marks [quote] inner
  have hother (mark : List Char) (hmark : mark ≠ []) (hne : some quote ≠ mark.head?) :
      between? mark (quote :: (inner ++ [quote])) = none := between?_eq_none_of_head? hmark hne
  rw [findSome?_quoteMarks]
  rcases hquote with rfl | rfl
  · rw [hother blockMarks nofun nofun, hother ['"'] nofun nofun, hone]
    rfl
  · rw [hother blockMarks nofun nofun, hother ['"'] nofun nofun,
      hother ['\''] nofun nofun, hone]
    rfl

theorem findSome?_blockMarks (inner : List Char) :
    quoteMarks.findSome? (between? · (blockMarks ++ (inner ++ blockMarks))) = some inner := by
  rw [findSome?_quoteMarks, between?_marks, Option.some_or]

theorem findSome?_at (cs : List Char) : quoteMarks.findSome? (between? · ('@' :: cs)) = none := by
  have hother (mark : List Char) (hmark : mark ≠ []) (hne : some '@' ≠ mark.head?) :
      between? mark ('@' :: cs) = none := between?_eq_none_of_head? hmark hne
  rw [findSome?_quoteMarks, hother blockMarks nofun nofun,
    hother ['"'] nofun nofun, hother ['\''] nofun nofun,
    hother ['`'] nofun nofun]
  rfl

/-- The literals whose marks are not found again: verbatim ones behind a dollar sign and an at sign,
and those whose inside looks like being between three quotes together with the quotes around it. -/
def IsMisread (opening inner : List Char) : Prop :=
  opening = ['$', '@', '"'] ∨ opening ∈ [['@', '"'], ['@', '$', '"']] ∧ IsFramed inner

instance (opening inner : List Char) : Decidable (IsMisread opening inner) :=
  inferInstanceAs (Decidable (opening = ['$', '@', '"'] ∨
    opening ∈ [['@', '"'], ['@', '$', '"']] ∧ IsFramed inner))

theorem unquote_eq_iff {s : String} {body : List Char}
    (hbody : (s.toList.dropWhile (· == '@')).dropWhile (· == '$') = body)
    (hlonger : inner.length < s.toList.length) :
    unquote s = String.ofList inner ↔ quoteMarks.findSome? (between? · body) = some inner := by
  rw [unquote, hbody]
  cases hfound : quoteMarks.findSome? (between? · body) with
  | none =>
      refine iff_of_false (fun heq : s = String.ofList inner => ?_) nofun
      rw [heq, String.toList_ofList] at hlonger
      exact absurd hlonger (Nat.lt_irrefl _)
  | some found =>
      rw [Option.some.injEq]
      exact String.ofList_inj

theorem not_isFramed_of_head?_ne (h : inner.head? ≠ some '"') : ¬ IsFramed inner := by
  rintro ⟨-, ⟨rest, rfl⟩, -⟩
  exact h rfl

/-- The marks are taken off a literal unless it is one of those. -/
theorem unquote_iff_of_isLiteral {l : Language} {s : String} {opening closing : List Char}
    (h : l.strings.IsLiteral opening inner closing)
    (hs : s.toList = opening ++ (inner ++ closing)) :
    unquote s = String.ofList inner ↔ ¬ IsMisread opening inner := by
  have hclosing := h.length_pos
  have hread {body : List Char} (hbody : ((opening ++ (inner ++ closing)).dropWhile
      (· == '@')).dropWhile (· == '$') = body) :
      unquote s = String.ofList inner ↔ quoteMarks.findSome? (between? · body) = some inner := by
    refine unquote_eq_iff (by rw [hs]; exact hbody) ?_
    rw [hs, List.length_append, List.length_append]
    omega
  cases h with
  | @quoted quote _ accepted inside =>
      have hplain : ¬ IsMisread [quote] inner := by simp [IsMisread]
      rw [iff_true_right hplain]
      rcases StringStyle.quote_cases accepted with rfl | rfl
      · refine (hread rfl).2 (findSome?_double_iff.2 (not_isFramed_of_head?_ne ?_))
        exact inside.head?_ne (by decide)
      · exact (hread rfl).2 (findSome?_single (.inl rfl))
  | interpolated accepted inside =>
      have hplain : ¬ IsMisread ['$', '"'] inner := by simp [IsMisread]
      rw [iff_true_right hplain]
      refine (hread rfl).2 (findSome?_double_iff.2 (not_isFramed_of_head?_ne ?_))
      exact inside.head?_ne (by decide)
  | verbatim accepted known inside =>
      simp only [StringStyle.verbatimMarks, List.mem_cons, List.not_mem_nil, or_false] at known
      rcases known with rfl | rfl | rfl
      · rw [hread rfl, IsMisread]
        simpa using findSome?_double_iff
      · rw [hread rfl, IsMisread]
        simp [findSome?_at]
      · rw [hread rfl, IsMisread]
        simpa using findSome?_double_iff
  | textBlock accepted inside =>
      have hplain : ¬ IsMisread blockMarks inner := by simp [IsMisread, blockMarks]
      rw [iff_true_right hplain]
      exact (hread rfl).2 (findSome?_blockMarks inner)
  | template accepted inside =>
      have hplain : ¬ IsMisread ['`'] inner := by simp [IsMisread]
      rw [iff_true_right hplain]
      exact (hread rfl).2 (findSome?_single (.inr rfl))

/-- The texts that are read as a string literal are those between the marks of a literal.  These
marks are taken off, and nothing else, if and only if it is not one of the literals whose marks are
not found again. -/
theorem unquote_iff_of_scan (l : Language) (s : String) :
    ((Recognizer.string l.strings).scan s.toList = some s.toList.length ↔
      ∃ opening inner closing, l.strings.IsLiteral opening inner closing ∧
        s.toList = opening ++ (inner ++ closing)) ∧
    ∀ opening inner closing, l.strings.IsLiteral opening inner closing →
      s.toList = opening ++ (inner ++ closing) →
        (unquote s = String.ofList inner ↔ ¬ IsMisread opening inner) := by
  refine ⟨?_, fun _ _ _ hliteral hs => unquote_iff_of_isLiteral hliteral hs⟩
  rw [Recognizer.scan, Recognizer.read, Option.filter_eq_some_iff, StringStyle.scan_iff,
    and_iff_left_of_imp]
  rintro ⟨opening, inner, closing, hliteral, hs⟩
  rw [decide_eq_true_eq, hs, List.length_append, List.length_append]
  have hclosing := hliteral.length_pos
  omega

/-- A verbatim literal whose inside starts with a doubled quote. -/
theorem unquote_iff_of_scan_verbatim :
    (Recognizer.string Language.csharp.strings).scan "@\"\"\"a\"\" b\"".toList = some 10 ∧
      unquote "@\"\"\"a\"\" b\"" = "\"\"a\"\" b" := by
  obtain ⟨hscan, hunquote⟩ := unquote_iff_of_scan .csharp "@\"\"\"a\"\" b\""
  have hliteral : Language.csharp.strings.IsLiteral ['@', '"'] "\"\"a\"\" b".toList ['"'] :=
    .verbatim rfl (by decide) (.doubled (.char (by decide) (.doubled (.char (by decide)
      (.char (by decide) .nil)))))
  refine ⟨hscan.2 ⟨_, _, _, hliteral, rfl⟩, (hunquote _ _ _ hliteral rfl).2 (by decide)⟩

/-- The marks of a literal are not found again behind a dollar sign and an at sign, and other marks
are found where its inside starts and ends with a doubled quote. -/
theorem not_unquote_of_scan :
    Language.csharp.strings.IsLiteral ['$', '@', '"'] ['c'] ['"'] ∧
      (Recognizer.string Language.csharp.strings).scan "$@\"c\"".toList = some 5 ∧
      unquote "$@\"c\"" = "$@\"c\"" ∧
    Language.csharp.strings.IsLiteral ['@', '"'] "\"\"c\"\"".toList ['"'] ∧
      (Recognizer.string Language.csharp.strings).scan "@\"\"\"c\"\"\"".toList = some 8 ∧
      unquote "@\"\"\"c\"\"\"" = "c" :=
  ⟨.verbatim rfl (by decide) (.char (by decide) .nil), by decide, by decide,
    .verbatim rfl (by decide) (.doubled (.char (by decide) (.doubled .nil))), by decide, by decide⟩

end Text

end Outline
