import Outline.Proofs.Relayout.Literals
import Outline.Proofs.Token.Index

/-!
# Matches in another layout

What the rules of a language that writes the type first make of the front of a text, where the
first character is neither blank nor the start of a line comment or a directive.  The first rule
that matches is the same in every layout, and so is what it reads, if it is no identifier and if
string literals and comments are kept.

* `Dialect.match?_other_relaid` — the match of a rule that reads no identifiers.
* `Dialect.match?_identifier_relaid` — the match of the rule of identifiers.
* `Dialect.match?_name` — where a name starts, an identifier is read.
-/

namespace Outline

open Text (isBlank)

variable {allowed : Nat → List Char → Nat → List Char → Prop} {p q : Nat} {cs ds : List Char}

/-! ## The rules of a language that writes the type first -/

namespace Dialect

/-- The flavour of the identifiers. -/
def identifiers (d : Dialect) : IdentifierStyle :=
  match d.language with
  | .csharp => CSharp.identifiers d.maxDepth
  | .java => Java.identifiers d.maxDepth
  | .typescript => TypeScript.identifiers d.maxDepth

variable {d : Dialect}

theorem match?_eq (d : Dialect) (c : Char) (cs : List Char) :
    d.ruleSet.match? c cs =
      ((d.language.rules d.maxDepth).filter (·.mayStart c)).findSome? (·.match? (c :: cs)) := by
  rw [RuleSet.match?, ruleSet, RuleSet.candidateRules_ofRules]

/-- What the recognizers of such a language are made of. -/
def Uses (d : Dialect) : Recognizer → Prop
  | .lineComment opening => opening = "//"
  | .blockComment opening closing => opening = "/*" ∧ closing = "*/"
  | .string style => d.language = .csharp ∧ style = CSharp.strings ∨
      d.language = .java ∧ style = Java.strings
  | .identifier style => style = d.identifiers
  | .operators words | .separators words => ∀ w ∈ words, ∀ c ∈ w.toList, isBlank c = false
  | .directive mark => mark = '#'
  | .whitespace | .block _ _ | .number => True

theorem isBlank_of_words {words : List String}
    (h : (words.all fun w => w.toList.all (!isBlank ·)) = true) :
    ∀ w ∈ words, ∀ c ∈ w.toList, isBlank c = false := by
  intro w hw c hc
  simpa using List.all_eq_true.1 (List.all_eq_true.1 h w hw) c hc

theorem uses_of_mem (hd : d.language.memberOrder = .typeFirst) {r : Rule}
    (hr : r ∈ d.language.rules d.maxDepth) : d.Uses r.recognizer := by
  cases hl : d.language with
  | csharp =>
      have hid : d.identifiers = CSharp.identifiers d.maxDepth := by rw [identifiers, hl]
      rw [hl] at hr
      simp only [Language.rules, CSharp.rules, List.mem_cons, List.not_mem_nil, or_false] at hr
      rcases hr with rfl | rfl | rfl | rfl | rfl | rfl | rfl | rfl | rfl | rfl | rfl | rfl
      all_goals first
        | trivial
        | exact rfl
        | exact ⟨rfl, rfl⟩
        | exact .inl ⟨hl, rfl⟩
        | exact hid.symm
        | exact isBlank_of_words (by decide)
  | java =>
      have hid : d.identifiers = Java.identifiers d.maxDepth := by rw [identifiers, hl]
      rw [hl] at hr
      simp only [Language.rules, Java.rules, List.mem_cons, List.not_mem_nil, or_false] at hr
      rcases hr with rfl | rfl | rfl | rfl | rfl | rfl | rfl | rfl | rfl | rfl | rfl
      all_goals first
        | trivial
        | exact rfl
        | exact ⟨rfl, rfl⟩
        | exact .inr ⟨hl, rfl⟩
        | exact hid.symm
        | exact isBlank_of_words (by decide)
  | typescript => rw [hl] at hd; cases hd

/-- What becomes of the text that a recognizer reads. -/
def classifierOf : Recognizer → Classifier
  | .whitespace | .directive _ => .discard
  | .lineComment _ | .blockComment _ _ => .ofKind .comment
  | .string _ => .ofKind .string
  | .block _ _ => .ofKind .block
  | .identifier _ => .keywordOrIdentifier
  | .operators _ => .ofKind .operator
  | .separators _ => .ofKind .separator
  | .number => .ofKind .number

theorem classifier_of_mem (hd : d.language.memberOrder = .typeFirst) {r : Rule}
    (hr : r ∈ d.language.rules d.maxDepth) : r.classifier = classifierOf r.recognizer := by
  cases hl : d.language with
  | csharp =>
      rw [hl] at hr
      simp only [Language.rules, CSharp.rules, List.mem_cons, List.not_mem_nil, or_false] at hr
      rcases hr with rfl | rfl | rfl | rfl | rfl | rfl | rfl | rfl | rfl | rfl | rfl | rfl <;> rfl
  | java =>
      rw [hl] at hr
      simp only [Language.rules, Java.rules, List.mem_cons, List.not_mem_nil, or_false] at hr
      rcases hr with rfl | rfl | rfl | rfl | rfl | rfl | rfl | rfl | rfl | rfl | rfl <;> rfl
  | typescript => rw [hl] at hd; cases hd

theorem solidMarks (hd : d.language.memberOrder = .typeFirst) : d.identifiers.SolidMarks := by
  unfold identifiers
  cases hl : d.language with
  | csharp => exact ⟨by simp [CSharp.identifiers]; decide, by simp [CSharp.identifiers]⟩
  | java => exact ⟨by simp [Java.identifiers]; decide, by simp [Java.identifiers]; decide⟩
  | typescript => rw [hl] at hd; cases hd

end Dialect

/-! ## Identifiers -/

namespace IdentifierStyle

/-- The length of the list of type arguments behind a name that belongs to an identifier; none if
the list cannot be read. -/
def listLength (style : IdentifierStyle) (cs : List Char) : Nat :=
  match style.maxDepth with
  | 0 => 0
  | depth + 1 =>
    if style.generics then
      (scanBrackets (style.scanArgument (style.scanType depth true)) cs).getD 0
    else 0

/-- An identifier is a name with a list of arguments, if one can be read, and array brackets. -/
theorem scan_eq (style : IdentifierStyle) (cs : List Char) :
    style.scan cs = (style.scanDotted cs).map fun n =>
      n + style.listLength (cs.drop n) +
        scanArrays (cs.drop (n + style.listLength (cs.drop n))) := by
  have hbrackets : ∀ (arg : List Char → Option Nat) (xs : List Char), xs.head? ≠ some '<' →
      scanBrackets arg xs = none := by
    intro arg xs hxs
    unfold scanBrackets
    split
    · simp at hxs
    · rfl
  unfold scan listLength
  cases hdepth : style.maxDepth with
  | zero =>
      rw [scanType]
      cases hn : style.scanDotted cs with
      | none => rfl
      | some n => simp [scanType.finish]
  | succ depth =>
      rw [scanType]
      cases hn : style.scanDotted cs with
      | none => rfl
      | some n =>
          by_cases hlist : style.generics && (cs.drop n).head? == some '<'
          · have hgenerics : style.generics = true := (Bool.and_eq_true_iff.1 hlist).1
            simp only [Option.bind_eq_bind, Option.bind_some, if_pos hlist, if_pos hgenerics,
              Option.map_some]
            cases scanBrackets (style.scanArgument (style.scanType depth true)) (cs.drop n) <;>
              simp [scanType.finish]
          · have hnone : (if style.generics then (scanBrackets (style.scanArgument
                (style.scanType depth true)) (cs.drop n)).getD 0 else 0) = 0 := by
              split
              · rename_i hgenerics
                rw [hbrackets _ _ fun hhead => hlist (by simp [hgenerics, hhead])]
                rfl
              · rfl
            simp only [Option.bind_eq_bind, Option.bind_some, if_neg hlist, Option.map_some, hnone]
            simp [scanType.finish]

end IdentifierStyle

/-! ## One rule -/

/-- The front of a text at which neither white space nor a line comment nor a directive starts. -/
structure Front (c : Char) (cs : List Char) : Prop where
  /-- The first character is not blank. -/
  solid : isBlank c = false
  /-- No line comment starts. -/
  noLineComment : ['/', '/'].isPrefixOf (c :: cs) = false
  /-- No directive starts. -/
  noDirective : c ≠ '#'

theorem Front.relaid {c : Char} (hf : Front c cs) (h : Relaid allowed p (c :: cs) q (c :: ds)) :
    Front c ds :=
  have hmarks := h.isPrefixOf_eq (w := ['/', '/']) (Text.solid_of_all (by decide))
  ⟨hf.solid, by rw [hmarks, hf.noLineComment], hf.noDirective⟩

namespace Recognizer

theorem scan_eq_of_read {r : Recognizer} (h : r.read ds = r.read cs) : r.scan ds = r.scan cs := by
  rw [scan, scan, h]

theorem scan_operators_relaid {words : List String}
    (hwords : ∀ w ∈ words, ∀ c ∈ w.toList, isBlank c = false) (h : Relaid allowed p cs q ds) :
    (operators words).scan ds = (operators words).scan cs :=
  scan_eq_of_read (r := operators words) (longestWord_relaid hwords h)

theorem scan_separators_relaid {words : List String}
    (hwords : ∀ w ∈ words, ∀ c ∈ w.toList, isBlank c = false) (h : Relaid allowed p cs q ds) :
    (separators words).scan ds = (separators words).scan cs :=
  scan_eq_of_read (r := separators words) (longestWord_relaid hwords h)

theorem scan_number_relaid (h : Relaid allowed p cs q ds) : number.scan ds = number.scan cs :=
  scan_eq_of_read (r := number) (NumberLiteral.scan_relaid h)

theorem scan_whitespace {c : Char} (hc : isBlank c = false) (cs : List Char) :
    whitespace.scan (c :: cs) = none := by
  simp [scan, read, hc]

theorem scan_lineComment {c : Char} (hf : Front c cs) :
    (lineComment "//").scan (c :: cs) = none := by
  have hno : "//".toList.isPrefixOf (c :: cs) = false := hf.noLineComment
  rw [scan, read, if_neg (by rw [hno]; exact Bool.false_ne_true)]
  rfl

theorem scan_directive {c : Char} (hf : Front c cs) : (directive '#').scan (c :: cs) = none := by
  have hno : ((c :: cs).head? == some '#') = false := by simpa using hf.noDirective
  rw [scan, read, if_neg (by rw [hno]; exact Bool.false_ne_true)]
  rfl

theorem scan_identifier_eq_none {style : IdentifierStyle} :
    (identifier style).scan cs = none ↔ style.scanDotted cs = none := by
  rw [scan, read, style.scan_eq, Option.filter_eq_none_iff]
  constructor
  · intro h
    cases hn : style.scanDotted cs with
    | none => rfl
    | some n =>
        have hpos := IdentifierStyle.pos_of_scanDotted hn
        rw [hn, Option.map_some] at h
        exact absurd (h _ rfl) (by simp; omega)
  · intro h
    rw [h]
    simp

/-- A comment that is kept. -/
theorem scan_blockComment_relaid {n : Nat} (hscan : (blockComment "/*" "*/").scan cs = some n)
    (hkept : ds.take n = cs.take n) : (blockComment "/*" "*/").scan ds = some n := by
  have hopening : "/*".toList = ['/', '*'] := rfl
  have hclosing : "*/".toList = ['*', '/'] := rfl
  have hlength : "/*".length = 2 := rfl
  obtain ⟨hread, hpos⟩ := Option.filter_eq_some_iff.1 hscan
  rw [read, hopening, hclosing, hlength] at hread
  split at hread
  · rename_i hprefix
    obtain ⟨m, hm, rfl⟩ := Option.map_eq_some_iff.1 hread
    obtain ⟨cs, rfl⟩ := List.isPrefixOf_iff_prefix.1 hprefix
    rw [Nat.add_comm] at hkept
    obtain ⟨rest, rfl, hrest⟩ := exists_cons_of_take hkept
    obtain ⟨ds, rfl, htail⟩ := exists_cons_of_take hrest
    have hclosed := scanThrough_of_take (by decide) hm htail
    rw [scan, read, hopening, hclosing, hlength, if_pos (by simp [List.isPrefixOf])]
    simp only [List.drop_succ_cons, List.drop_zero, hclosed, Option.map_some]
    rw [Option.filter_some, if_pos hpos]
  · cases hread

/-- A comment that never ends. -/
theorem scan_blockComment_eq_none_relaid (h : Relaid allowed p cs q ds)
    (hnone : (blockComment "/*" "*/").scan cs = none) :
    (blockComment "/*" "*/").scan ds = none := by
  have hopening : "/*".toList = ['/', '*'] := rfl
  have hclosing : "*/".toList = ['*', '/'] := rfl
  have hlength : "/*".length = 2 := rfl
  rw [scan, read, hopening, hclosing, hlength] at hnone ⊢
  rw [h.isPrefixOf_eq (Text.solid_of_all (by decide))]
  split at hnone
  · rename_i hprefix
    rw [if_pos hprefix]
    cases hthrough : scanThrough ['*', '/'] (cs.drop 2) with
    | some m =>
        have hlong := length_le_of_scanThrough hthrough
        rw [hthrough] at hnone
        simp at hnone
    | none =>
        have hdrop : Relaid allowed (p + 2) (cs.drop 2) (q + 2) (ds.drop 2) :=
          h.drop_of_isPrefixOf (w := ['/', '*']) (Text.solid_of_all (by decide)) hprefix
        rw [scanThrough_eq_none_relaid (by decide) (Text.solid_of_all (by decide)) hdrop
          hthrough]
        rfl
  · rename_i hprefix
    rw [if_neg hprefix]
    rfl

end Recognizer

namespace Dialect

variable {d : Dialect} {c : Char}

/-- A rule that does not match does so in every layout, string literals apart. -/
theorem scan_eq_none_relaid (hd : d.language.memberOrder = .typeFirst) {r : Recognizer}
    (hr : d.Uses r) (hstring : ∀ style, r ≠ .string style) (hf : Front c cs)
    (h : Relaid allowed p (c :: cs) q (c :: ds)) (hnone : r.scan (c :: cs) = none) :
    r.scan (c :: ds) = none := by
  cases r with
  | whitespace => exact Recognizer.scan_whitespace hf.solid ds
  | lineComment opening =>
      obtain rfl : opening = "//" := hr
      exact Recognizer.scan_lineComment (hf.relaid h)
  | blockComment opening closing =>
      obtain ⟨rfl, rfl⟩ : opening = "/*" ∧ closing = "*/" := hr
      exact Recognizer.scan_blockComment_eq_none_relaid h hnone
  | string style => exact absurd rfl (hstring style)
  | block opening closing => rfl
  | identifier style =>
      obtain rfl : style = d.identifiers := hr
      rw [Recognizer.scan_identifier_eq_none] at hnone ⊢
      rw [IdentifierStyle.scanDotted_relaid (solidMarks hd) h, hnone]
  | operators words => rw [Recognizer.scan_operators_relaid hr h, hnone]
  | separators words => rw [Recognizer.scan_separators_relaid hr h, hnone]
  | number => rw [Recognizer.scan_number_relaid h, hnone]
  | directive mark =>
      obtain rfl : mark = '#' := hr
      exact Recognizer.scan_directive (hf.relaid h)

/-- What a rule reads is the same in every layout, if string literals and comments are kept and it
is no rule of identifiers. -/
theorem scan_eq_some_relaid {r : Recognizer} (hr : d.Uses r)
    (hidentifier : ∀ style, r ≠ .identifier style) (hf : Front c cs)
    (h : Relaid allowed p (c :: cs) q (c :: ds)) {n : Nat} (hscan : r.scan (c :: cs) = some n)
    (hkept : (c :: ds).take n = (c :: cs).take n)
    (hrest : Relaid allowed (p + n) ((c :: cs).drop n) (q + n) ((c :: ds).drop n)) :
    r.scan (c :: ds) = some n := by
  cases r with
  | whitespace => rw [Recognizer.scan_whitespace hf.solid cs] at hscan; cases hscan
  | lineComment opening =>
      obtain rfl : opening = "//" := hr
      rw [Recognizer.scan_lineComment hf] at hscan
      cases hscan
  | blockComment opening closing =>
      obtain ⟨rfl, rfl⟩ : opening = "/*" ∧ closing = "*/" := hr
      exact Recognizer.scan_blockComment_relaid hscan hkept
  | string style =>
      obtain ⟨hread, hpos⟩ := Option.filter_eq_some_iff.1 hscan
      rw [Recognizer.scan, Recognizer.read, StringStyle.scan_relaid h hread hkept hrest,
        Option.filter_some, if_pos hpos]
  | block opening closing => cases hscan
  | identifier style => exact absurd rfl (hidentifier style)
  | operators words => rw [Recognizer.scan_operators_relaid hr h, hscan]
  | separators words => rw [Recognizer.scan_separators_relaid hr h, hscan]
  | number => rw [Recognizer.scan_number_relaid h, hscan]
  | directive mark =>
      obtain rfl : mark = '#' := hr
      rw [Recognizer.scan_directive hf] at hscan
      cases hscan

/-- What is no string literal, comment or identifier holds no blank characters. -/
theorem solid_of_scan {r : Recognizer} (hr : d.Uses r) (hstring : ∀ style, r ≠ .string style)
    (hcomment : ∀ opening closing, r ≠ .blockComment opening closing)
    (hidentifier : ∀ style, r ≠ .identifier style) (hf : Front c cs) {n : Nat}
    (hscan : r.scan (c :: cs) = some n) : ∀ x ∈ (c :: cs).take n, isBlank x = false := by
  have hwords : ∀ {words : List String}, (∀ w ∈ words, ∀ c ∈ w.toList, isBlank c = false) →
      Recognizer.longestWord words (c :: cs) = some n →
      ∀ x ∈ (c :: cs).take n, isBlank x = false := by
    intro words hsolid hlongest x hx
    obtain ⟨w, hw, rfl, hprefix⟩ := Recognizer.exists_of_longestWord hlongest
    rw [← List.prefix_iff_eq_take.1 hprefix] at hx
    exact hsolid w hw x hx
  cases r with
  | whitespace => rw [Recognizer.scan_whitespace hf.solid cs] at hscan; cases hscan
  | lineComment opening =>
      obtain rfl : opening = "//" := hr
      rw [Recognizer.scan_lineComment hf] at hscan
      cases hscan
  | blockComment opening closing => exact absurd rfl (hcomment opening closing)
  | string style => exact absurd rfl (hstring style)
  | block opening closing => cases hscan
  | identifier style => exact absurd rfl (hidentifier style)
  | operators words => exact hwords hr (Option.filter_eq_some_iff.1 hscan).1
  | separators words => exact hwords hr (Option.filter_eq_some_iff.1 hscan).1
  | number => exact NumberLiteral.solid_scan _ _ (Option.filter_eq_some_iff.1 hscan).1
  | directive mark =>
      obtain rfl : mark = '#' := hr
      rw [Recognizer.scan_directive hf] at hscan
      cases hscan

/-! ## The first rule that matches -/

/-- The rules that the index lists at `c`. -/
abbrev listed (d : Dialect) (c : Char) : List Rule :=
  (d.language.rules d.maxDepth).filter (·.mayStart c)

/-- Where another rule matches, no string literal starts in any layout. -/
theorem scan_string_eq_none_relaid (hd : d.language.memberOrder = .typeFirst) {r s : Rule}
    (hr : r ∈ d.listed c) (hs : s ∈ d.listed c) {style : StringStyle}
    (hstyle : s.recognizer = .string style) (hother : ∀ style, r.recognizer ≠ .string style)
    {m : RuleMatch} (hmatch : r.match? (c :: cs) = some m)
    (h : Relaid allowed p (c :: cs) q (c :: ds)) : style.scan (c :: ds) = none := by
  have hlisted : d.ruleSet.candidateRules c = d.listed c := RuleSet.candidateRules_ofRules _ c
  have hne : r ≠ s := by
    rintro rfl
    exact hother style hstyle
  rcases candidateRules_of_string (hlisted ▸ hs) hstyle with hone | ⟨rfl, rfl, htwo⟩
  · rw [← hlisted, hone] at hr
    exact absurd (List.mem_singleton.1 hr) hne
  · obtain rfl : r = ⟨.identifier (CSharp.identifiers d.maxDepth), .keywordOrIdentifier⟩ := by
      rw [← hlisted, htwo] at hr
      simpa [hne] using hr
    have hid : CSharp.identifiers d.maxDepth = d.identifiers :=
      uses_of_mem hd (List.mem_filter.1 hr).1
    rw [Rule.match?_leaf (by simp)] at hmatch
    obtain ⟨n, hn, -⟩ := Option.map_eq_some_iff.1 hmatch
    have hname := IdentifierStyle.scanName_of_scan (Option.filter_eq_some_iff.1 hn).1
    rw [hid, ← IdentifierStyle.scanName_relaid (solidMarks hd) h, ← hid] at hname
    exact CSharp.scan_strings_of_scanName hname

/-- The first rule that matches is the same in every layout. -/
theorem match?_eq_of_first (hd : d.language.memberOrder = .typeFirst) (hf : Front c cs)
    (h : Relaid allowed p (c :: cs) q (c :: ds)) {m : RuleMatch}
    (found : d.ruleSet.match? c cs = some m) :
    ∃ r ∈ d.language.rules d.maxDepth, r.match? (c :: cs) = some m ∧
      ∀ m', r.match? (c :: ds) = some m' → d.ruleSet.match? c ds = some m' := by
  rw [match?_eq] at found
  obtain ⟨before, r, after, hlist, hmatch, hbefore⟩ := List.findSome?_eq_some_iff.1 found
  have hr : r ∈ d.listed c := by rw [listed, hlist]; simp
  refine ⟨r, (List.mem_filter.1 hr).1, hmatch, fun m' hm' => ?_⟩
  rw [match?_eq, hlist]
  refine List.findSome?_eq_some_iff.2 ⟨before, r, after, rfl, hm', fun s hs => ?_⟩
  have hslisted : s ∈ d.listed c := by rw [listed, hlist]; simp [hs]
  have huses := uses_of_mem hd (List.mem_filter.1 hslisted).1
  have hnone := hbefore s hs
  by_cases hblock : ∃ opening closing, s.recognizer = .block opening closing
  · obtain ⟨opening, closing, hblock⟩ := hblock
    simpa [Rule.match?, hblock] using hnone
  have hleaf : ∀ opening closing, s.recognizer ≠ .block opening closing :=
    fun opening closing h => hblock ⟨opening, closing, h⟩
  rw [Rule.match?_leaf hleaf, Option.map_eq_none_iff] at hnone ⊢
  by_cases hstring : ∃ style, s.recognizer = .string style
  · obtain ⟨style, hstyle⟩ := hstring
    -- no two string rules of a language differ, so that the rule that matches is of another kind
    have hother : ∀ style, r.recognizer ≠ .string style := by
      intro style' hstyle'
      have huses' := uses_of_mem hd (List.mem_filter.1 hr).1
      rw [hstyle'] at huses'
      rw [hstyle] at huses
      obtain rfl : style' = style := by
        rcases huses with ⟨hl, rfl⟩ | ⟨hl, rfl⟩ <;> rcases huses' with ⟨hl', rfl⟩ | ⟨hl', rfl⟩
        · rfl
        · rw [hl] at hl'
          cases hl'
        · rw [hl] at hl'
          cases hl'
        · rfl
      rw [Rule.match?_leaf (by simp [hstyle']), hstyle', ← hstyle, hnone] at hmatch
      cases hmatch
    have hno := scan_string_eq_none_relaid hd hr hslisted hstyle hother hmatch h
    rw [hstyle, Recognizer.scan, Recognizer.read, hno]
    rfl
  · exact scan_eq_none_relaid hd huses (fun style hstyle => hstring ⟨style, hstyle⟩) hf h hnone

/-- A match that reads an identifier. -/
theorem match?_identifier_relaid (hd : d.language.memberOrder = .typeFirst) (hf : Front c cs)
    (h : Relaid allowed p (c :: cs) q (c :: ds)) {n : Nat}
    (found : d.ruleSet.match? c cs = some (.reads n .keywordOrIdentifier)) :
    d.identifiers.scan (c :: cs) = some n ∧ ∃ n', d.identifiers.scan (c :: ds) = some n' ∧
      d.ruleSet.match? c ds = some (.reads n' .keywordOrIdentifier) := by
  obtain ⟨r, hr, hmatch, hfirst⟩ := match?_eq_of_first hd hf h found
  obtain ⟨hscan, hclassifier⟩ := Rule.match?_reads hmatch
  obtain ⟨style, hrec⟩ : ∃ style, r.recognizer = .identifier style := by
    rw [classifier_of_mem hd hr] at hclassifier
    cases hrec : r.recognizer <;> rw [hrec] at hclassifier <;> first
      | exact ⟨_, rfl⟩
      | cases hclassifier
  have huses := uses_of_mem hd hr
  rw [hrec] at huses hscan
  obtain rfl : style = d.identifiers := huses
  refine ⟨(Option.filter_eq_some_iff.1 hscan).1, ?_⟩
  have hname : d.identifiers.scanDotted (c :: cs) ≠ none := fun hnone => by
    rw [Recognizer.scan_identifier_eq_none.2 hnone] at hscan
    cases hscan
  rw [← IdentifierStyle.scanDotted_relaid (solidMarks hd) h] at hname
  cases hscan' : (Recognizer.identifier d.identifiers).scan (c :: ds) with
  | none => exact absurd (Recognizer.scan_identifier_eq_none.1 hscan') hname
  | some n' =>
      refine ⟨n', (Option.filter_eq_some_iff.1 hscan').1, hfirst _ ?_⟩
      rw [Rule.match?_leaf (by simp [hrec]), hrec, hscan', hclassifier]
      rfl

/-- Any other match. -/
theorem match?_other_relaid (hd : d.language.memberOrder = .typeFirst) (hf : Front c cs)
    (h : Relaid allowed p (c :: cs) q (c :: ds)) {m : RuleMatch}
    (found : d.ruleSet.match? c cs = some m) (hother : ∀ n, m ≠ .reads n .keywordOrIdentifier)
    (hliteral : ∀ n kind, m = .reads n (.ofKind kind) → kind.isTrivial = true →
      (c :: ds).take n = (c :: cs).take n ∧
        Relaid allowed (p + n) ((c :: cs).drop n) (q + n) ((c :: ds).drop n)) :
    d.ruleSet.match? c ds = some m ∧ ∀ n classifier, m = .reads n classifier →
      (c :: ds).take n = (c :: cs).take n ∧
        Relaid allowed (p + n) ((c :: cs).drop n) (q + n) ((c :: ds).drop n) := by
  obtain ⟨r, hr, hmatch, hfirst⟩ := match?_eq_of_first hd hf h found
  by_cases hblock : ∃ opening closing, r.recognizer = .block opening closing
  · obtain ⟨opening, closing, hblock⟩ := hblock
    obtain rfl : m = .opens closing := by
      rw [Rule.match?, hblock] at hmatch
      simp only [Option.ite_none_right_eq_some] at hmatch
      exact (Option.some.inj hmatch.2).symm
    exact ⟨hfirst _ (by simpa [Rule.match?, hblock] using hmatch), fun n classifier h => nomatch h⟩
  have hleaf : ∀ opening closing, r.recognizer ≠ .block opening closing :=
    fun opening closing h => hblock ⟨opening, closing, h⟩
  obtain ⟨n, hscan, rfl⟩ :=
    Option.map_eq_some_iff.1 ((Rule.match?_leaf hleaf (c :: cs)).symm.trans hmatch)
  have huses := uses_of_mem hd hr
  have hclassifier := classifier_of_mem hd hr
  have hidentifier : ∀ style, r.recognizer ≠ .identifier style := fun style hstyle =>
    hother n (by rw [hclassifier, hstyle]; rfl)
  have hkept : (c :: ds).take n = (c :: cs).take n ∧
      Relaid allowed (p + n) ((c :: cs).drop n) (q + n) ((c :: ds).drop n) := by
    by_cases hstring : ∃ style, r.recognizer = .string style
    · obtain ⟨style, hstyle⟩ := hstring
      exact hliteral n .string (by rw [hclassifier, hstyle]; rfl) rfl
    by_cases hcomment : ∃ opening closing, r.recognizer = .blockComment opening closing
    · obtain ⟨opening, closing, hcomment⟩ := hcomment
      exact hliteral n .comment (by rw [hclassifier, hcomment]; rfl) rfl
    · refine h.split_solid (Recognizer.scan_bounds hscan).2 ?_
      exact solid_of_scan huses (fun style h => hstring ⟨style, h⟩)
        (fun opening closing h => hcomment ⟨opening, closing, h⟩) hidentifier hf hscan
  refine ⟨hfirst _ ?_, ?_⟩
  · rw [Rule.match?_leaf hleaf,
      scan_eq_some_relaid huses hidentifier hf h hscan hkept.1 hkept.2]
    rfl
  · intro n' classifier heq
    cases heq
    exact hkept

/-! ## Where identifiers and blanks start -/

/-- A rule none of whose first characters starts a name does not start where a name does. -/
theorem mayStart_eq_false {style : IdentifierStyle} (hc : style.starts c = true) {s : Rule}
    (hunicode : s.recognizer.acceptsUnicode = false)
    (hfirst : (s.recognizer.firstChars.all fun x => !style.starts x) = true) :
    s.mayStart c = false := by
  rw [Rule.mayStart, hunicode]
  split
  · refine Bool.eq_false_iff.2 fun hmem => ?_
    have := List.all_eq_true.1 hfirst c (List.contains_iff_mem.1 hmem)
    rw [hc] at this
    cases this
  · rfl

/-- The rules in front of that of identifiers, and those behind it. -/
theorem exists_rules_eq (hd : d.language.memberOrder = .typeFirst) :
    ∃ before after, d.language.rules d.maxDepth =
        before ++ ⟨.identifier d.identifiers, .keywordOrIdentifier⟩ :: after ∧
      ∀ s ∈ before, s.recognizer = .whitespace ∨
        d.language = .csharp ∧ s.recognizer = .string CSharp.strings ∨
        s.recognizer.acceptsUnicode = false ∧
          (s.recognizer.firstChars.all fun x => !d.identifiers.starts x) = true := by
  cases hl : d.language with
  | csharp =>
      have hid : d.identifiers = CSharp.identifiers d.maxDepth := by rw [identifiers, hl]
      refine ⟨(CSharp.rules d.maxDepth).take 8, (CSharp.rules d.maxDepth).drop 9, ?_, ?_⟩
      · rw [hid]
        rfl
      · intro s hs
        simp only [CSharp.rules, List.take, List.mem_cons, List.not_mem_nil, or_false] at hs
        rw [hid]
        rcases hs with rfl | rfl | rfl | rfl | rfl | rfl | rfl | rfl
        all_goals first
          | exact .inl rfl
          | exact .inr (.inl ⟨rfl, rfl⟩)
          | exact .inr (.inr ⟨rfl, rfl⟩)
  | java =>
      have hid : d.identifiers = Java.identifiers d.maxDepth := by rw [identifiers, hl]
      refine ⟨(Java.rules d.maxDepth).take 7, (Java.rules d.maxDepth).drop 8, ?_, ?_⟩
      · rw [hid]
        rfl
      · intro s hs
        simp only [Java.rules, List.take, List.mem_cons, List.not_mem_nil, or_false] at hs
        rw [hid]
        rcases hs with rfl | rfl | rfl | rfl | rfl | rfl | rfl
        all_goals first
          | exact .inl rfl
          | exact .inr (.inr ⟨rfl, rfl⟩)
  | typescript => rw [hl] at hd; cases hd

/-- Where a name starts, an identifier is read. -/
theorem match?_name (hd : d.language.memberOrder = .typeFirst) {n : Nat}
    (hscan : d.identifiers.scan (c :: cs) = some n) :
    d.ruleSet.match? c cs = some (.reads n .keywordOrIdentifier) := by
  have hname := IdentifierStyle.scanName_of_scan hscan
  have hstarts := IdentifierStyle.starts_of_scan hscan
  have hsome : (Recognizer.identifier d.identifiers).scan (c :: cs) = some n := by
    have hpos : 0 < n := by
      cases hdotted : d.identifiers.scanDotted (c :: cs) with
      | none => rw [IdentifierStyle.scan_eq, hdotted] at hscan; cases hscan
      | some k =>
          have := IdentifierStyle.pos_of_scanDotted hdotted
          rw [IdentifierStyle.scan_eq, hdotted, Option.map_some, Option.some.injEq] at hscan
          omega
    rw [Recognizer.scan, Recognizer.read, hscan, Option.filter_some, if_pos (decide_eq_true hpos)]
  have hmay : Rule.mayStart ⟨.identifier d.identifiers, .keywordOrIdentifier⟩ c = true := by
    rw [Rule.mayStart]
    split
    · rename_i hsmall
      exact List.contains_iff_mem.2 (IdentifierStyle.mem_firstChars_of_starts hstarts hsmall)
    · rfl
  obtain ⟨before, after, hrules, hbefore⟩ := exists_rules_eq hd
  rw [match?_eq, hrules, List.filter_append, List.filter_cons, if_pos hmay]
  refine List.findSome?_eq_some_iff.2 ⟨_, _, _, rfl, ?_, fun s hs => ?_⟩
  · rw [Rule.match?_leaf (by simp), hsome]
    rfl
  · obtain ⟨hmem, hmays⟩ := List.mem_filter.1 hs
    rcases hbefore s hmem with hrec | ⟨hl, hrec⟩ | ⟨hunicode, hfirst⟩
    · rw [Rule.match?_leaf (by simp [hrec]), hrec,
        Recognizer.scan_whitespace ((solidMarks hd).isBlank_of_starts hstarts)]
      rfl
    · -- a string literal of C# may start with an at sign, too
      have hid : d.identifiers = CSharp.identifiers d.maxDepth := by rw [identifiers, hl]
      rw [hid] at hname hstarts
      obtain rfl : c = '@' := by
        rw [Rule.mayStart, hrec] at hmays
        split at hmays
        · have hchars : c = '"' ∨ c = '\'' ∨ c = '@' ∨ c = '$' := by
            simpa [Recognizer.firstChars, CSharp.strings] using hmays
          rcases hchars with rfl | rfl | rfl | rfl
          · cases hstarts
          · cases hstarts
          · rfl
          · cases hstarts
        · cases hmays
      rw [Rule.match?_leaf (by simp [hrec]), hrec, Recognizer.scan, Recognizer.read,
        CSharp.scan_strings_of_scanName hname]
      rfl
    · rw [mayStart_eq_false hstarts hunicode hfirst] at hmays
      cases hmays

/-- Where a blank character stands, the run of blank characters is discarded. -/
theorem match?_blank (hd : d.language.memberOrder = .typeFirst) (hc : isBlank c = true) :
    d.ruleSet.match? c cs = some (.reads ((c :: cs).takeWhile isBlank).length .discard) := by
  obtain ⟨after, hrules⟩ : ∃ after, d.language.rules d.maxDepth =
      ⟨.whitespace, .discard⟩ :: after := by
    cases hl : d.language with
    | csharp => exact ⟨(CSharp.rules d.maxDepth).tail, rfl⟩
    | java => exact ⟨(Java.rules d.maxDepth).tail, rfl⟩
    | typescript => rw [hl] at hd; cases hd
  have hmay : Rule.mayStart ⟨.whitespace, .discard⟩ c = true := by
    have hfirst : (Text.blanks.all fun n => !(n < 0x80) ||
        Recognizer.whitespace.firstChars.contains (Char.ofNat n)) = true := by decide
    have := List.all_eq_true.1 hfirst _ (Text.mem_blanks_of_isBlank hc)
    rw [Char.ofNat_toNat] at this
    rw [Rule.mayStart]
    split
    · rename_i hsmall
      simpa [hsmall] using this
    · rfl
  rw [match?_eq, hrules, List.filter_cons, if_pos hmay, List.findSome?_cons,
    Rule.match?_leaf (by simp), Recognizer.scan, Recognizer.read, Option.filter_some,
    if_pos (by simp [hc])]
  rfl

end Dialect

end Outline
