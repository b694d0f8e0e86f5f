import Outline.Proofs.Relayout.Matching
import Outline.Proofs.TypeRef.Spelled

/-!
# The grammar of identifiers

What an identifier is, told without the scanner: a type is a dotted name that may carry a list of
arguments, marks and array brackets.  The scanner reads as much of the text as it can at each step,
and never needs to go back, since none of the characters around a name can stand in one.  So it
reads the longest type that the text starts with.

* `IdentifierStyle.IsType` — the grammar.
* `IdentifierStyle.isType_of_scan` — what the scanner reads is a type.
* `IdentifierStyle.Delimited` — the characters around names are set apart from those in them.
* `IdentifierStyle.Delimited.scanType_isType` — a type in front of a text is read, and a nested one
  is read exactly where its argument ends behind it.
* `Dialect.scan_longest` — the scanner reads the longest type.
-/

namespace Outline

namespace IdentifierStyle

/-! ## The grammar -/

/-- A name.  An additional character that starts it but continues no name is none on its own. -/
inductive IsSimpleName (style : IdentifierStyle) : List Char → Prop where
  /-- A character that starts the name, and those that continue it. -/
  | mk {c : Char} {cs : List Char} (starts : style.starts c = true)
      (continues : ∀ d ∈ cs, style.continues d = true)
      (lone : cs = [] → c ∈ style.extraStart → style.continues c = true) :
      IsSimpleName style (c :: cs)

/-- Names with dots between them. -/
inductive IsDottedName (style : IdentifierStyle) : List Char → Prop where
  /-- A single name. -/
  | single {cs : List Char} (name : style.IsSimpleName cs) : IsDottedName style cs
  /-- A name with a dot and further names behind it. -/
  | dot {cs ds : List Char} (name : style.IsSimpleName cs) (rest : IsDottedName style ds) :
      IsDottedName style (cs ++ '.' :: ds)

mutual

/-- A type with at most `depth` levels of angle brackets.  Only a nested type has a question
mark. -/
inductive IsType (style : IdentifierStyle) :
    (depth : Nat) → (nested : Bool) → List Char → Prop where
  /-- Without a list of arguments. -/
  | plain {depth : Nat} {nested : Bool} {name : List Char} {nullable : Bool} (dimensions : Nat)
      (named : style.IsDottedName name) (inside : nullable = true → nested = true) :
      IsType style depth nested (name ++ marksText nullable dimensions)
  /-- With a list of arguments. -/
  | generic {depth : Nat} {nested : Bool} {name list : List Char} {nullable : Bool}
      (k dimensions : Nat) (named : style.IsDottedName name) (accepted : style.generics = true)
      (listed : IsArguments style depth list) (inside : nullable = true → nested = true) :
      IsType style (depth + 1) nested
        (name ++ '<' :: (gap k ++ (list ++ '>' :: marksText nullable dimensions)))

/-- An argument: a type, or a wildcard where these are accepted. -/
inductive IsArgument (style : IdentifierStyle) : (depth : Nat) → List Char → Prop where
  /-- A type. -/
  | type {depth : Nat} {cs : List Char} (typed : IsType style depth true cs) :
      IsArgument style depth cs
  /-- A wildcard without a bound. -/
  | any {depth : Nat} (accepted : style.wildcards = true) : IsArgument style depth ['?']
  /-- A wildcard with a bound.  A space follows the keyword. -/
  | bound {depth : Nat} {keyword : String} {cs : List Char} (j k : Nat)
      (accepted : style.wildcards = true) (known : keyword ∈ ["extends", "super"])
      (typed : IsType style depth true cs) :
      IsArgument style depth ('?' :: (gap j ++ (keyword.toList ++ ' ' :: (gap k ++ cs))))

/-- Arguments with commas between them, and spaces around the commas and at the end. -/
inductive IsArguments (style : IdentifierStyle) : (depth : Nat) → List Char → Prop where
  /-- The last argument. -/
  | last {depth : Nat} {cs : List Char} (k : Nat) (argument : IsArgument style depth cs) :
      IsArguments style depth (cs ++ gap k)
  /-- An argument and those behind it. -/
  | cons {depth : Nat} {cs list : List Char} (j k : Nat) (argument : IsArgument style depth cs)
      (rest : IsArguments style depth list) :
      IsArguments style depth (cs ++ (gap j ++ ',' :: (gap k ++ list)))

end

variable {style : IdentifierStyle} {cs : List Char} {n depth : Nat}

/-! ## What the scanner reads -/

theorem isSimpleName_of_scanName (h : style.scanName cs = some n) :
    style.IsSimpleName (cs.take n) := by
  obtain ⟨c, rest, rfl, hc, rfl⟩ := exists_cons_of_scanName h
  rw [scanName_cons, if_pos hc] at h
  rw [List.take_succ_cons, ← List.prefix_iff_eq_take.1 (List.takeWhile_prefix _)]
  refine .mk hc (fun d hd => List.mem_takeWhile_imp hd) fun hnil hextra => ?_
  by_contra hlone
  have hpart : c ∉ style.extraPart := fun hmem => hlone (by simp [continues, hmem])
  rw [hnil, if_pos (by simp [hextra, hpart])] at h
  cases h

theorem isDottedName_append_scanDots {name : List Char} (hname : style.IsSimpleName name)
    (cs : List Char) : style.IsDottedName (name ++ cs.take (style.scanDots cs)) := by
  fun_induction scanDots style cs generalizing name with
  | case1 cs n hn ih =>
      rw [Nat.add_right_comm, List.take_succ_cons, List.take_add]
      exact .dot hname (ih (isSimpleName_of_scanName hn))
  | case2 cs hn => simpa using IsDottedName.single hname
  | case3 cs hcs => simpa using IsDottedName.single hname

theorem IsDotted.isDottedName (h : style.IsDotted cs) : style.IsDottedName cs := by
  obtain ⟨n, hn, hlength⟩ := Option.map_eq_some_iff.1 h
  have hname := isDottedName_append_scanDots (isSimpleName_of_scanName hn) (cs.drop n)
  rwa [← List.take_add, hlength, List.take_length] at hname

theorem isArgument_of_argumentText {type : List Char → TypeRef → Prop}
    (htype : ∀ cs t, type cs t → style.IsType depth true cs) {t : TypeRef}
    (h : ArgumentText style type cs t) : style.IsArgument depth cs := by
  cases h with
  | type typed => exact .type (htype _ _ typed)
  | any accepted => exact .any accepted
  | bound j k accepted known typed =>
      have hkeyword := List.mem_map_of_mem (f := Prod.fst) known
      exact .bound j k accepted hkeyword (htype _ _ typed)

theorem isArguments_of_argumentsText {arg : List Char → TypeRef → Prop}
    (harg : ∀ cs t, arg cs t → style.IsArgument depth cs) {ts : List TypeRef}
    (h : ArgumentsText arg cs ts) : style.IsArguments depth cs := by
  induction h with
  | last k argument => exact .last k (harg _ _ argument)
  | cons j k argument rest ih => exact .cons j k (harg _ _ argument) ih

/-- A text that spells a type is one. -/
theorem isType_of_spells (hgenerics : style.generics = true) {nested : Bool} {t : TypeRef}
    (h : style.Spells depth nested cs t) : style.IsType depth nested cs := by
  induction depth generalizing nested cs t with
  | zero =>
      cases h with
      | plain dimensions dotted inside => exact .plain dimensions dotted.isDottedName inside
      | generic dimensions dotted inside listed => exact listed.elim
  | succ depth ih =>
      cases h with
      | plain dimensions dotted inside => exact .plain dimensions dotted.isDottedName inside
      | generic dimensions dotted inside listed =>
          obtain ⟨k, list, rfl, hlist⟩ := listed
          have hargs : style.IsArguments depth list := isArguments_of_argumentsText
            (fun _ _ => isArgument_of_argumentText fun _ _ => ih) hlist
          rw [List.append_assoc]
          exact .generic k dimensions dotted.isDottedName hgenerics hargs inside

/-- What the scanner reads is a type. -/
theorem isType_of_scan (hgenerics : style.generics = true) (h : style.scan cs = some n) :
    style.IsType style.maxDepth false (cs.take n) := by
  obtain ⟨t, ht⟩ := exists_spells h
  exact isType_of_spells hgenerics ht

/-! ## Characters around names -/

/-- The characters that stand around names. -/
def delimiters : List Char := ['.', '<', '>', ',', '?', '[', ' ']

/-- No character that stands around names can stand in one. -/
structure Delimited (style : IdentifierStyle) : Prop where
  /-- It starts none and continues none. -/
  apart : ∀ c ∈ delimiters, style.starts c = false ∧ style.continues c = false
  /-- The additional characters that start a name continue one as additional characters only. -/
  extra : ∀ c ∈ style.extraStart, style.continues c = true → c ∈ style.extraPart

/-- The text goes on with a character around names, and not with a dot, or ends. -/
def EndsName (cs : List Char) : Prop := ∀ c ∈ cs.head?, c ∈ delimiters ∧ c ≠ '.'

namespace Delimited

variable (hs : style.Delimited) {rest : List Char}

include hs

/-- A name in front of a text is read with all the characters that continue it. -/
theorem scanName_append {name : List Char} (hname : style.IsSimpleName name) (rest : List Char) :
    style.scanName (name ++ rest) =
      some (name.length + (rest.takeWhile style.continues).length) := by
  obtain @⟨c, cs, hstarts, hcontinues, hlone⟩ := hname
  rw [List.cons_append, scanName_cons, if_pos hstarts,
    List.takeWhile_append_of_pos hcontinues, if_neg, List.length_append, List.length_cons]
  · congr 1
    omega
  · intro hnone
    simp only [Bool.and_eq_true, beq_iff_eq, List.length_append, Nat.add_eq_zero_iff,
      List.length_eq_zero_iff, Bool.not_eq_true', List.contains_eq_mem, decide_eq_false_iff_not,
      decide_eq_true_eq] at hnone
    exact hnone.2 (hs.extra c hnone.1.2 (hlone hnone.1.1.1 hnone.1.2))

theorem takeWhile_continues {c : Char} (hc : c ∈ delimiters) (cs : List Char) :
    (c :: cs).takeWhile style.continues = [] :=
  List.takeWhile_cons_of_neg (by rw [(hs.apart c hc).2]; exact Bool.false_ne_true)

omit hs in
theorem scanDots_dot (style : IdentifierStyle) (cs : List Char) :
    style.scanDots ('.' :: cs) = ((style.scanDotted cs).map (· + 1)).getD 0 := by
  rw [scanDots, scanDotted]
  cases style.scanName cs with
  | none => rfl
  | some n =>
      simp only [Option.map_some, Option.getD_some]
      omega

/-- A dotted name in front of a text is read, and no more than it where the name ends. -/
theorem scanDotted_append {name : List Char} (hname : style.IsDottedName name)
    (rest : List Char) :
    ∃ n, style.scanDotted (name ++ rest) = some n ∧ name.length ≤ n ∧
      (EndsName rest → n = name.length) := by
  induction hname with
  | @single cs name =>
      refine ⟨_, by rw [scanDotted, hs.scanName_append name rest, Option.map_some], by omega, ?_⟩
      intro hends
      have hnone : (rest.takeWhile style.continues) = [] ∧ style.scanDots rest = 0 := by
        cases rest with
        | nil => exact ⟨rfl, scanDots_of_head?_ne (by simp)⟩
        | cons c rest =>
            obtain ⟨hc, hdot⟩ := hends c rfl
            exact ⟨hs.takeWhile_continues hc rest, scanDots_of_head?_ne (by simpa using hdot)⟩
      simp [hnone.1, hnone.2]
  | @dot cs ds name more ih =>
      obtain ⟨n, hn, hle, hexact⟩ := ih
      have hfirst := hs.scanName_append name ('.' :: (ds ++ rest))
      rw [hs.takeWhile_continues (by decide), List.length_nil, Nat.add_zero] at hfirst
      refine ⟨cs.length + (n + 1), ?_, ?_, fun hends => ?_⟩
      · rw [List.append_assoc, List.cons_append, scanDotted, hfirst, Option.map_some,
          List.drop_left, scanDots_dot, hn]
        rfl
      · simp
        omega
      · rw [hexact hends]
        simp

end Delimited

/-! ## Marks behind a type -/

theorem length_marksText (nullable : Bool) (dimensions : Nat) :
    (marksText nullable dimensions).length = (if nullable then 1 else 0) + 2 * dimensions := by
  cases nullable <;> simp [marksText, Nat.mul_comm, Nat.add_comm]

theorem scanArrays_replicate (dimensions : Nat) (rest : List Char) :
    scanArrays ((List.replicate dimensions ['[', ']']).flatten ++ rest) =
      2 * dimensions + scanArrays rest := by
  induction dimensions with
  | zero => simp
  | succ d ih =>
      rw [List.replicate_succ, List.flatten_cons, List.append_assoc, List.cons_append,
        List.cons_append, List.nil_append, scanArrays, ih]
      omega

/-- The marks behind a text are read, and further brackets behind them. -/
theorem finish_marksText {nested nullable : Bool} (inside : nullable = true → nested = true)
    (dimensions : Nat) (cs : List Char) {rest : List Char}
    (hstop : nested = true → rest.head? ≠ some '?') :
    scanType.finish nested (cs ++ (marksText nullable dimensions ++ rest)) cs.length =
      (cs ++ marksText nullable dimensions).length + scanArrays rest := by
  rw [finish_eq, List.drop_left, List.length_append, length_marksText]
  cases nullable with
  | true =>
      rw [if_pos ⟨inside rfl, by simp [marksText]⟩, ← List.drop_drop, List.drop_left]
      simp only [marksText, if_true, List.cons_append, List.nil_append, List.drop_succ_cons,
        List.drop_zero, scanArrays_replicate]
      omega
  | false =>
      rw [if_neg]
      · simp only [marksText, Bool.false_eq_true, if_false, List.nil_append, scanArrays_replicate]
        omega
      · rintro ⟨hnested, hhead⟩
        cases dimensions with
        | zero => exact hstop hnested (by simpa [marksText] using hhead)
        | succ d => simp [marksText, List.replicate_succ] at hhead

/-- Behind a type with marks the name has ended, and so it has where an argument ends. -/
theorem head?_marksText {nullable : Bool} {dimensions : Nat} {rest : List Char}
    (h : marksText nullable dimensions = [] → EndsArgument rest) :
    ∃ c ∈ ['?', '[', ' ', ',', '>'], (marksText nullable dimensions ++ rest).head? = some c := by
  cases nullable with
  | true => exact ⟨'?', by simp, by simp [marksText]⟩
  | false =>
      cases dimensions with
      | zero =>
          rcases (h (by simp [marksText])).head? with h | h | h
          · exact ⟨' ', by simp, by simpa [marksText] using h⟩
          · exact ⟨',', by simp, by simpa [marksText] using h⟩
          · exact ⟨'>', by simp, by simpa [marksText] using h⟩
      | succ d => exact ⟨'[', by simp, by simp [marksText, List.replicate_succ]⟩

theorem EndsArgument.head?_ne_mark {rest : List Char} (h : EndsArgument rest) :
    rest.head? ≠ some '?' := by
  rcases h.head? with h | h | h <;> rw [h] <;> decide

theorem scanArrays_of_endsArgument {rest : List Char} (h : EndsArgument rest) :
    scanArrays rest = 0 :=
  scanArrays_of_head?_ne (by rcases h.head? with h | h | h <;> rw [h] <;> decide)

/-! ## Types in front of a text -/

/-- The name at the front of a type at the top is read in any case. -/
theorem exists_scanType_top (h : style.scanDotted cs = some n) (depth : Nat) :
    ∃ m, style.scanType depth false cs = some m ∧ n ≤ m := by
  rw [scanType_eq, h, Option.bind_some]
  split
  · split
    · exact ⟨_, rfl, (Nat.le_add_right n _).trans (le_finish ..)⟩
    · exact ⟨_, rfl, le_finish ..⟩
  · exact ⟨_, rfl, le_finish ..⟩

/-- The scanner reads at least the given text, and no more than it where it is nested. -/
def Covers (nested : Bool) (cs : List Char) (read : Option Nat) : Prop :=
  ∃ n, read = some n ∧ cs.length ≤ n ∧ (nested = true → n = cs.length)

namespace Delimited

variable (hs : style.Delimited) {rest : List Char}

include hs

theorem scanType_plain {name : List Char} (named : style.IsDottedName name) {nested nullable : Bool}
    (inside : nullable = true → nested = true) (dimensions depth : Nat)
    (hends : nested = true → EndsArgument rest) :
    Covers nested (name ++ marksText nullable dimensions)
      (style.scanType depth nested (name ++ (marksText nullable dimensions ++ rest))) := by
  obtain ⟨n, hn, hle, hexact⟩ :=
    hs.scanDotted_append named (marksText nullable dimensions ++ rest)
  by_cases hbare : nested = false ∧ marksText nullable dimensions = []
  · -- the name may go on behind the type
    obtain ⟨rfl, hmarks⟩ := hbare
    obtain ⟨m, hm, hnm⟩ := exists_scanType_top hn depth
    exact ⟨m, hm, by rw [hmarks, List.append_nil]; omega, by simp⟩
  · have hstop : marksText nullable dimensions = [] → EndsArgument rest := fun hmarks =>
      hends (by simpa [hmarks] using hbare)
    obtain ⟨c, hc, hhead⟩ := head?_marksText hstop
    have haround : ∀ c ∈ ['?', '[', ' ', ',', '>'], (c ∈ delimiters ∧ c ≠ '.') ∧ c ≠ '<' := by
      simp [delimiters]
    have hname : n = name.length := hexact fun d hd => by
      rw [hhead, Option.mem_some] at hd
      exact hd ▸ (haround c hc).1
    subst hname
    refine ⟨_, ?_, Nat.le_add_right _ (scanArrays rest), fun hnested => ?_⟩
    · rw [scanType_eq, hn, Option.bind_some, List.drop_left, hhead, if_neg,
        finish_marksText inside dimensions name fun hnested => (hends hnested).head?_ne_mark]
      · intro hopen
        exact (haround c hc).2 (by simpa using (Bool.and_eq_true_iff.1 hopen).2)
    · rw [scanArrays_of_endsArgument (hends hnested), Nat.add_zero]

theorem scanType_generic {name list : List Char} (named : style.IsDottedName name)
    (accepted : style.generics = true) {nested nullable : Bool}
    (inside : nullable = true → nested = true) (dimensions : Nat) {depth : Nat}
    (hlist : ∀ rest, style.scanList depth ('<' :: (list ++ '>' :: rest)) = some (list.length + 2))
    (hends : nested = true → EndsArgument rest) :
    Covers nested (name ++ '<' :: (list ++ '>' :: marksText nullable dimensions))
      (style.scanType depth nested
        (name ++ '<' :: (list ++ '>' :: marksText nullable dimensions) ++ rest)) := by
  obtain ⟨n, hn, -, hexact⟩ := hs.scanDotted_append named
    ('<' :: (list ++ '>' :: (marksText nullable dimensions ++ rest)))
  have hname : n = name.length := hexact fun d hd => by
    cases hd
    decide
  subst hname
  have htext : name ++ '<' :: (list ++ '>' :: marksText nullable dimensions) ++ rest =
      name ++ '<' :: (list ++ '>' :: (marksText nullable dimensions ++ rest)) := by simp
  have hfront : name ++ '<' :: (list ++ '>' :: marksText nullable dimensions) =
      (name ++ '<' :: (list ++ ['>'])) ++ marksText nullable dimensions := by simp
  have hlength : name.length + (list.length + 2) = (name ++ '<' :: (list ++ ['>'])).length := by
    simp
  refine ⟨_, ?_, Nat.le_add_right _ (scanArrays rest), fun hnested => ?_⟩
  · rw [htext, scanType_eq, hn, Option.bind_some, List.drop_left, if_pos (by simp [accepted]),
      hlist]
    dsimp only
    rw [← htext, hfront, hlength, List.append_assoc,
      finish_marksText inside dimensions _ fun hnested => (hends hnested).head?_ne_mark]
  · rw [scanArrays_of_endsArgument (hends hnested), Nat.add_zero]

end Delimited

/-! ## Arguments in front of a text -/

theorem spaces_gap (k : Nat) {rest : List Char} (h : rest.head? ≠ some ' ') :
    spaces (gap k ++ rest) = k := by
  have hgap : ∀ c ∈ gap k, (c == ' ') = true := fun c hc => by
    simpa using List.eq_of_mem_replicate hc
  have hrest : rest.takeWhile (· == ' ') = [] := by
    cases rest with
    | nil => rfl
    | cons c rest => exact List.takeWhile_cons_of_neg (by simpa using h)
  rw [spaces, List.takeWhile_append_of_pos hgap, hrest, List.append_nil, gap, List.length_replicate]

theorem head?_append_ne_space (h : ∃ c ∈ cs.head?, c ≠ ' ') (rest : List Char) :
    (cs ++ rest).head? ≠ some ' ' := by
  obtain ⟨c, hc, hne⟩ := h
  rw [List.head?_append, hc]
  simpa using hne

theorem drop_gap (k : Nat) (rest : List Char) : (gap k ++ rest).drop k = rest := by
  rw [List.drop_left' (by simp [gap])]

theorem endsArgument_gap (k : Nat) {c : Char} (hc : c = ',' ∨ c = '>') (rest : List Char) :
    EndsArgument (gap k ++ c :: rest) := by
  have hspace : (c :: rest).head? ≠ some ' ' := by rcases hc with rfl | rfl <;> simp
  rw [EndsArgument, spaces_gap k hspace, drop_gap]
  rcases hc with rfl | rfl
  · exact .inl rfl
  · exact .inr rfl

/-- The argument is read in front of the end of an argument. -/
def Reads (arg : List Char → Option Nat) (cs : List Char) : Prop :=
  ∀ rest, EndsArgument rest → arg (cs ++ rest) = some cs.length

/-- The arguments are read in front of the closing bracket. -/
def ReadsAll (arg : List Char → Option Nat) (cs : List Char) : Prop :=
  ∀ rest, scanArguments arg (cs ++ '>' :: rest) = some (cs.length + 1)

theorem readsAll_last {arg : List Char → Option Nat} (h : Reads arg cs) (k : Nat) :
    ReadsAll arg (cs ++ gap k) := by
  intro rest
  rw [List.append_assoc, scanArguments_eq, h _ (endsArgument_gap k (.inr rfl) rest),
    Option.bind_some, List.drop_left, spaces_gap k (by simp), ← List.drop_drop, List.drop_left,
    drop_gap]
  simp [gap]

theorem readsAll_cons {arg : List Char → Option Nat} {list : List Char} (h : Reads arg cs)
    (hlist : ReadsAll arg list) (hspace : ∃ c ∈ list.head?, c ≠ ' ') (j k : Nat) :
    ReadsAll arg (cs ++ (gap j ++ ',' :: (gap k ++ list))) := by
  intro rest
  have hhead : (list ++ '>' :: rest).head? ≠ some ' ' := head?_append_ne_space hspace _
  simp only [List.append_assoc, List.cons_append]
  rw [scanArguments_eq, h _ (endsArgument_gap j (.inl rfl) _), Option.bind_some, List.drop_left,
    spaces_gap j (by simp), ← List.drop_drop, List.drop_left, drop_gap]
  simp only [spaces_gap k hhead, drop_gap, hlist rest, Option.map_some]
  simp [gap]
  omega

theorem scanBound_known (type : List Char → Option Nat) (keyword : String) (k : Nat)
    {rest : List Char} (hspace : rest.head? ≠ some ' ') :
    scanBound type keyword (keyword.toList ++ ' ' :: (gap k ++ rest)) =
      some ((type rest).map (keyword.length + (k + 1) + ·)) := by
  have hgap : ' ' :: (gap k ++ rest) = gap (k + 1) ++ rest := by
    rw [gap, gap, List.replicate_succ, List.cons_append]
  rw [scanBound_eq, if_pos, ← String.length_toList, List.drop_left, hgap,
    spaces_gap (k + 1) hspace, ← List.drop_drop, List.drop_left, drop_gap]
  rw [List.isPrefixOf_iff_prefix, boundMark]
  exact ⟨gap k ++ rest, by simp⟩

/-- A wildcard without a bound is read on its own. -/
theorem reads_any (accepted : style.wildcards = true) (type : List Char → Option Nat) :
    Reads (style.scanArgument type) ['?'] := by
  intro rest hends
  rw [List.singleton_append, scanArgument_alone accepted]
  · rfl
  · intro keyword hkeyword
    refine scanBound_eq_none_of_head? ?_
    simp only [List.mem_cons, List.not_mem_nil, or_false] at hkeyword
    rcases hends with h | h <;> rcases hkeyword with rfl | rfl <;> rw [h] <;> decide

theorem reads_bound (accepted : style.wildcards = true) {type : List Char → Option Nat}
    {keyword : String} (known : keyword ∈ ["extends", "super"]) (h : Reads type cs)
    (hspace : ∃ c ∈ cs.head?, c ≠ ' ') (j k : Nat) :
    Reads (style.scanArgument type)
      ('?' :: (gap j ++ (keyword.toList ++ ' ' :: (gap k ++ cs)))) := by
  intro rest hends
  have hhead : (cs ++ rest).head? ≠ some ' ' := head?_append_ne_space hspace _
  have hkeyword : (keyword.toList ++ ' ' :: (gap k ++ (cs ++ rest))).head? ≠ some ' ' := by
    simp only [List.mem_cons, List.not_mem_nil, or_false] at known
    rcases known with rfl | rfl <;> simp
  have hbound := scanBound_known type keyword k hhead
  rw [h rest hends, Option.map_some] at hbound
  simp only [List.cons_append, List.append_assoc]
  rw [scanArgument_of_bound accepted known (by rw [spaces_gap j hkeyword, drop_gap]; exact hbound),
    spaces_gap j hkeyword]
  simp [gap, ← String.length_toList]
  omega

theorem scanList_of_readsAll {list : List Char}
    (hlist : ReadsAll (style.scanArgument (style.scanType depth true)) list)
    (hspace : ∃ c ∈ list.head?, c ≠ ' ') (k : Nat) (rest : List Char) :
    style.scanList (depth + 1) ('<' :: (gap k ++ list ++ '>' :: rest)) =
      some ((gap k ++ list).length + 2) := by
  have hhead : (list ++ '>' :: rest).head? ≠ some ' ' := head?_append_ne_space hspace _
  rw [scanList, scanBrackets_cons, List.append_assoc, spaces_gap k hhead, drop_gap, hlist rest]
  simp [gap]
  omega

/-! ## The grammar in front of a text -/

theorem IsDottedName.starts (h : style.IsDottedName cs) :
    ∃ c ∈ cs.head?, style.starts c = true := by
  have hsimple : ∀ {cs}, style.IsSimpleName cs →
      ∃ c rest, cs = c :: rest ∧ style.starts c = true := by
    rintro _ ⟨hc, -, -⟩
    exact ⟨_, _, rfl, hc⟩
  cases h with
  | single name =>
      obtain ⟨c, rest, rfl, hc⟩ := hsimple name
      exact ⟨c, rfl, hc⟩
  | dot name more =>
      obtain ⟨c, rest, rfl, hc⟩ := hsimple name
      exact ⟨c, rfl, hc⟩

theorem IsType.starts {nested : Bool} (h : style.IsType depth nested cs) :
    ∃ c ∈ cs.head?, style.starts c = true := by
  cases h with
  | plain dimensions named =>
      obtain ⟨c, hc, hstarts⟩ := named.starts
      exact ⟨c, by rw [List.head?_append, hc]; rfl, hstarts⟩
  | generic k dimensions named =>
      obtain ⟨c, hc, hstarts⟩ := named.starts
      exact ⟨c, by rw [List.head?_append, hc]; rfl, hstarts⟩

namespace Delimited

variable (hs : style.Delimited)

include hs

theorem not_space_of_isType {nested : Bool} (h : style.IsType depth nested cs) :
    ∃ c ∈ cs.head?, c ≠ ' ' := by
  obtain ⟨c, hc, hstarts⟩ := h.starts
  refine ⟨c, hc, ?_⟩
  rintro rfl
  rw [(hs.apart ' ' (by decide)).1] at hstarts
  cases hstarts

theorem not_space_of_isArgument (h : style.IsArgument depth cs) : ∃ c ∈ cs.head?, c ≠ ' ' := by
  cases h with
  | type typed => exact hs.not_space_of_isType typed
  | any accepted => exact ⟨'?', rfl, by decide⟩
  | bound j k accepted known typed => exact ⟨'?', rfl, by decide⟩

theorem not_space_of_isArguments (h : style.IsArguments depth cs) :
    ∃ c ∈ cs.head?, c ≠ ' ' := by
  cases h with
  | last k argument =>
      obtain ⟨c, hc, hne⟩ := hs.not_space_of_isArgument argument
      exact ⟨c, by rw [List.head?_append, hc]; rfl, hne⟩
  | cons j k argument rest =>
      obtain ⟨c, hc, hne⟩ := hs.not_space_of_isArgument argument
      exact ⟨c, by rw [List.head?_append, hc]; rfl, hne⟩

mutual

/-- A type in front of a text is read.  At the top the scanner may read more; a nested type is read
exactly where an argument ends behind it. -/
theorem scanType_isType {depth : Nat} {nested : Bool} {cs : List Char} :
    style.IsType depth nested cs → ∀ rest, (nested = true → EndsArgument rest) →
      Covers nested cs (style.scanType depth nested (cs ++ rest))
  | .plain dimensions named inside, rest, hends => by
      rw [List.append_assoc]
      exact hs.scanType_plain named inside dimensions _ hends
  | .generic k dimensions named accepted listed inside, rest, hends => by
      have hlist := scanList_of_readsAll (scanArguments_isArguments listed)
        (hs.not_space_of_isArguments listed) k
      have hcovers := hs.scanType_generic named accepted inside dimensions hlist hends
      rwa [List.append_assoc] at hcovers

/-- An argument is read where its end stands behind it. -/
theorem scanArgument_isArgument {depth : Nat} {cs : List Char} :
    style.IsArgument depth cs → Reads (style.scanArgument (style.scanType depth true)) cs
  | .type typed => fun rest hends => by
      obtain ⟨n, hn, -, hexact⟩ := scanType_isType typed rest fun _ => hends
      rw [scanArgument_plain, hn, hexact rfl]
      rintro ⟨-, hmark⟩
      obtain ⟨c, hc, hstarts⟩ := typed.starts
      rw [List.head?_append, hc, Option.some_or, Option.some.injEq] at hmark
      rw [hmark, (hs.apart '?' (by decide)).1] at hstarts
      cases hstarts
  | .any accepted => reads_any accepted _
  | .bound j k accepted known typed =>
      have hread : Reads (style.scanType depth true) _ := fun rest hends => by
        obtain ⟨n, hn, -, hexact⟩ := scanType_isType typed rest fun _ => hends
        rw [hn, hexact rfl]
      reads_bound accepted known hread (hs.not_space_of_isType typed) j k

/-- The arguments are read where a closing bracket stands behind them. -/
theorem scanArguments_isArguments {depth : Nat} {cs : List Char} :
    style.IsArguments depth cs → ReadsAll (style.scanArgument (style.scanType depth true)) cs
  | .last k argument => readsAll_last (scanArgument_isArgument argument) k
  | .cons j k argument rest =>
      readsAll_cons (scanArgument_isArgument argument) (scanArguments_isArguments rest)
        (hs.not_space_of_isArguments rest) j k

end

end Delimited

/-- A style is delimited, by evaluation. -/
theorem Delimited.of_all
    (hapart : (delimiters.all fun c => !style.starts c && !style.continues c) = true)
    (hextra : (style.extraStart.all fun c => !style.continues c || style.extraPart.contains c) =
      true) : style.Delimited where
  apart := by
    intro c hc
    simpa using List.all_eq_true.1 hapart c hc
  extra := by
    intro c hc hcontinues
    simpa [hcontinues] using List.all_eq_true.1 hextra c hc

/-! ## The longest type -/

/-- The text starts with a type of `n` characters and with no longer one. -/
def IsLongest (style : IdentifierStyle) (text : List Char) (n : Nat) : Prop :=
  (∃ w, w <+: text ∧ w.length = n ∧ style.IsType style.maxDepth false w) ∧
    ∀ v, v <+: text → style.IsType style.maxDepth false v → v.length ≤ n

theorem IsLongest.unique {text : List Char} {m : Nat} (h : style.IsLongest text n)
    (h' : style.IsLongest text m) : n = m := by
  obtain ⟨⟨w, hw, rfl, htype⟩, hmax⟩ := h
  obtain ⟨⟨w', hw', rfl, htype'⟩, hmax'⟩ := h'
  exact Nat.le_antisymm (hmax' w hw htype) (hmax w' hw' htype')

/-- A type that the text starts with is read, possibly as a part of a longer one. -/
theorem Delimited.exists_scan (hs : style.Delimited) {text v : List Char} (hv : v <+: text)
    (htype : style.IsType style.maxDepth false v) :
    ∃ n, style.scan text = some n ∧ v.length ≤ n := by
  obtain ⟨rest, rfl⟩ := hv
  obtain ⟨n, hn, hle, -⟩ := hs.scanType_isType htype rest (by simp)
  exact ⟨n, hn, hle⟩

theorem Delimited.isLongest_of_scan (hs : style.Delimited) (hgenerics : style.generics = true)
    {text : List Char} (h : style.scan text = some n) : style.IsLongest text n := by
  refine ⟨⟨text.take n, List.take_prefix n text, ?_, isType_of_scan hgenerics h⟩, ?_⟩
  · rw [List.length_take, Nat.min_eq_left]
    exact bounded_scan style text n h
  · intro v hv htype
    obtain ⟨m, hm, hle⟩ := hs.exists_scan hv htype
    rw [h] at hm
    exact hle.trans_eq (Option.some.inj hm).symm

theorem Delimited.scan_eq_some_iff (hs : style.Delimited) (hgenerics : style.generics = true)
    {text : List Char} : style.scan text = some n ↔ style.IsLongest text n := by
  refine ⟨hs.isLongest_of_scan hgenerics, fun h => ?_⟩
  obtain ⟨w, hw, -, htype⟩ := h.1
  obtain ⟨m, hm, -⟩ := hs.exists_scan hw htype
  rw [hm, h.unique (hs.isLongest_of_scan hgenerics hm)]

theorem Delimited.scan_eq_none_iff (hs : style.Delimited) (hgenerics : style.generics = true)
    {text : List Char} :
    style.scan text = none ↔ ∀ v, v <+: text → ¬ style.IsType style.maxDepth false v := by
  constructor
  · intro h v hv htype
    obtain ⟨m, hm, -⟩ := hs.exists_scan hv htype
    rw [h] at hm
    cases hm
  · intro h
    by_contra hsome
    obtain ⟨n, hn⟩ := Option.ne_none_iff_exists'.1 hsome
    exact h _ (List.take_prefix n text) (isType_of_scan hgenerics hn)

end IdentifierStyle

/-! ## Languages -/

namespace Dialect

theorem delimited_identifiers (d : Dialect) : d.identifiers.Delimited := by
  obtain ⟨language, depth⟩ := d
  cases language <;> exact .of_all rfl rfl

theorem generics_identifiers (d : Dialect) : d.identifiers.generics = true := by
  obtain ⟨language, depth⟩ := d
  cases language <;> rfl

/-- At every place of a text the scanner reads the longest type that stands there, and nothing
exactly where none does. -/
theorem scan_longest (d : Dialect) (text : List Char) (p : Nat) :
    (∀ n, d.identifiers.scan (text.drop p) = some n ↔
      (∃ w, w <+: text.drop p ∧ w.length = n ∧ d.identifiers.IsType d.maxDepth false w) ∧
        ∀ v, v <+: text.drop p → d.identifiers.IsType d.maxDepth false v → v.length ≤ n) ∧
    (d.identifiers.scan (text.drop p) = none ↔
      ∀ v, v <+: text.drop p → ¬ d.identifiers.IsType d.maxDepth false v) := by
  have hdepth : d.identifiers.maxDepth = d.maxDepth := by
    obtain ⟨language, depth⟩ := d
    cases language <;> rfl
  have hs := d.delimited_identifiers
  have hsome (n : Nat) : d.identifiers.scan (text.drop p) = some n ↔
      d.identifiers.IsLongest (text.drop p) n := hs.scan_eq_some_iff d.generics_identifiers
  simp only [IdentifierStyle.IsLongest, hdepth] at hsome
  refine ⟨hsome, ?_⟩
  rw [hs.scan_eq_none_iff d.generics_identifiers, hdepth]

end Dialect

end Outline
