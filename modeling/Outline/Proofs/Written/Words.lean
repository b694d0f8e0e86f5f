import Mathlib.Data.List.TakeWhile
import Outline.Member.FieldMachine
import Outline.Proofs.Text.Pieces

/-!
# Words

A word is a name without dots, brackets and other characters that have a meaning in types.

* `TypeRef.parse_word` — a word is read as the type with that name.
* `Language.not_type_of_has` — a keyword that is a modifier or introduces a part of a declaration
  is no type.
-/

namespace Outline

/-! ## Words as texts -/

namespace Text

/-- The characters that have a meaning in types. -/
def typeMarks : List Char := ['.', '<', '>', '[', ']', '?', '#']

/-- Whether a character may stand in a word. -/
def isWordChar (c : Char) : Bool := !isWhiteSpace c && !typeMarks.contains c

/-- Whether a text is a word. -/
def isWord (s : String) : Bool := !s.toList.isEmpty && s.toList.all isWordChar

variable {s : String}

theorem ne_nil_of_isWord (h : isWord s = true) : s.toList ≠ [] := by
  intro hnil
  simp [isWord, hnil] at h

theorem isWordChar_of_isWord (h : isWord s = true) {c : Char} (hc : c ∈ s.toList) :
    isWordChar c = true :=
  List.all_eq_true.1 (Bool.and_eq_true_iff.1 h).2 c hc

theorem not_white_of_isWord (h : isWord s = true) {c : Char} (hc : c ∈ s.toList) :
    isWhiteSpace c = false := by
  have := (Bool.and_eq_true_iff.1 (isWordChar_of_isWord h hc)).1
  rwa [Bool.not_eq_true'] at this

/-- A word has none of the characters with a meaning. -/
theorem ne_of_isWord (h : isWord s = true) {c : Char} (hc : c ∈ s.toList) {mark : Char}
    (hmark : mark ∈ typeMarks) : c ≠ mark := by
  rintro rfl
  have := (Bool.and_eq_true_iff.1 (isWordChar_of_isWord h hc)).2
  rw [Bool.not_eq_true', List.contains_eq_mem, decide_eq_false_iff_not] at this
  exact this hmark

/-! ### Trimming and splitting -/

/-- A text in front of which nothing is dropped. -/
theorem dropWhile_eq_self {α : Type} {p : α → Bool} {xs : List α} (h : ∀ x ∈ xs, p x = false) :
    xs.dropWhile p = xs :=
  List.dropWhile_eq_self_iff.2 fun _ => by simp [h _ (List.getElem_mem _)]

theorem trim_eq_self {cs : List Char} (h : ∀ c ∈ cs, isWhiteSpace c = false) : trim cs = cs := by
  unfold trim trimStart trimEnd
  rw [dropWhile_eq_self h, dropWhile_eq_self (by simpa using h), List.reverse_reverse]

/-- A word has only one part. -/
theorem lastPart_word (h : isWord s = true) : lastPart s = s := by
  have hpieces := pieces_eq_singleton fun c hc => ne_of_isWord h hc (by decide : '.' ∈ typeMarks)
  simp [lastPart, dottedParts, splitAt, hpieces]

end Text

/-- A word is the name of a field. -/
theorem FieldMachine.isPlain_word {s : String} (h : Text.isWord s = true) :
    isPlain s = true := by
  rw [isPlain, Bool.not_eq_true', List.any_eq_false]
  intro c hc
  simp [Text.ne_of_isWord h hc (by decide : '.' ∈ Text.typeMarks),
    Text.ne_of_isWord h hc (by decide : '<' ∈ Text.typeMarks),
    Text.ne_of_isWord h hc (by decide : '[' ∈ Text.typeMarks)]

/-! ## Words as types -/

namespace TypeRef

variable {s : String}

theorem cutLists_word {cs : List Char} (inner : List Char) (hopen : ∀ c ∈ cs, c ≠ '<')
    (hclose : ∀ c ∈ cs, c ≠ '>') : cutLists [] inner [] cs = .ok (inner.reverse ++ cs, []) := by
  induction cs generalizing inner with
  | nil => simp [cutLists]
  | cons c cs ih =>
      have hc : (c == '<') = false := beq_eq_false_iff_ne.2 (hopen c (by simp))
      have hc' : (c == '>') = false := beq_eq_false_iff_ne.2 (hclose c (by simp))
      rw [cutLists, hc, hc']
      simp only [Bool.false_eq_true, if_false]
      rw [ih _ (fun c h => hopen c (List.mem_cons_of_mem _ h))
        (fun c h => hclose c (List.mem_cons_of_mem _ h))]
      simp

theorem stripMark_eq_self {cs : List Char} (h : ∀ c ∈ cs, c ≠ '?') :
    stripMark cs = (cs, false) := by
  unfold stripMark
  split
  · exact absurd rfl (h '?' (by simp))
  · rfl

theorem stripArrays_eq_self {cs : List Char} (h : ∀ c ∈ cs, c ≠ ']') :
    stripArrays cs = (cs, 0) := by
  unfold stripArrays
  split
  · exact absurd rfl (h ']' (by simp))
  · rfl

theorem stripMarks_word {cs : List Char} (hmark : ∀ c ∈ cs, c ≠ '?') (harray : ∀ c ∈ cs, c ≠ ']') :
    stripMarks cs = { core := cs, dimensions := 0, nullable := false } := by
  have hrev : ∀ c ∈ cs.reverse, c ≠ '?' := by simpa using hmark
  have hrev' : ∀ c ∈ cs.reverse, c ≠ ']' := by simpa using harray
  simp [stripMarks, stripMark_eq_self hrev, stripArrays_eq_self hrev']

theorem stripWildcards_word {cs : List Char} (h : ∀ c ∈ cs, c ≠ '?') :
    stripWildcards cs = some ([], some cs) := by
  unfold stripWildcards
  split
  · exact absurd rfl (h '?' (by simp))
  · rfl

/-- A word is read as the type with that name. -/
theorem parse_word (h : Text.isWord s = true) : parse s = .ok (simple s) := by
  have htrim : Text.trim s.toList = s.toList :=
    Text.trim_eq_self fun c hc => Text.not_white_of_isWord h hc
  have hne : ∀ mark ∈ Text.typeMarks, ∀ c ∈ s.toList, c ≠ mark :=
    fun mark hmark c hc => Text.ne_of_isWord h hc hmark
  have hcut := cutLists_word [] (hne '<' (by decide)) (hne '>' (by decide))
  have hmarker : s.toList.contains markerStart = false := by
    rw [List.contains_eq_mem, decide_eq_false_iff_not]
    exact fun hmem => hne '#' (by decide) _ hmem rfl
  have htake : s.toList.takeWhile (· != markerStart) = s.toList :=
    List.takeWhile_eq_self_iff.2 fun c hc => by simpa [markerStart] using hne '#' (by decide) c hc
  have hdrop : s.toList.dropWhile (· != markerStart) = [] :=
    List.dropWhile_eq_nil_iff.2 fun c hc => by simpa [markerStart] using hne '#' (by decide) c hc
  have hend : Text.trimEnd s.toList = s.toList := by
    rw [Text.trimEnd, Text.dropWhile_eq_self
      (fun c hc => Text.not_white_of_isWord h (List.mem_reverse.1 hc)), List.reverse_reverse]
  have hsegment : readSegment 0 s.toList [] = .ok (simple s, []) := by
    unfold readSegment
    rw [htrim, stripWildcards_word (hne '?' (by decide))]
    have hempty : s.toList.isEmpty = false := by
      rw [List.isEmpty_eq_false_iff]
      exact Text.ne_nil_of_isWord h
    simp only [stripMarks_word (hne '?' (by decide)) (hne ']' (by decide)), htake, hdrop, hend]
    rw [hempty, String.ofList_toList]
    rfl
  have hchars : parseChars s.toList = .ok (simple s) := by
    unfold parseChars
    rw [hmarker, hcut]
    simp [bind, Except.bind, StateT.run, hsegment, pure, Except.pure]
  rw [parse, htrim, hchars]
  rfl

end TypeRef

/-! ## Roles of keywords -/

namespace KeywordTable

/-- Whether no keyword plays both roles. -/
def separates (table : KeywordTable) (a b : Capability) : Bool :=
  table.all fun entry => !(entry.2.contains a && entry.2.contains b)

theorem has_eq_false_of_separates {table : KeywordTable} {a b : Capability} {word : String}
    (h : table.separates a b = true) (ha : table.has word a = true) :
    table.has word b = false := by
  rw [Bool.eq_false_iff]
  intro hb
  unfold has capabilities? at ha hb
  cases hlookup : table.lookup word with
  | none => simp [hlookup] at ha
  | some roles =>
      rw [hlookup, Option.any_some] at ha hb
      obtain ⟨front, back, htable, -⟩ := List.lookup_eq_some_iff.1 hlookup
      have hmem : (word, roles) ∈ table := by rw [htable]; simp
      have := List.all_eq_true.1 h _ hmem
      rw [ha, hb] at this
      exact absurd this (by decide)

end KeywordTable

namespace Language

variable {l : Language}

/-- The roles of keywords that stand around types in a declaration. -/
def outerRoles : List Capability :=
  [.classModifier, .fieldModifier, .methodModifier, .parameterModifier, .block, .inheritance]

/-- No keyword plays such a role and is a type. -/
theorem separates_type (hl : l.memberOrder = .typeFirst) {role : Capability}
    (hrole : role ∈ outerRoles) : l.keywords.separates role .type = true := by
  revert role
  cases l with
  | csharp => decide +kernel
  | java => decide +kernel
  | typescript => exact absurd hl (by decide)

/-- A keyword that stands around types is none. -/
theorem not_type_of_has (hl : l.memberOrder = .typeFirst) {role : Capability}
    (hrole : role ∈ outerRoles) {word : String} (h : l.has role word = true) :
    l.has .type word = false :=
  KeywordTable.has_eq_false_of_separates (separates_type hl hrole) h

/-- Nor is it the type without values. -/
theorem ne_void_of_has (hl : l.memberOrder = .typeFirst) {role : Capability}
    (hrole : role ∈ outerRoles) {word : String} (h : l.has role word = true) : word ≠ "void" := by
  rintro rfl
  revert h
  revert role
  cases l with
  | csharp => decide +kernel
  | java => decide +kernel
  | typescript => exact absurd hl (by decide)

/-- The token of a type plays no role around it. -/
theorem not_marks_of_starts (hl : l.memberOrder = .typeFirst) {role : Capability}
    (hrole : role ∈ outerRoles) {allowVoid : Bool} {t : Token}
    (h : TypeMachine.starts l allowVoid t = true) : l.marks role t = false := by
  rw [Bool.eq_false_iff]
  intro hmark
  obtain ⟨hkind, hhas⟩ := Bool.and_eq_true_iff.1 hmark
  rw [TypeMachine.starts, beq_iff_eq.1 hkind] at h
  rcases Bool.or_eq_true_iff.1 h with h | h
  · rw [not_type_of_has hl hrole hhas] at h
    exact absurd h Bool.false_ne_true
  · exact ne_void_of_has hl hrole hhas (beq_iff_eq.1 (Bool.and_eq_true_iff.1 h).2)

end Language

end Outline
