import Outline.Proofs.Member.FieldOffer
import Outline.Proofs.Written.Feeding
import Outline.Proofs.Written.Words

/-!
# Feeding tokens to the machine that reads fields

How the machine responds to a token where the type comes first, as far as the proofs about written
declarations ask for it.

* `FieldMachine.rank` — how close the machine is to the end of a field.
* `Extractor.field_calm` — a token that ends no field brings it at most one rank closer.
-/

namespace Outline

/-- A type may start where more is allowed to. -/
theorem TypeMachine.starts_allow {l : Language} {t : Token} (allowVoid : Bool)
    (h : TypeMachine.starts l false t = true) : TypeMachine.starts l allowVoid t = true := by
  unfold TypeMachine.starts at h ⊢
  cases hkind : t.kind <;> simp_all

/-- Where the type comes first it is a word. -/
theorem TypeMachine.word_of_starts {l : Language} {allowVoid : Bool} {t : Token}
    (hl : l.memberOrder = .typeFirst) (h : TypeMachine.starts l allowVoid t = true) :
    t.kind = .keyword ∨ t.kind = .identifier := by
  rcases TypeMachine.kind_of_starts h with h | h | ⟨hname, -⟩
  · exact Or.inr h
  · exact Or.inl h
  · rw [hl] at hname
    exact absurd hname (by decide)

namespace TypeMachine

variable {l : Language} {allowVoid : Bool} {t : Token} {r : TypeRef}

/-- The first token of a type. -/
theorem accept_start (hl : l.memberOrder = .typeFirst) (h : starts l allowVoid t = true) :
    accept l allowVoid .idle t = find t.text := by
  have htext : startText t = t.text := by
    rcases word_of_starts hl h with h | h <;> simp [startText, h]
  simp [accept, h, isBlock_of_starts h hl, htext]

/-- A token behind a type that does not belong to it. -/
theorem accept_behind (hl : l.memberOrder = .typeFirst) (hmark : t.isOperator "?" = false)
    (hdots : t.isOperator "..." = false) :
    accept l allowVoid (.found r) t = .leave (.complete r) := by
  have hname : (l.memberOrder == .nameFirst) = false := by rw [hl]; rfl
  simp [accept, hmark, hdots, hname]

/-- A question mark behind a type. -/
theorem accept_mark (hl : l.memberOrder = .typeFirst) (hmark : t.isOperator "?" = true) :
    accept l allowVoid (.found r) t = .take (.complete { r with nullable := true }) := by
  simp [accept, hmark, hl]

end TypeMachine

/-- Where the type comes first, a separator or a block is neither a modifier nor a type. -/
theorem Language.not_head {l : Language} {t : Token} (hl : l.memberOrder = .typeFirst)
    (hkind : t.kind = .separator ∨ t.kind = .block) (role : Capability) (allowVoid : Bool) :
    l.marks role t = false ∧ TypeMachine.starts l allowVoid t = false := by
  constructor
  · rw [Bool.eq_false_iff]
    intro h
    have := Language.kind_of_marks h
    rcases hkind with h | h <;> simp [h] at this
  · rw [Bool.eq_false_iff]
    intro h
    rcases TypeMachine.word_of_starts hl h with h | h <;> rcases hkind with h' | h' <;>
      simp [h] at h'

namespace FieldMachine

/-- Notes the line at which a token ends. -/
def stamp (t : Token) (m : FieldMachine) : FieldMachine :=
  m.mapDraft fun d => { d with line := t.span.last.line }

/-- How close the machine is to the end of a field: nothing but modifiers is read, the type is
read, or the name is read.  Other states have no rank below three. -/
def rank : FieldMachine → Nat
  | head none _ => 0
  | type _ (.found _) | name _ => 1
  | afterName _ => 2
  | _ => 3

/-- Whether a token may follow the name of a field. -/
def isTail (t : Token) : Bool :=
  isEnd t || t.isOperator "=" || t.isOperator "=>" || t.isBlock '\x7b'

variable {o : Owner} {t : Token} {m m' : FieldMachine} {malformed : List MalformedType}

theorem accept_of_taken (hl : o.language.memberOrder = .typeFirst) (ht : t.kind ≠ .comment)
    (h : acceptTypeFirst o.language m t = ⟨m', true, malformed⟩) :
    m.accept o t = ⟨m'.stamp t, true, malformed⟩ := by
  have ht : (t.kind == .comment) = false := beq_eq_false_iff_ne.2 ht
  simp only [accept, hl, h, ht]
  rfl

theorem accept_of_left (hl : o.language.memberOrder = .typeFirst) (ht : t.kind ≠ .comment)
    (h : acceptTypeFirst o.language m t = ⟨m', false, malformed⟩) :
    m.accept o t = ⟨m', false, malformed⟩ := by
  have ht : (t.kind == .comment) = false := beq_eq_false_iff_ne.2 ht
  simp only [accept, hl, h, ht]
  rfl

/-! ## Steps -/

/-- A word is no part of an annotation. -/
theorem step_plain {l : Language} (hseparator : t.kind ≠ .separator) (hblock : t.kind ≠ .block) :
    AnnotationSkip.step l none t = (none, false) := by
  have hbracket := Token.isBlock_eq_false hblock '['
  have hat := Token.isSeparator_eq_false hseparator "@"
  unfold AnnotationSkip.step
  cases l.annotationStyle <;> simp [hbracket, hat]

theorem step_word {l : Language} (h : t.kind = .keyword ∨ t.kind = .identifier) :
    AnnotationSkip.step l none t = (none, false) :=
  step_plain (by rcases h with h | h <;> rw [h] <;> decide)
    (by rcases h with h | h <;> rw [h] <;> decide)

/-- In front of a token that is no at sign no annotation is entered. -/
theorem step_none {l : Language} (hat : t.isSeparator "@" = false) :
    (AnnotationSkip.step l none t).1 = none := by
  unfold AnnotationSkip.step
  cases l.annotationStyle <;> simp [hat]

/-- The first token of a type. -/
theorem acceptType_start {l : Language} {d : FieldDraft} {next : FieldDraft → FieldMachine}
    {accept : FieldDraft → Step FieldMachine} (hl : l.memberOrder = .typeFirst)
    (hstarts : TypeMachine.starts l false t = true) :
    acceptType l d .idle t next accept = match TypeRef.parse t.text with
      | .ok r => ⟨type d (.found r), true, []⟩
      | .error e => ⟨failed, true, [⟨t.text, e⟩]⟩ := by
  unfold acceptType
  rw [TypeMachine.accept_start hl hstarts, TypeMachine.find]
  cases TypeRef.parse t.text <;> rfl

/-- A token behind a type that does not belong to it. -/
theorem accept_found {l : Language} {d : FieldDraft} {r : TypeRef}
    (hl : l.memberOrder = .typeFirst) (hmark : t.isOperator "?" = false)
    (hdots : t.isOperator "..." = false) :
    acceptTypeFirst l (type d (.found r)) t = acceptName { d with type? := some r } t := by
  simp only [acceptTypeFirst, acceptType]
  rw [TypeMachine.accept_behind hl hmark hdots]
  rfl

theorem accept_name (l : Language) (d : FieldDraft) (t : Token) :
    acceptTypeFirst l (name d) t = acceptName d t := rfl

/-- A question mark behind a type. -/
theorem accept_mark {l : Language} {d : FieldDraft} {r : TypeRef}
    (hl : l.memberOrder = .typeFirst) (hmark : t.isOperator "?" = true) :
    acceptTypeFirst l (type d (.found r)) t =
      .take (name { d with type? := some { r with nullable := true } }) := by
  simp only [acceptTypeFirst, acceptType]
  rw [TypeMachine.accept_mark hl hmark]
  rfl

end FieldMachine

namespace Extractor

open FieldMachine (idle acceptTypeFirst)

variable {o : Owner} {t : TokenTree} {m m' : FieldMachine} {malformed : List MalformedType}

/-! ## From steps to responses -/

theorem field_takes (hl : o.language.memberOrder = .typeFirst) (ht : t.kind ≠ .comment)
    (h : acceptTypeFirst o.language m t.value = ⟨m', true, malformed⟩)
    (hf : m'.isFailed = false) (hc : m'.isComplete = false) :
    respond o t (field m) = ⟨field (m'.stamp t.value), [], true⟩ := by
  have hs : (field m).accept o t = ⟨field (m'.stamp t.value), true, malformed⟩ := by
    rw [accept, FieldMachine.accept_of_taken hl ht h]
    rfl
  refine respond_of_going hs ?_ ?_
  · cases m' <;> first | rfl | exact hf
  · cases m' <;> first | rfl | exact hc

theorem field_leaves (hl : o.language.memberOrder = .typeFirst) (ht : t.kind ≠ .comment)
    (h : acceptTypeFirst o.language m t.value = ⟨m', false, malformed⟩)
    (hf : m'.isFailed = false) (hc : m'.isComplete = false) :
    respond o t (field m) = ⟨field m', [], false⟩ := by
  have hs : (field m).accept o t = ⟨field m', false, malformed⟩ := by
    rw [accept, FieldMachine.accept_of_left hl ht h]
    rfl
  exact respond_of_going hs hf hc

theorem field_dies (hl : o.language.memberOrder = .typeFirst) (ht : t.kind ≠ .comment)
    (h : acceptTypeFirst o.language m t.value = ⟨.failed, true, malformed⟩) :
    respond o t (field m) = ⟨field idle, [], true⟩ := by
  have hs : (field m).accept o t = ⟨field .failed, true, malformed⟩ := by
    rw [accept, FieldMachine.accept_of_taken hl ht h]
    rfl
  exact respond_of_taken_failed hs rfl rfl

/-- A machine that gives up in front of a token reads it as if nothing had been read. -/
theorem field_retries (hl : o.language.memberOrder = .typeFirst) (ht : t.kind ≠ .comment)
    (h : acceptTypeFirst o.language m t.value = ⟨.failed, false, malformed⟩)
    (hm : m.isIdle = false) : respond o t (field m) = respond o t (field idle) := by
  have hs : (field m).accept o t = ⟨field .failed, false, malformed⟩ := by
    rw [accept, FieldMachine.accept_of_left hl ht h]
    rfl
  exact respond_of_left_failed hs rfl rfl hm rfl (restart_field (p := 0) ht).1

theorem field_ends {d : FieldDraft} (hl : o.language.memberOrder = .typeFirst)
    (ht : t.kind ≠ .comment)
    (h : acceptTypeFirst o.language m t.value = ⟨.complete d, true, malformed⟩) :
    respond o t (field m) =
      ⟨field idle, [field (.complete { d with line := t.span.last.line })], true⟩ := by
  have hs : (field m).accept o t =
      ⟨field (.complete { d with line := t.span.last.line }), true, malformed⟩ := by
    rw [accept, FieldMachine.accept_of_taken hl ht h]
    rfl
  exact respond_of_taken_complete hs rfl rfl rfl

/-! ## Tokens that end no field -/

/-- The rank behind a token, at most, if it is at most `n` in front of it. -/
def rankAfter (l : Language) (t : Token) (n : Nat) : Nat :=
  if t.kind = .identifier then min (n + 1) 2
  else if TypeMachine.starts l true t || t.isOperator "?" || t.isOperator "..." then 1
  else 0

/-- A token is read by the machine, which has at most the rank `n` behind it. -/
def FieldCalm (o : Owner) (t : TokenTree) (m : FieldMachine) (n : Nat) : Prop :=
  ∃ m' taken, respond o t (field m) = ⟨field m', [], taken⟩ ∧ m'.rank ≤ n

theorem FieldCalm.mono {n k : Nat} (h : FieldCalm o t m n) (hk : n ≤ k) : FieldCalm o t m k := by
  obtain ⟨m', taken, hm', hrank⟩ := h
  exact ⟨m', taken, hm', Nat.le_trans hrank hk⟩

/-- In front of the type, a token is passed over, is a modifier, starts the type, or makes the
machine give up. -/
theorem field_calm_head (hl : o.language.memberOrder = .typeFirst) (ht : t.kind ≠ .comment)
    (hat : t.value.isSeparator "@" = false) (modifiers : List String)
    (hretry : modifiers ≠ [] →
      FieldCalm o t idle (if TypeMachine.starts o.language false t.value then 1 else 0)) :
    FieldCalm o t (.head none modifiers)
      (if TypeMachine.starts o.language false t.value then 1 else 0) := by
  have hskip := FieldMachine.step_none (l := o.language) hat
  cases hstep : AnnotationSkip.step o.language none t.value with
  | mk skip passed =>
      rw [hstep] at hskip
      obtain rfl : skip = none := hskip
      cases passed with
      | true =>
          have haccept : acceptTypeFirst o.language (.head none modifiers) t.value =
              .take (.head none modifiers) := by
            simp only [acceptTypeFirst, FieldMachine.acceptHead, hstep]
          exact ⟨.head none modifiers, true, field_takes hl ht haccept rfl rfl, Nat.zero_le _⟩
      | false =>
          by_cases hmark : o.language.marks .fieldModifier t.value = true
          · have haccept : acceptTypeFirst o.language (.head none modifiers) t.value =
                .take (.head none (modifiers ++ [t.text])) := by
              simp only [acceptTypeFirst, FieldMachine.acceptHead, hstep, hmark, if_true]
            exact ⟨.head none (modifiers ++ [t.text]), true,
              field_takes hl ht haccept rfl rfl, Nat.zero_le _⟩
          · by_cases hstarts : TypeMachine.starts o.language false t.value = true
            · rw [if_pos hstarts]
              have haccept : acceptTypeFirst o.language (.head none modifiers) t.value =
                  match TypeRef.parse t.text with
                  | .ok r => ⟨.type { modifiers } (.found r), true, []⟩
                  | .error e => ⟨.failed, true, [⟨t.text, e⟩]⟩ := by
                simp only [acceptTypeFirst, FieldMachine.acceptHead, hstep, hmark, hstarts,
                  Bool.false_eq_true, if_false, if_true]
                exact FieldMachine.acceptType_start hl hstarts
              cases hparse : TypeRef.parse t.text with
              | ok r =>
                  rw [hparse] at haccept
                  exact ⟨_, true, field_takes hl ht haccept rfl rfl, Nat.le_refl 1⟩
              | error e =>
                  rw [hparse] at haccept
                  exact ⟨idle, true, field_dies hl ht haccept, Nat.zero_le _⟩
            · have haccept : acceptTypeFirst o.language (.head none modifiers) t.value =
                  .leave (if modifiers.isEmpty then .head none [] else .failed) := by
                simp only [acceptTypeFirst, FieldMachine.acceptHead, hstep, hmark, hstarts,
                  Bool.false_eq_true, if_false]
              cases modifiers with
              | nil =>
                  exact ⟨idle, false, field_leaves hl ht haccept rfl rfl, Nat.zero_le _⟩
              | cons w ws =>
                  obtain ⟨m', taken, hm', hrank⟩ := hretry (by simp)
                  exact ⟨m', taken, (field_retries hl ht haccept rfl).trans hm', hrank⟩

theorem field_calm_idle (hl : o.language.memberOrder = .typeFirst) (ht : t.kind ≠ .comment)
    (hat : t.value.isSeparator "@" = false) :
    FieldCalm o t idle (if TypeMachine.starts o.language false t.value then 1 else 0) :=
  field_calm_head hl ht hat [] fun h => absurd rfl h

/-- A machine that gives up in front of a token is calm. -/
theorem field_calm_of_retry (hl : o.language.memberOrder = .typeFirst) (ht : t.kind ≠ .comment)
    (hat : t.value.isSeparator "@" = false)
    (h : respond o t (field m) = respond o t (field idle)) :
    FieldCalm o t m (if TypeMachine.starts o.language false t.value then 1 else 0) := by
  obtain ⟨m', taken, hm', hrank⟩ := field_calm_idle hl ht hat
  exact ⟨m', taken, h.trans hm', hrank⟩

theorem starts_le_rankAfter (l : Language) (t : Token) (n : Nat) :
    (if TypeMachine.starts l false t then 1 else 0) ≤ rankAfter l t n := by
  unfold rankAfter
  by_cases hstarts : TypeMachine.starts l false t = true
  · rw [if_pos hstarts, TypeMachine.starts_allow true hstarts]
    split
    · omega
    · simp
  · rw [if_neg hstarts]
    exact Nat.zero_le _

/-- Behind the type, an identifier may be the name. -/
theorem field_calm_name {d : FieldDraft} (hl : o.language.memberOrder = .typeFirst)
    (ht : t.kind ≠ .comment) (hat : t.value.isSeparator "@" = false)
    (h : acceptTypeFirst o.language m t.value = FieldMachine.acceptName d t.value)
    (hm : m.isIdle = false) : FieldCalm o t m (rankAfter o.language t.value 1) := by
  unfold FieldMachine.acceptName at h
  split at h
  · rename_i hname
    have hkind : t.value.kind = .identifier := beq_iff_eq.1 (Bool.and_eq_true_iff.1 hname).1
    refine ⟨_, true, field_takes hl ht h rfl rfl, ?_⟩
    rw [rankAfter, if_pos hkind]
    exact Nat.le_refl 2
  · exact (field_calm_of_retry hl ht hat (field_retries hl ht h hm)).mono
      (starts_le_rankAfter _ _ _)

theorem rankAfter_mono (l : Language) (t : Token) {n k : Nat} (h : n ≤ k) :
    rankAfter l t n ≤ rankAfter l t k := by
  unfold rankAfter
  split
  · omega
  · exact Nat.le_refl _

/-- An operator that belongs to a type leaves the name to come. -/
theorem one_le_rankAfter {op : String} (h : t.value.isOperator op = true)
    (hop : op = "?" ∨ op = "...") (l : Language) (n : Nat) : 1 ≤ rankAfter l t.value n := by
  have hkind := Token.kind_of_isOperator h
  unfold rankAfter
  rw [if_neg (by rw [hkind]; decide)]
  rcases hop with rfl | rfl <;> simp [h]

/-- A token that may not follow the name of a field ends no field. -/
theorem field_calm {n : Nat} (hl : o.language.memberOrder = .typeFirst) (ht : t.kind ≠ .comment)
    (hat : t.value.isSeparator "@" = false) (hm : m.rank ≤ n) (hn : n ≤ 2)
    (htail : n = 2 → FieldMachine.isTail t.value = false) :
    FieldCalm o t m (rankAfter o.language t.value n) := by
  cases m with
  | head skip modifiers =>
      cases skip with
      | none =>
          exact (field_calm_head hl ht hat modifiers fun _ => field_calm_idle hl ht hat).mono
            (starts_le_rankAfter _ _ _)
      | some skip => exact absurd (Nat.le_trans hm hn) (by decide : ¬ 3 ≤ 2)
  | type d machine =>
      cases machine with
      | found r =>
          have hone : rankAfter o.language t.value 1 ≤ rankAfter o.language t.value n :=
            rankAfter_mono _ _ hm
          by_cases hmark : t.value.isOperator "?" = true
          · exact ⟨_, true, field_takes hl ht (FieldMachine.accept_mark hl hmark) rfl rfl,
              one_le_rankAfter hmark (Or.inl rfl) _ _⟩
          · by_cases hdots : t.value.isOperator "..." = true
            · have haccept : acceptTypeFirst o.language (.type d (.found r)) t.value =
                  .take (.name { d with
                    type? := some { r with dimensions := r.dimensions + 1 } }) := by
                simp only [acceptTypeFirst, FieldMachine.acceptType, TypeMachine.accept, hl,
                  hmark, hdots]
                rfl
              exact ⟨_, true, field_takes hl ht haccept rfl rfl,
                one_le_rankAfter hdots (Or.inr rfl) _ _⟩
            · rw [Bool.not_eq_true] at hmark hdots
              exact (field_calm_name hl ht hat (FieldMachine.accept_found hl hmark hdots) rfl).mono
                hone
      | _ => exact absurd (Nat.le_trans hm hn) (by decide : ¬ 3 ≤ 2)
  | name d => exact (field_calm_name (d := d) hl ht hat rfl rfl).mono (rankAfter_mono _ _ hm)
  | afterName d =>
      have htail := htail (Nat.le_antisymm hn hm)
      simp only [FieldMachine.isTail, Bool.or_eq_false_iff] at htail
      have haccept : acceptTypeFirst o.language (.afterName d) t.value = .leave .failed := by
        simp [acceptTypeFirst, htail]
      exact (field_calm_of_retry hl ht hat (field_retries hl ht haccept rfl)).mono
        (starts_le_rankAfter _ _ _)
  | _ => exact absurd (Nat.le_trans hm hn) (by decide : ¬ 3 ≤ 2)

/-! ## Tokens of a field -/

theorem field_modifier (hl : o.language.memberOrder = .typeFirst)
    (h : o.language.marks .fieldModifier t.value = true) (modifiers : List String) :
    respond o t (field (.head none modifiers)) =
      ⟨field (.head none (modifiers ++ [t.text])), [], true⟩ := by
  have hkind := Language.kind_of_marks h
  have haccept : acceptTypeFirst o.language (.head none modifiers) t.value =
      .take (.head none (modifiers ++ [t.text])) := by
    simp only [acceptTypeFirst, FieldMachine.acceptHead, FieldMachine.step_word (Or.inl hkind), h,
      if_true]
  exact field_takes hl (by show t.value.kind ≠ _; rw [hkind]; decide) haccept rfl rfl

theorem field_type {r : TypeRef} (hl : o.language.memberOrder = .typeFirst)
    (hstarts : TypeMachine.starts o.language false t.value = true)
    (hparse : TypeRef.parse t.text = .ok r) (modifiers : List String) :
    respond o t (field (.head none modifiers)) =
      ⟨field (.type { modifiers, line := t.span.last.line } (.found r)), [], true⟩ := by
  have hkind := TypeMachine.word_of_starts hl hstarts
  have hmark : o.language.marks .fieldModifier t.value = false :=
    Language.not_marks_of_starts hl (by decide) hstarts
  have haccept : acceptTypeFirst o.language (.head none modifiers) t.value =
      ⟨.type { modifiers } (.found r), true, []⟩ := by
    simp only [acceptTypeFirst, FieldMachine.acceptHead, FieldMachine.step_word hkind, hmark,
      hstarts, Bool.false_eq_true, if_false, if_true]
    rw [FieldMachine.acceptType_start hl hstarts, hparse]
  exact field_takes hl (by rcases hkind with h | h <;> simp [TokenTree.kind, h]) haccept rfl rfl

/-- The type of a field is read, and perhaps the mark behind it. -/
def FieldTyped (m : FieldMachine) (modifiers : List String) (r : TypeRef) : Prop :=
  (∃ line, m = .type { modifiers, line } (.found r)) ∨
    ∃ line, m = .name { modifiers, type? := some r, line }

theorem field_mark {r : TypeRef} {modifiers : List String} {line : Nat}
    (hl : o.language.memberOrder = .typeFirst) (h : t.value.isOperator "?" = true) :
    ∃ m', respond o t (field (.type { modifiers, line } (.found r))) = ⟨field m', [], true⟩ ∧
      FieldTyped m' modifiers { r with nullable := true } := by
  have ht : t.kind ≠ .comment := by
    show t.value.kind ≠ _
    rw [Token.kind_of_isOperator h]
    decide
  exact ⟨_, field_takes hl ht (FieldMachine.accept_mark hl h) rfl rfl, Or.inr ⟨_, rfl⟩⟩

/-- The name of a field. -/
theorem field_name {r : TypeRef} {modifiers : List String}
    (hl : o.language.memberOrder = .typeFirst) (hm : FieldTyped m modifiers r)
    (hkind : t.kind = .identifier) (hplain : FieldMachine.isPlain t.text = true) :
    ∃ line, respond o t (field m) =
      ⟨field (.afterName { modifiers, type? := some r, name := t.text, line }), [], true⟩ := by
  have ht : t.kind ≠ .comment := by rw [hkind]; decide
  have hop : ∀ op, t.value.isOperator op = false :=
    Token.isOperator_eq_false (by show t.kind ≠ _; rw [hkind]; decide)
  have hname : ∀ d, FieldMachine.acceptName d t.value =
      .take (.afterName { d with name := t.text }) := by
    intro d
    rw [FieldMachine.acceptName, if_pos]
    rw [Bool.and_eq_true]
    exact ⟨beq_iff_eq.2 hkind, hplain⟩
  rcases hm with ⟨line, rfl⟩ | ⟨line, rfl⟩
  · have haccept := FieldMachine.accept_found (d := { modifiers, line }) (r := r) hl (hop "?")
      (hop "...")
    exact ⟨_, field_takes hl ht (haccept.trans (hname _)) rfl rfl⟩
  · exact ⟨_, field_takes hl ht ((FieldMachine.accept_name _ _ _).trans (hname _)) rfl rfl⟩

/-- The last token of a field. -/
theorem field_stop {d : FieldDraft} (hl : o.language.memberOrder = .typeFirst)
    (h : t.value.isSeparator ";" = true ∨
      o.language.hasPropertyBlocks = true ∧ t.value.isBlock '\x7b' = true) :
    respond o t (field (.afterName d)) =
      ⟨field idle, [field (.complete { d with line := t.span.last.line })], true⟩ := by
  have ht : t.kind ≠ .comment := by
    show t.value.kind ≠ _
    rcases h with h | ⟨-, h⟩
    · rw [Token.kind_of_isSeparator h]
      decide
    · rw [Token.kind_of_isBlock h]
      decide
  have haccept : acceptTypeFirst o.language (.afterName d) t.value = .take (.complete d) := by
    rcases h with h | ⟨hproperty, h⟩
    · simp [acceptTypeFirst, FieldMachine.isEnd, h]
    · have hkind := Token.kind_of_isBlock h
      have hop : ∀ op, t.value.isOperator op = false :=
        Token.isOperator_eq_false (by rw [hkind]; decide)
      simp [acceptTypeFirst, h, hproperty, hop]
  exact field_ends hl ht haccept

/-! ## Tokens between fields -/

/-- A machine that has not read the name of a field gives up at a token that is neither a word
nor an operator. -/
theorem field_calm_leaves (hl : o.language.memberOrder = .typeFirst) (hm : m.rank ≤ 1)
    (hkind : t.kind = .separator ∨ t.kind = .block) (hat : t.value.isSeparator "@" = false)
    (hbracket : t.value.isBlock '[' = false) :
    respond o t (field m) = ⟨field idle, [], false⟩ := by
  have ht : t.kind ≠ .comment := by rcases hkind with h | h <;> rw [h] <;> decide
  have hstep : AnnotationSkip.step o.language none t.value = (none, false) := by
    unfold AnnotationSkip.step
    cases o.language.annotationStyle <;> simp [hat, hbracket]
  obtain ⟨hmark, hstarts⟩ := Language.not_head (t := t.value) hl hkind .fieldModifier false
  have hhead : ∀ modifiers, acceptTypeFirst o.language (.head none modifiers) t.value =
      .leave (if modifiers.isEmpty then .head none [] else .failed) := by
    intro modifiers
    simp only [acceptTypeFirst, FieldMachine.acceptHead, hstep, hmark, hstarts,
      Bool.false_eq_true, if_false]
  have hidle : respond o t (field idle) = ⟨field idle, [], false⟩ :=
    field_leaves hl ht (hhead []) rfl rfl
  have hop : ∀ op, t.value.isOperator op = false :=
    Token.isOperator_eq_false (by show t.kind ≠ _; rcases hkind with h | h <;> rw [h] <;> decide)
  have hname : ∀ d, FieldMachine.acceptName d t.value = .leave .failed := by
    intro d
    rw [FieldMachine.acceptName, if_neg]
    rcases hkind with h | h <;> simp [h]
  cases m with
  | head skip modifiers =>
      cases skip with
      | none =>
          cases modifiers with
          | nil => exact hidle
          | cons w ws => exact (field_retries hl ht (hhead (w :: ws)) rfl).trans hidle
      | some skip => exact absurd hm (by decide : ¬ 3 ≤ 1)
  | type d machine =>
      cases machine with
      | found r =>
          have haccept := FieldMachine.accept_found (d := d) (r := r) hl (hop "?") (hop "...")
          exact (field_retries hl ht (haccept.trans (hname _)) rfl).trans hidle
      | _ => exact absurd hm (by decide : ¬ 3 ≤ 1)
  | name d =>
      have haccept := FieldMachine.accept_name o.language d t.value
      exact (field_retries hl ht (haccept.trans (hname d)) rfl).trans hidle
  | afterName d => exact absurd hm (by decide : ¬ 2 ≤ 1)
  | _ => exact absurd hm (by decide : ¬ 3 ≤ 1)

/-- In front of a word, the name of an annotation has been read or nothing has. -/
theorem field_arguments (hl : o.language.memberOrder = .typeFirst)
    (hstyle : o.language.annotationStyle = .atSign)
    (hkind : t.kind = .keyword ∨ t.kind = .identifier) :
    respond o t (field (.head (some .arguments) [])) = respond o t (field idle) := by
  have hstep : AnnotationSkip.step o.language (some .arguments) t.value = (none, false) := by
    have hblock : t.value.isBlock '(' = false :=
      Token.isBlock_eq_false (by show t.kind ≠ _; rcases hkind with h | h <;> rw [h] <;> decide) '('
    simp [AnnotationSkip.step, hstyle, hblock]
  have haccept : acceptTypeFirst o.language (.head (some .arguments) []) t.value =
      acceptTypeFirst o.language idle t.value := by
    simp only [idle, acceptTypeFirst, FieldMachine.acceptHead, hstep,
      FieldMachine.step_word hkind]
  have hsame : FieldMachine.accept o (.head (some .arguments) []) t.value =
      FieldMachine.accept o idle t.value := by
    have ht : (t.value.kind == .comment) = false := by
      rcases hkind with h | h <;> simp [TokenTree.kind] at h <;> rw [h] <;> rfl
    simp only [FieldMachine.accept, ht, hl, haccept, Bool.false_eq_true, if_false]
  exact respond_congr (by rw [accept, accept, hsame]) rfl rfl (restart_field (p := 0) (by
    rcases hkind with h | h <;> rw [h] <;> decide)).1

end Extractor

end Outline
