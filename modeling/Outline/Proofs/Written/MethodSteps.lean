import Outline.Proofs.Member.MethodOffer
import Outline.Proofs.Written.FieldSteps

/-!
# Feeding tokens to the machine that reads methods

How the machine responds to a token where the type comes first, as far as the proofs about written
declarations ask for it.

* `MethodMachine.rank` — how close the machine is to the parameters of a method.
* `Extractor.method_calm` — a token that starts no parameters brings it at most one rank closer.
-/

namespace Outline

namespace MethodMachine

/-- Notes the line at which a token ends. -/
def stamp (t : Token) (m : MethodMachine) : MethodMachine :=
  m.mapDraft fun d => { d with line := t.span.last.line }

/-- How close the machine is to the parameters of a method: nothing but modifiers is read, the
type is read, or the name is read.  Other states have no rank below three. -/
def rank : MethodMachine → Nat
  | head _ none _ [] => 0
  | type _ (.found _) | name _ => 1
  | afterName _ => 2
  | _ => 3

variable {o : Owner} {t : TokenTree} {m m' : MethodMachine} {malformed : List MalformedType}

/-! ## Steps -/

/-- What the machine makes of a token that is no comment. -/
def acceptInOrder (o : Owner) (m : MethodMachine) (t : TokenTree) : Step MethodMachine :=
  match o.language.memberOrder with
  | .typeFirst => acceptTypeFirst o m t
  | .nameFirst => acceptNameFirst o m t

theorem acceptInOrder_typeFirst (hl : o.language.memberOrder = .typeFirst) (m : MethodMachine)
    (t : TokenTree) : acceptInOrder o m t = acceptTypeFirst o m t := by
  rw [acceptInOrder, hl]

theorem acceptInOrder_nameFirst (hl : o.language.memberOrder = .nameFirst) (m : MethodMachine)
    (t : TokenTree) : acceptInOrder o m t = acceptNameFirst o m t := by
  rw [acceptInOrder, hl]

theorem accept_eq (o : Owner) (m : MethodMachine) (t : TokenTree) :
    m.accept o t = if t.kind == .comment then .leave m
      else if (acceptInOrder o m t).taken then (acceptInOrder o m t).map (stamp t.value)
      else acceptInOrder o m t := rfl

theorem accept_of_taken (ht : t.kind ≠ .comment)
    (h : acceptInOrder o m t = ⟨m', true, malformed⟩) :
    m.accept o t = ⟨m'.stamp t.value, true, malformed⟩ := by
  rw [accept_eq, beq_eq_false_iff_ne.2 ht, h]
  rfl

theorem accept_of_left (ht : t.kind ≠ .comment)
    (h : acceptInOrder o m t = ⟨m', false, malformed⟩) :
    m.accept o t = ⟨m', false, malformed⟩ := by
  rw [accept_eq, beq_eq_false_iff_ne.2 ht, h]
  rfl

/-- The first token of a type. -/
theorem acceptType_start {l : Language} {t : Token} {d : MethodDraft}
    {within : MethodDraft → TypeMachine → MethodMachine} {next : MethodDraft → MethodMachine}
    {accept : MethodDraft → Step MethodMachine} (hl : l.memberOrder = .typeFirst)
    (hstarts : TypeMachine.starts l true t = true) :
    acceptType l d .idle t within next accept = match TypeRef.parse t.text with
      | .ok r => ⟨within d (.found r), true, []⟩
      | .error e => ⟨failed, true, [⟨t.text, e⟩]⟩ := by
  unfold acceptType
  rw [TypeMachine.accept_start hl hstarts, TypeMachine.find]
  cases TypeRef.parse t.text <;> rfl

/-- A token behind a type that does not belong to it. -/
theorem accept_found {d : MethodDraft} {r : TypeRef} (hl : o.language.memberOrder = .typeFirst)
    (hmark : t.value.isOperator "?" = false) (hdots : t.value.isOperator "..." = false) :
    acceptTypeFirst o (type d (.found r)) t =
      acceptAfterType o { d with returnType? := some r } t := by
  simp only [acceptTypeFirst, acceptType]
  rw [TypeMachine.accept_behind hl hmark hdots]
  rfl

/-- A question mark behind a type. -/
theorem accept_mark {d : MethodDraft} {r : TypeRef} (hl : o.language.memberOrder = .typeFirst)
    (hmark : t.value.isOperator "?" = true) :
    acceptTypeFirst o (type d (.found r)) t =
      .take (name { d with returnType? := some { r with nullable := true } }) := by
  simp only [acceptTypeFirst, acceptType]
  rw [TypeMachine.accept_mark hl hmark]
  rfl

theorem accept_name (o : Owner) (d : MethodDraft) (t : TokenTree) :
    acceptTypeFirst o (name d) t = acceptAfterType o d t := rfl

end MethodMachine

namespace Extractor

open MethodMachine (idle acceptTypeFirst acceptInOrder)

variable {o : Owner} {t : TokenTree} {m m' : MethodMachine} {malformed : List MalformedType}

/-! ## From steps to responses -/

theorem respond_takes (ht : t.kind ≠ .comment)
    (h : acceptInOrder o m t = ⟨m', true, malformed⟩)
    (hf : m'.isFailed = false) (hc : m'.isComplete = false) :
    respond o t (method m) = ⟨method (m'.stamp t.value), [], true⟩ := by
  have hs : (method m).accept o t = ⟨method (m'.stamp t.value), true, malformed⟩ := by
    rw [accept, MethodMachine.accept_of_taken ht h]
    rfl
  refine respond_of_going hs ?_ ?_
  · cases m' <;> first | rfl | exact hf
  · cases m' <;> first | rfl | exact hc

theorem respond_leaves (ht : t.kind ≠ .comment)
    (h : acceptInOrder o m t = ⟨m', false, malformed⟩)
    (hf : m'.isFailed = false) (hc : m'.isComplete = false) :
    respond o t (method m) = ⟨method m', [], false⟩ := by
  have hs : (method m).accept o t = ⟨method m', false, malformed⟩ := by
    rw [accept, MethodMachine.accept_of_left ht h]
    rfl
  exact respond_of_going hs hf hc

/-- A machine that gives up in front of a token reads it as if nothing had been read. -/
theorem respond_retries (ht : t.kind ≠ .comment)
    (h : acceptInOrder o m t = ⟨.failed, false, malformed⟩) (hm : m.isIdle = false) :
    respond o t (method m) = respond o t (method idle) := by
  have hs : (method m).accept o t = ⟨method .failed, false, malformed⟩ := by
    rw [accept, MethodMachine.accept_of_left ht h]
    rfl
  exact respond_of_left_failed hs rfl rfl hm rfl (restart_method (p := 0) ht).1

theorem respond_ends {d : MethodDraft} (ht : t.kind ≠ .comment)
    (h : acceptInOrder o m t = ⟨.complete d, true, malformed⟩) :
    respond o t (method m) =
      ⟨method idle, [method (.complete { d with line := t.span.last.line })], true⟩ := by
  have hs : (method m).accept o t =
      ⟨method (.complete { d with line := t.span.last.line }), true, malformed⟩ := by
    rw [accept, MethodMachine.accept_of_taken ht h]
    rfl
  exact respond_of_taken_complete hs rfl rfl rfl

theorem method_takes (hl : o.language.memberOrder = .typeFirst) (ht : t.kind ≠ .comment)
    (h : acceptTypeFirst o m t = ⟨m', true, malformed⟩)
    (hf : m'.isFailed = false) (hc : m'.isComplete = false) :
    respond o t (method m) = ⟨method (m'.stamp t.value), [], true⟩ :=
  respond_takes ht ((MethodMachine.acceptInOrder_typeFirst hl m t).trans h) hf hc

theorem method_leaves (hl : o.language.memberOrder = .typeFirst) (ht : t.kind ≠ .comment)
    (h : acceptTypeFirst o m t = ⟨m', false, malformed⟩)
    (hf : m'.isFailed = false) (hc : m'.isComplete = false) :
    respond o t (method m) = ⟨method m', [], false⟩ :=
  respond_leaves ht ((MethodMachine.acceptInOrder_typeFirst hl m t).trans h) hf hc

theorem method_dies (hl : o.language.memberOrder = .typeFirst) (ht : t.kind ≠ .comment)
    (h : acceptTypeFirst o m t = ⟨.failed, true, malformed⟩) :
    respond o t (method m) = ⟨method idle, [], true⟩ := by
  have hs : (method m).accept o t = ⟨method .failed, true, malformed⟩ := by
    rw [accept, MethodMachine.accept_of_taken ht
      ((MethodMachine.acceptInOrder_typeFirst hl m t).trans h)]
    rfl
  exact respond_of_taken_failed hs rfl rfl

theorem method_retries (hl : o.language.memberOrder = .typeFirst) (ht : t.kind ≠ .comment)
    (h : acceptTypeFirst o m t = ⟨.failed, false, malformed⟩)
    (hm : m.isIdle = false) : respond o t (method m) = respond o t (method idle) :=
  respond_retries ht ((MethodMachine.acceptInOrder_typeFirst hl m t).trans h) hm

theorem method_ends {d : MethodDraft} (hl : o.language.memberOrder = .typeFirst)
    (ht : t.kind ≠ .comment) (h : acceptTypeFirst o m t = ⟨.complete d, true, malformed⟩) :
    respond o t (method m) =
      ⟨method idle, [method (.complete { d with line := t.span.last.line })], true⟩ :=
  respond_ends ht ((MethodMachine.acceptInOrder_typeFirst hl m t).trans h)

/-! ## Tokens that start no parameters -/

/-- A token is read by the machine, which has at most the rank `n` behind it. -/
def MethodCalm (o : Owner) (t : TokenTree) (m : MethodMachine) (n : Nat) : Prop :=
  ∃ m' taken, respond o t (method m) = ⟨method m', [], taken⟩ ∧ m'.rank ≤ n

theorem MethodCalm.mono {n k : Nat} (h : MethodCalm o t m n) (hk : n ≤ k) :
    MethodCalm o t m k := by
  obtain ⟨m', taken, hm', hrank⟩ := h
  exact ⟨m', taken, hm', Nat.le_trans hrank hk⟩

/-- In front of the type, a token is passed over, is a modifier, starts the type, or makes the
machine give up. -/
theorem method_calm_head (hl : o.language.memberOrder = .typeFirst) (ht : t.kind ≠ .comment)
    (hat : t.value.isSeparator "@" = false) (hangle : t.value.isOperator "<" = false)
    (started : Bool) (modifiers : List String)
    (hretry : started = true →
      MethodCalm o t idle (if TypeMachine.starts o.language true t.value then 1 else 0)) :
    MethodCalm o t (.head started none modifiers [])
      (if TypeMachine.starts o.language true t.value then 1 else 0) := by
  have hskip := FieldMachine.step_none (l := o.language) hat
  cases hstep : AnnotationSkip.step o.language none t.value with
  | mk skip passed =>
      rw [hstep] at hskip
      obtain rfl : skip = none := hskip
      cases passed with
      | true =>
          have haccept : acceptTypeFirst o (.head started none modifiers []) t =
              .take (.head started none modifiers []) := by
            simp only [acceptTypeFirst, hstep]
          exact ⟨.head started none modifiers [], true, method_takes hl ht haccept rfl rfl,
            Nat.zero_le _⟩
      | false =>
          by_cases hmark : o.language.marks .methodModifier t.value = true
          · have haccept : acceptTypeFirst o (.head started none modifiers []) t =
                .take (.head true none (modifiers ++ [t.text]) []) := by
              simp only [acceptTypeFirst, hstep, hmark, if_true]
            exact ⟨.head true none (modifiers ++ [t.text]) [], true,
              method_takes hl ht haccept rfl rfl, Nat.zero_le _⟩
          · by_cases hstarts : TypeMachine.starts o.language true t.value = true
            · rw [if_pos hstarts]
              have haccept : acceptTypeFirst o (.head started none modifiers []) t =
                  match TypeRef.parse t.text with
                  | .ok r => ⟨.type { modifiers } (.found r), true, []⟩
                  | .error e => ⟨.failed, true, [⟨t.text, e⟩]⟩ := by
                simp only [acceptTypeFirst, hstep, hmark, hangle, hstarts, Bool.false_and,
                  Bool.false_eq_true, if_false, if_true]
                exact MethodMachine.acceptType_start hl hstarts
              cases hparse : TypeRef.parse t.text with
              | ok r =>
                  rw [hparse] at haccept
                  exact ⟨_, true, method_takes hl ht haccept rfl rfl, Nat.le_refl 1⟩
              | error e =>
                  rw [hparse] at haccept
                  exact ⟨idle, true, method_dies hl ht haccept, Nat.zero_le _⟩
            · have haccept : acceptTypeFirst o (.head started none modifiers []) t =
                  MethodMachine.leaveHead started none [] := by
                simp only [acceptTypeFirst, hstep, hmark, hangle, hstarts, Bool.false_and,
                  Bool.false_eq_true, if_false]
              cases started with
              | false =>
                  exact ⟨idle, false, method_leaves hl ht haccept rfl rfl, Nat.zero_le _⟩
              | true =>
                  obtain ⟨m', taken, hm', hrank⟩ := hretry rfl
                  exact ⟨m', taken, (method_retries hl ht haccept rfl).trans hm', hrank⟩

theorem method_calm_idle (hl : o.language.memberOrder = .typeFirst) (ht : t.kind ≠ .comment)
    (hat : t.value.isSeparator "@" = false) (hangle : t.value.isOperator "<" = false) :
    MethodCalm o t idle (if TypeMachine.starts o.language true t.value then 1 else 0) :=
  method_calm_head hl ht hat hangle false [] fun h => absurd h Bool.false_ne_true

theorem starts_true_le_rankAfter (l : Language) (t : Token) (n : Nat) :
    (if TypeMachine.starts l true t then 1 else 0) ≤ rankAfter l t n := by
  unfold rankAfter
  by_cases hstarts : TypeMachine.starts l true t = true
  · rw [if_pos hstarts, hstarts]
    split
    · omega
    · simp
  · rw [if_neg hstarts]
    exact Nat.zero_le _

/-- A machine that gives up in front of a token is calm. -/
theorem method_calm_of_retry {n : Nat} (hl : o.language.memberOrder = .typeFirst)
    (ht : t.kind ≠ .comment) (hat : t.value.isSeparator "@" = false)
    (hangle : t.value.isOperator "<" = false)
    (h : respond o t (method m) = respond o t (method idle)) :
    MethodCalm o t m (rankAfter o.language t.value n) := by
  obtain ⟨m', taken, hm', hrank⟩ := method_calm_idle hl ht hat hangle
  exact ⟨m', taken, h.trans hm', Nat.le_trans hrank (starts_true_le_rankAfter _ _ _)⟩

/-- Behind the type, an identifier may be the name. -/
theorem method_calm_name {d : MethodDraft} (hl : o.language.memberOrder = .typeFirst)
    (ht : t.kind ≠ .comment) (hat : t.value.isSeparator "@" = false)
    (hangle : t.value.isOperator "<" = false) (hparen : t.value.isBlock '(' = false)
    (h : acceptTypeFirst o m t = MethodMachine.acceptAfterType o d t)
    (hm : m.isIdle = false) : MethodCalm o t m (rankAfter o.language t.value 1) := by
  unfold MethodMachine.acceptAfterType at h
  by_cases hkind : t.kind = .identifier
  · rw [if_pos (beq_iff_eq.2 hkind), MethodMachine.acceptName] at h
    have hrank : rankAfter o.language t.value 1 = 2 := by
      rw [rankAfter, if_pos hkind]
      rfl
    rw [hrank]
    cases hparse : TypeRef.parse t.text with
    | ok r =>
        rw [hparse] at h
        exact ⟨_, true, method_takes hl ht h rfl rfl, Nat.le_refl 2⟩
    | error e =>
        rw [hparse] at h
        exact ⟨idle, true, method_dies hl ht h, Nat.zero_le 2⟩
  · have hconstructor : MethodMachine.isConstructor o d t.value = false := by
      rw [MethodMachine.isConstructor, hparen, Bool.false_and]
    rw [if_neg (by simpa using hkind), hconstructor, if_neg Bool.false_ne_true] at h
    exact method_calm_of_retry hl ht hat hangle (method_retries hl ht h hm)

/-- A token that is no block in parentheses starts no parameters. -/
theorem method_calm {n : Nat} (hl : o.language.memberOrder = .typeFirst) (ht : t.kind ≠ .comment)
    (hat : t.value.isSeparator "@" = false) (hangle : t.value.isOperator "<" = false)
    (hparen : n ≠ 0 → t.value.isBlock '(' = false) (hm : m.rank ≤ n) (hn : n ≤ 2) :
    MethodCalm o t m (rankAfter o.language t.value n) := by
  cases m with
  | head started skip modifiers typeParams =>
      cases skip with
      | none =>
          cases typeParams with
          | nil =>
              exact (method_calm_head hl ht hat hangle started modifiers fun _ =>
                method_calm_idle hl ht hat hangle).mono (starts_true_le_rankAfter _ _ _)
          | cons => exact absurd (Nat.le_trans hm hn) (by decide : ¬ 3 ≤ 2)
      | some skip => exact absurd (Nat.le_trans hm hn) (by decide : ¬ 3 ≤ 2)
  | type d machine =>
      cases machine with
      | found r =>
          have hm : 1 ≤ n := hm
          have hparen := hparen (by omega)
          have hone : rankAfter o.language t.value 1 ≤ rankAfter o.language t.value n :=
            rankAfter_mono _ _ hm
          by_cases hmark : t.value.isOperator "?" = true
          · exact ⟨_, true, method_takes hl ht (MethodMachine.accept_mark hl hmark) rfl rfl,
              one_le_rankAfter hmark (Or.inl rfl) _ _⟩
          · by_cases hdots : t.value.isOperator "..." = true
            · have haccept : acceptTypeFirst o (.type d (.found r)) t =
                  .take (.name { d with
                    returnType? := some { r with dimensions := r.dimensions + 1 } }) := by
                simp only [acceptTypeFirst, MethodMachine.acceptType, TypeMachine.accept, hl,
                  hmark, hdots]
                rfl
              exact ⟨_, true, method_takes hl ht haccept rfl rfl,
                one_le_rankAfter hdots (Or.inr rfl) _ _⟩
            · rw [Bool.not_eq_true] at hmark hdots
              exact (method_calm_name hl ht hat hangle hparen
                (MethodMachine.accept_found hl hmark hdots) rfl).mono hone
      | _ => exact absurd (Nat.le_trans hm hn) (by decide : ¬ 3 ≤ 2)
  | name d =>
      have hm : 1 ≤ n := hm
      exact (method_calm_name hl ht hat hangle (hparen (by omega))
        (MethodMachine.accept_name o d t) rfl).mono (rankAfter_mono _ _ hm)
  | afterName d =>
      have hm : 2 ≤ n := hm
      have haccept : acceptTypeFirst o (.afterName d) t = .leave .failed := by
        simp [acceptTypeFirst, hparen (by omega)]
      exact method_calm_of_retry hl ht hat hangle (method_retries hl ht haccept rfl)
  | _ => exact absurd (Nat.le_trans hm hn) (by decide : ¬ 3 ≤ 2)

/-! ## Tokens of a method -/

/-- In either order, the modifiers come first. -/
theorem method_modifier (h : o.language.marks .methodModifier t.value = true) (started : Bool)
    (modifiers : List String) :
    respond o t (method (.head started none modifiers [])) =
      ⟨method (.head true none (modifiers ++ [t.text]) []), [], true⟩ := by
  have hkind := Language.kind_of_marks h
  have haccept : acceptInOrder o (.head started none modifiers []) t =
      .take (.head true none (modifiers ++ [t.text]) []) := by
    rw [acceptInOrder]
    cases o.language.memberOrder <;>
      simp only [acceptTypeFirst, MethodMachine.acceptNameFirst,
        FieldMachine.step_word (Or.inl hkind), h, if_true]
  exact respond_takes (by show t.value.kind ≠ _; rw [hkind]; decide) haccept rfl rfl

theorem method_type {r : TypeRef} (hl : o.language.memberOrder = .typeFirst)
    (hstarts : TypeMachine.starts o.language true t.value = true)
    (hparse : TypeRef.parse t.text = .ok r) (started : Bool) (modifiers : List String)
    (typeParams : List TypeRef) :
    respond o t (method (.head started none modifiers typeParams)) =
      ⟨method (.type { modifiers, typeParams, line := t.span.last.line } (.found r)), [], true⟩ := by
  have hkind := TypeMachine.word_of_starts hl hstarts
  have hmark : o.language.marks .methodModifier t.value = false :=
    Language.not_marks_of_starts hl (by decide) hstarts
  have hangle : t.value.isOperator "<" = false :=
    Token.isOperator_eq_false (by rcases hkind with h | h <;> rw [h] <;> decide) "<"
  have haccept : acceptTypeFirst o (.head started none modifiers typeParams) t =
      ⟨.type { modifiers, typeParams } (.found r), true, []⟩ := by
    simp only [acceptTypeFirst, FieldMachine.step_word hkind, hmark, hangle, hstarts,
      Bool.false_and, Bool.false_eq_true, if_false, if_true]
    rw [MethodMachine.acceptType_start hl hstarts, hparse]
  exact method_takes hl (by rcases hkind with h | h <;> simp [TokenTree.kind, h]) haccept rfl rfl

/-- The type of a method is read, and perhaps the mark behind it. -/
def MethodTyped (m : MethodMachine) (modifiers : List String) (r : TypeRef)
    (typeParams : List TypeRef := []) : Prop :=
  (∃ line, m = .type { modifiers, typeParams, line } (.found r)) ∨
    ∃ line, m = .name { modifiers, typeParams, returnType? := some r, line }

variable {typeParams : List TypeRef}

theorem method_mark {r : TypeRef} {modifiers : List String} {line : Nat}
    (hl : o.language.memberOrder = .typeFirst) (h : t.value.isOperator "?" = true) :
    ∃ m', respond o t (method (.type { modifiers, typeParams, line } (.found r))) =
        ⟨method m', [], true⟩ ∧
      MethodTyped m' modifiers { r with nullable := true } typeParams := by
  have ht : t.kind ≠ .comment := by
    show t.value.kind ≠ _
    rw [Token.kind_of_isOperator h]
    decide
  exact ⟨_, method_takes hl ht (MethodMachine.accept_mark hl h) rfl rfl, Or.inr ⟨_, rfl⟩⟩

/-- What the machine makes of a token behind the type that does not belong to it. -/
theorem accept_typed {r : TypeRef} {modifiers : List String}
    (hl : o.language.memberOrder = .typeFirst) (hm : MethodTyped m modifiers r typeParams)
    (hmark : t.value.isOperator "?" = false) (hdots : t.value.isOperator "..." = false) :
    ∃ line, acceptTypeFirst o m t = MethodMachine.acceptAfterType o
      { modifiers, typeParams, returnType? := some r, line } t := by
  rcases hm with ⟨line, rfl⟩ | ⟨line, rfl⟩
  · exact ⟨line, MethodMachine.accept_found hl hmark hdots⟩
  · exact ⟨line, MethodMachine.accept_name _ _ _⟩

/-- An identifier behind the type names the method. -/
theorem method_name {r s : TypeRef} {modifiers : List String}
    (hl : o.language.memberOrder = .typeFirst) (hm : MethodTyped m modifiers r typeParams)
    (hkind : t.kind = .identifier) (hparse : TypeRef.parse t.text = .ok s) :
    ∃ line, respond o t (method m) =
      ⟨method (.afterName {
        modifiers, typeParams := typeParams ++ s.params, returnType? := some r,
        name := Text.lastPart s.name, line }), [], true⟩ := by
  have hop : ∀ op, t.value.isOperator op = false :=
    Token.isOperator_eq_false (by show t.kind ≠ _; rw [hkind]; decide)
  obtain ⟨line, haccept⟩ := accept_typed hl hm (hop "?") (hop "...")
  rw [MethodMachine.acceptAfterType, if_pos (beq_iff_eq.2 hkind), MethodMachine.acceptName,
    hparse] at haccept
  exact ⟨_, method_takes hl (by rw [hkind]; decide) haccept rfl rfl⟩

/-- The parameters of a method. -/
theorem method_params {d : MethodDraft} {ps : List (Parameter TypeRef)}
    (hl : o.language.memberOrder = .typeFirst) (hblock : t.value.isBlock '(' = true)
    (hps : (Parameter.ofParens o.language t).1 = some ps) :
    ∃ line, respond o t (method (.afterName d)) =
      ⟨method (.afterParams { d with params := ps, line }), [], true⟩ := by
  have ht : t.kind ≠ .comment := by
    show t.value.kind ≠ _
    rw [Token.kind_of_isBlock hblock]
    decide
  have haccept : acceptTypeFirst o (.afterName d) t =
      ⟨.afterParams { d with params := ps }, true, (Parameter.ofParens o.language t).2⟩ := by
    simp only [acceptTypeFirst, hblock, if_true, MethodMachine.acceptParams]
    rw [show Parameter.ofParens o.language t = (some ps, (Parameter.ofParens o.language t).2) from
      Prod.ext hps rfl]
  exact ⟨_, method_takes hl ht haccept rfl rfl⟩

/-- Whether a type names the declaration `o`, as it does in front of the parameters of a
constructor. -/
def namesOwner (o : Owner) (r : TypeRef) : Bool := !r.isGeneric && some r.name == o.name?

/-- What the machine makes of a block in parentheses behind the type. -/
theorem accept_parens {r : TypeRef} {modifiers : List String}
    (hl : o.language.memberOrder = .typeFirst) (hm : MethodTyped m modifiers r)
    (hblock : t.value.isBlock '(' = true) :
    ∃ line, acceptTypeFirst o m t =
      if namesOwner o r then MethodMachine.acceptParams o.language
        { modifiers, returnType? := some r, name := r.name, line } t
      else .leave .failed := by
  have hkind := Token.kind_of_isBlock hblock
  have hop : ∀ op, t.value.isOperator op = false :=
    Token.isOperator_eq_false (by rw [hkind]; decide)
  obtain ⟨line, haccept⟩ := accept_typed hl hm (hop "?") (hop "...")
  refine ⟨line, ?_⟩
  have hword : (t.kind == .identifier) = false := by
    rw [TokenTree.kind, hkind]
    rfl
  rw [haccept, MethodMachine.acceptAfterType, hword, if_neg Bool.false_ne_true]
  simp only [MethodMachine.isConstructor, hblock, Bool.true_and, Option.any_some]
  unfold namesOwner
  by_cases howner : (!r.isGeneric && some r.name == o.name?) = true
  · have hname : o.name? = some r.name := (beq_iff_eq.1 (Bool.and_eq_true_iff.1 howner).2).symm
    rw [if_pos howner, if_pos howner, hname]
    rfl
  · rw [if_neg howner, if_neg howner]

/-- The parameters of a constructor. -/
theorem method_parens {r : TypeRef} {modifiers : List String}
    (hl : o.language.memberOrder = .typeFirst) (hm : MethodTyped m modifiers r)
    (hblock : t.value.isBlock '(' = true) :
    ∃ line taken, respond o t (method m) =
      if namesOwner o r then
        match (Parameter.ofParens o.language t).1 with
        | some params => ⟨method (.afterParams {
            modifiers, returnType? := some r, name := r.name, params, line }), [], taken⟩
        | none => ⟨method idle, [], taken⟩
      else respond o t (method idle) := by
  have ht : t.kind ≠ .comment := by
    show t.value.kind ≠ _
    rw [Token.kind_of_isBlock hblock]
    decide
  obtain ⟨line, haccept⟩ := accept_parens hl hm hblock
  by_cases howner : namesOwner o r = true
  · rw [if_pos howner, MethodMachine.acceptParams] at haccept
    cases hps : Parameter.ofParens o.language t with
    | mk ps? malformed =>
        rw [hps] at haccept
        cases ps? with
        | some ps =>
            refine ⟨t.span.last.line, true, ?_⟩
            rw [if_pos howner]
            exact method_takes hl ht haccept rfl rfl
        | none =>
            refine ⟨0, true, ?_⟩
            rw [if_pos howner]
            exact method_dies hl ht haccept
  · rw [if_neg howner] at haccept
    refine ⟨0, true, ?_⟩
    rw [if_neg howner]
    refine method_retries hl ht haccept ?_
    rcases hm with ⟨line, rfl⟩ | ⟨line, rfl⟩ <;> rfl

/-- The first token of a clause. -/
theorem method_clause {d : MethodDraft} (hl : o.language.memberOrder = .typeFirst)
    (ht : t.kind ≠ .comment) (h : MethodMachine.startsClause t.value = true)
    (hbody : MethodMachine.isBody t.value = false) (harrow : t.value.isOperator "=>" = false) :
    ∃ line, respond o t (method (.afterParams d)) =
      ⟨method (.clause { d with line }), [], true⟩ := by
  have haccept : acceptTypeFirst o (.afterParams d) t = .take (.clause d) := by
    simp [acceptTypeFirst, hbody, harrow, h]
  exact ⟨_, method_takes hl ht haccept rfl rfl⟩

/-- A further token of a clause. -/
theorem method_within {d : MethodDraft} (hl : o.language.memberOrder = .typeFirst)
    (ht : t.kind ≠ .comment) (hbody : MethodMachine.isBody t.value = false) :
    ∃ line, respond o t (method (.clause d)) = ⟨method (.clause { d with line }), [], true⟩ := by
  have haccept : acceptTypeFirst o (.clause d) t = .take (.clause d) := by
    simp [acceptTypeFirst, hbody]
  exact ⟨_, method_takes hl ht haccept rfl rfl⟩

theorem kind_of_isBody (h : MethodMachine.isBody t.value = true) :
    t.kind = .separator ∨ t.kind = .block := by
  rcases Bool.or_eq_true_iff.1 h with h | h
  · exact Or.inl (Token.kind_of_isSeparator h)
  · exact Or.inr (Token.kind_of_isBlock h)

/-- The last token of a method. -/
theorem method_stop {d : MethodDraft} (hl : o.language.memberOrder = .typeFirst)
    (hbody : MethodMachine.isBody t.value = true) (hm : m = .afterParams d ∨ m = .clause d) :
    ∃ line, respond o t (method m) =
      ⟨method idle, [method (.complete { d with line })], true⟩ := by
  have ht : t.kind ≠ .comment := by
    rcases kind_of_isBody hbody with h | h <;> rw [h] <;> decide
  have haccept : acceptTypeFirst o m t = .take (.complete d) := by
    rcases hm with rfl | rfl <;> simp [acceptTypeFirst, hbody]
  exact ⟨_, method_ends hl ht haccept⟩

/-! ## Tokens between methods -/

/-- Behind the type, a token that is no identifier and starts no parameters is read as if nothing
had been read. -/
theorem method_typed_retries {r : TypeRef} {modifiers : List String}
    (hl : o.language.memberOrder = .typeFirst) (hm : MethodTyped m modifiers r)
    (ht : t.kind ≠ .comment) (hword : t.kind ≠ .identifier)
    (hmark : t.value.isOperator "?" = false) (hdots : t.value.isOperator "..." = false)
    (hparen : t.value.isBlock '(' = false) :
    respond o t (method m) = respond o t (method idle) := by
  obtain ⟨line, haccept⟩ := accept_typed hl hm hmark hdots
  rw [MethodMachine.acceptAfterType, if_neg (by simpa using hword), MethodMachine.isConstructor,
    hparen, Bool.false_and, if_neg Bool.false_ne_true] at haccept
  refine method_retries hl ht haccept ?_
  rcases hm with ⟨line, rfl⟩ | ⟨line, rfl⟩ <;> rfl

/-- So is a token behind the name. -/
theorem method_named_retries {d : MethodDraft} (hl : o.language.memberOrder = .typeFirst)
    (ht : t.kind ≠ .comment) (hparen : t.value.isBlock '(' = false) :
    respond o t (method (.afterName d)) = respond o t (method idle) := by
  have haccept : acceptTypeFirst o (.afterName d) t = .leave .failed := by
    simp [acceptTypeFirst, hparen]
  exact method_retries hl ht haccept rfl

/-- So is a token behind the parameters that starts no clause and is no body. -/
theorem method_params_retries {d : MethodDraft} (hl : o.language.memberOrder = .typeFirst)
    (ht : t.kind ≠ .comment) (h : MethodMachine.startsClause t.value = false)
    (hbody : MethodMachine.isBody t.value = false) (harrow : t.value.isOperator "=>" = false) :
    respond o t (method (.afterParams d)) = respond o t (method idle) := by
  have haccept : acceptTypeFirst o (.afterParams d) t = .leave .failed := by
    simp [acceptTypeFirst, hbody, harrow, h]
  exact method_retries hl ht haccept rfl

/-- A machine that has not read the parameters of a method gives up at a token that is neither a
word nor an operator, and no block in parentheses behind the type or the name. -/
theorem method_calm_leaves (hl : o.language.memberOrder = .typeFirst) (hm : m.rank ≤ 2)
    (hkind : t.kind = .separator ∨ t.kind = .block) (hat : t.value.isSeparator "@" = false)
    (hbracket : t.value.isBlock '[' = false)
    (hparen : m.rank ≠ 0 → t.value.isBlock '(' = false) :
    respond o t (method m) = ⟨method idle, [], false⟩ := by
  have ht : t.kind ≠ .comment := by rcases hkind with h | h <;> rw [h] <;> decide
  have hstep : AnnotationSkip.step o.language none t.value = (none, false) := by
    unfold AnnotationSkip.step
    cases o.language.annotationStyle <;> simp [hat, hbracket]
  obtain ⟨hmark, hstarts⟩ := Language.not_head (t := t.value) hl hkind .methodModifier true
  have hword : t.kind ≠ .identifier := by rcases hkind with h | h <;> rw [h] <;> decide
  have hoperator : t.kind ≠ .operator := by rcases hkind with h | h <;> rw [h] <;> decide
  have hangle : t.value.isOperator "<" = false := Token.isOperator_eq_false hoperator "<"
  have hhead : ∀ started modifiers, acceptTypeFirst o (.head started none modifiers []) t =
      MethodMachine.leaveHead started none [] := by
    intro started modifiers
    simp only [acceptTypeFirst, hstep, hmark, hangle, hstarts, Bool.false_and, Bool.false_eq_true,
      if_false]
  have hidle : respond o t (method idle) = ⟨method idle, [], false⟩ :=
    method_leaves hl ht (hhead false []) rfl rfl
  cases m with
  | head started skip modifiers typeParams =>
      cases skip with
      | none =>
          cases typeParams with
          | nil =>
              cases started with
              | false => exact method_leaves hl ht (hhead false modifiers) rfl rfl
              | true => exact (method_retries hl ht (hhead true modifiers) rfl).trans hidle
          | cons => exact absurd hm (by decide : ¬ 3 ≤ 2)
      | some skip => exact absurd hm (by decide : ¬ 3 ≤ 2)
  | type d machine =>
      cases machine with
      | found r =>
          have hparen := hparen (by decide : 1 ≠ 0)
          have haccept := MethodMachine.accept_found (d := d) (r := r) hl
            (Token.isOperator_eq_false hoperator "?") (Token.isOperator_eq_false hoperator "...")
          rw [MethodMachine.acceptAfterType, if_neg (by simpa using hword),
            MethodMachine.isConstructor, hparen, Bool.false_and, if_neg Bool.false_ne_true]
            at haccept
          exact (method_retries hl ht haccept rfl).trans hidle
      | _ => exact absurd hm (by decide : ¬ 3 ≤ 2)
  | name d =>
      have hparen := hparen (by decide : 1 ≠ 0)
      have haccept := MethodMachine.accept_name o d t
      rw [MethodMachine.acceptAfterType, if_neg (by simpa using hword),
        MethodMachine.isConstructor, hparen, Bool.false_and, if_neg Bool.false_ne_true] at haccept
      exact (method_retries hl ht haccept rfl).trans hidle
  | afterName d =>
      exact (method_named_retries hl ht (hparen (by decide : 2 ≠ 0))).trans hidle
  | _ => exact absurd hm (by decide : ¬ 3 ≤ 2)

/-- In front of a token that starts neither an annotation nor its arguments, the name of an
annotation has been read or nothing has. -/
theorem method_arguments (hl : o.language.memberOrder = .typeFirst)
    (hstyle : o.language.annotationStyle = .atSign) (ht : t.kind ≠ .comment)
    (hseparator : t.kind ≠ .separator) (hblock : t.kind ≠ .block) :
    respond o t (method (.head false (some .arguments) [] [])) =
      respond o t (method idle) := by
  have hstep : AnnotationSkip.step o.language (some .arguments) t.value = (none, false) := by
    have hparen : t.value.isBlock '(' = false := Token.isBlock_eq_false hblock '('
    simp [AnnotationSkip.step, hstyle, hparen]
  have haccept : acceptTypeFirst o (.head false (some .arguments) [] []) t =
      acceptTypeFirst o idle t := by
    simp only [idle, acceptTypeFirst, hstep, FieldMachine.step_plain hseparator hblock]
  have hsame : MethodMachine.accept o (.head false (some .arguments) [] []) t =
      MethodMachine.accept o idle t := by
    have hcomment : (t.kind == .comment) = false := beq_eq_false_iff_ne.2 ht
    simp only [MethodMachine.accept, hcomment, hl, haccept, Bool.false_eq_true, if_false]
  exact respond_congr (by rw [accept, accept, hsame]) rfl rfl (restart_method (p := 0) ht).1

end Extractor

end Outline
