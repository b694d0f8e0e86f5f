import Outline.Proofs.Member.BehindMarks

/-!
# Tokens that are reported

Where the name comes first, a machine reports an identifier that spells no type, or a block of
parameters in which one stands.  Another machine can still use that token, but only where it does
not ask what the token spells.

* `FieldMachine.reported_accept`, `MethodMachine.reported_accept` — where the machines report a
  token.
* `FieldMachine.lax_of_used`, `MethodMachine.marked_of_used` — where they use one that spells no
  type.
* `Members.standsIn_of_reports` — which tokens the reports of a body are about.
* `Members.lax_of_reported` — which members use a token that is reported, and where.
-/

namespace Outline

/-- The token is an identifier that spells no type. -/
def Token.IsMalformed (t : Token) : Prop :=
  t.kind = .identifier ∧ ∃ e, TypeRef.parse t.text = .error e

/-- The malformed type is that of the token. -/
structure MalformedType.IsOf (x : MalformedType) (t : Token) : Prop where
  /-- The token is an identifier. -/
  kind : t.kind = .identifier
  /-- The malformed type has its text. -/
  text : x.text = t.text
  /-- The error is that of the text. -/
  parse : TypeRef.parse t.text = .error x.error

theorem MalformedType.IsOf.isMalformed {x : MalformedType} {t : Token} (h : x.IsOf t) :
    t.IsMalformed :=
  ⟨h.kind, _, h.parse⟩

/-- Whether a field uses a token whatever it spells: in an annotation, as its name, in a part of
its type that is passed over, or in its initializer. -/
def FieldStage.isLax : FieldStage → Bool
  | head .. | type (.union _) | type .functionArrow | initializer => true
  | _ => false

/-! ## Types -/

namespace TypeMachine

variable {l : Language} {t : Token} {allowVoid : Bool} {x : MalformedType}

/-- The words that a type is found with whatever a token spells. -/
theorem parse_fixed {w : String} (h : w ∈ ["object", "string", "number", "void", "Function"]) :
    ∃ type, TypeRef.parse w = .ok type := by
  have hword : ∀ w ∈ ["object", "string", "number", "void", "Function"],
      (CSharp.identifiers 0).scanName w.toList = some w.toList.length := by decide +kernel
  exact ⟨_, (CSharp.tame_identifiers 0).parse_word (hword w h)
    (IdentifierStyle.unmarked_of_starts rfl _)⟩

/-- What starts a type and spells none is an identifier. -/
theorem isOf_of_starts (h : starts l allowVoid t = true)
    (hx : x ∈ (find (startText t)).malformed) : x.IsOf t := by
  have hok : ∀ {text : String}, (∃ type, TypeRef.parse text = .ok type) →
      x ∉ (find text).malformed := by
    intro text htext
    rw [malformed_find htext]
    exact List.not_mem_nil
  unfold starts at h
  unfold startText at hx
  split at h
  · rename_i hkind
    rw [hkind] at hx
    cases hparse : TypeRef.parse t.text with
    | ok type => exact absurd hx (hok ⟨type, hparse⟩)
    | error e =>
        rw [find, hparse] at hx
        obtain rfl := List.mem_singleton.1 hx
        exact ⟨hkind, rfl, hparse⟩
  · rename_i hkind
    rw [hkind] at hx
    refine absurd hx (hok ?_)
    rcases Bool.or_eq_true_iff.1 h with h | h
    · exact Language.parse_of_has h
    · rw [beq_iff_eq.1 (Bool.and_eq_true_iff.1 h).2]
      exact parse_fixed (by decide)
  · rename_i hkind
    rw [hkind] at hx
    exact absurd hx (hok (parse_fixed (w := "object") (by decide)))
  · rename_i hkind
    rw [hkind] at hx
    exact absurd hx (hok (parse_fixed (w := "string") (by decide)))
  · rename_i hkind
    rw [hkind] at hx
    exact absurd hx (hok (parse_fixed (w := "number") (by decide)))
  · cases h

/-- Only the first token of a type is noted, and it is an identifier. -/
theorem reported_accept {m : TypeMachine} (h : x ∈ (m.accept l allowVoid t).malformed) :
    m = idle ∧ x.IsOf t := by
  cases m with
  | idle =>
      rw [accept] at h
      split at h
      · cases h
      · rename_i hstarts
        split at h
        · cases h
        · exact ⟨rfl, isOf_of_starts (by simpa using hstarts) h⟩
  | functionArrow =>
      rw [accept] at h
      split at h
      · rw [malformed_find (parse_fixed (by decide))] at h
        cases h
      · cases h
  | found type => rw [accept] at h; split_ifs at h <;> cases h
  | union type => rw [accept] at h; split_ifs at h <;> cases h
  | functionParams => rw [accept] at h; split_ifs at h <;> cases h
  | complete type => cases h
  | failed => cases h

/-- What is noted where a type is read is that of one of the tokens. -/
theorem exists_of_readFrom {ts : List TokenTree} {m : TypeMachine}
    (h : x ∈ (readFrom l false m ts).2.2) : ∃ u ∈ ts, x.IsOf u.value := by
  induction ts generalizing m with
  | nil => cases h
  | cons t ts ih =>
      have hstep : x ∈ (m.accept l false t.value).malformed → ∃ u ∈ t :: ts, x.IsOf u.value :=
        fun h => ⟨t, List.mem_cons_self, (reported_accept h).2⟩
      rw [readFrom] at h
      dsimp only at h
      split at h
      · exact hstep h
      · split at h
        · exact hstep h
        · rcases List.mem_append.1 h with h | h
          · exact hstep h
          · obtain ⟨u, hu, hof⟩ := ih h
            exact ⟨u, List.mem_cons_of_mem _ hu, hof⟩

theorem exists_of_read {ts : List TokenTree} (h : x ∈ (read l ts).2) : ∃ u ∈ ts, x.IsOf u.value :=
  exists_of_readFrom (m := idle) h

/-- A type passes over an identifier that spells none only behind a mark other than a colon. -/
theorem passes_of_used {m : TypeMachine} (ht : t.IsMalformed)
    (htaken : (m.accept l allowVoid t).taken = true)
    (hgoing : (m.accept l allowVoid t).state ≠ failed) :
    (∃ r, m = union r) ∨ m = functionArrow := by
  obtain ⟨hkind, e, hparse⟩ := ht
  have hoperator : ∀ op, t.isOperator op = false :=
    Token.isOperator_eq_false (by rw [hkind]; decide)
  cases m with
  | idle =>
      rw [accept] at hgoing htaken
      split at hgoing
      · exact absurd rfl hgoing
      · rw [if_neg (by simp [Token.isBlock_eq_false (t := t) (by rw [hkind]; decide)])] at hgoing
        rw [startText, hkind, find] at hgoing
        dsimp only at hgoing
        rw [hparse] at hgoing
        exact absurd rfl hgoing
  | functionArrow => exact .inr rfl
  | found type =>
      rw [accept] at htaken
      simp only [hoperator, Bool.and_false, Bool.false_eq_true, if_false] at htaken
      cases htaken
  | union type => exact .inl ⟨type, rfl⟩
  | functionParams =>
      rw [accept] at htaken
      simp only [hoperator, Bool.false_eq_true, if_false] at htaken
      cases htaken
  | complete type => cases htaken
  | failed => cases htaken

end TypeMachine

/-! ## Parameters -/

namespace Parameter

variable {l : Language} {x : MalformedType}

theorem mem_of_mem_takeOperator {op : String} {ts : List TokenTree} {u : TokenTree}
    (hu : u ∈ (takeOperator op ts).2) : u ∈ ts := by
  unfold takeOperator at hu
  split at hu
  · split at hu
    · exact List.mem_cons_of_mem _ hu
    · exact hu
  · exact hu

theorem exists_of_readTypeFirst {place : Nat} {group : List TokenTree}
    (h : x ∈ (readTypeFirst l place group).2) : ∃ u ∈ group, x.IsOf u.value := by
  have hread : x ∈ (TypeMachine.read l (lead l place group).rest).2 := by
    unfold readTypeFirst at h
    dsimp only at h
    split at h
    · rename_i heq
      rw [heq]
      split at h <;> exact h
    · rename_i heq
      rw [heq]
      exact h
  obtain ⟨u, hu, hof⟩ := TypeMachine.exists_of_read hread
  exact ⟨u, mem_of_mem_lead hu, hof⟩

theorem exists_of_readAnnotatedType {ts : List TokenTree} (h : x ∈ (readAnnotatedType l ts).2) :
    ∃ u ∈ ts, x.IsOf u.value := by
  unfold readAnnotatedType at h
  split at h
  · split at h
    · obtain ⟨u, hu, hof⟩ := TypeMachine.exists_of_read h
      exact ⟨u, List.mem_cons_of_mem _ hu, hof⟩
    · cases h
  · cases h

theorem exists_of_readNameFirst {place : Nat} {group : List TokenTree}
    (h : x ∈ (readNameFirst l place group).2) : ∃ u ∈ group, x.IsOf u.value := by
  unfold readNameFirst at h
  dsimp only at h
  split at h
  · cases h
  · rename_i name ts hname
    have hread : x ∈ (readAnnotatedType l (takeOperator "?" ts).2).2 := by
      split at h
      · cases h
      · split at h
        · rename_i heq
          rw [heq]
          exact h
        · rename_i heq
          rw [heq]
          exact h
    obtain ⟨u, hu, hof⟩ := exists_of_readAnnotatedType hread
    have hrest : u ∈ (takeOperator "..." (lead l place group).rest).2 :=
      hname ▸ List.mem_cons_of_mem _ (mem_of_mem_takeOperator hu)
    exact ⟨u, mem_of_mem_lead (mem_of_mem_takeOperator hrest), hof⟩

theorem exists_of_read {place : Nat} {group : List TokenTree} (h : x ∈ (read l place group).2) :
    ∃ u ∈ group, x.IsOf u.value := by
  rw [read] at h
  split at h
  · exact exists_of_readTypeFirst h
  · exact exists_of_readNameFirst h

theorem exists_of_readGroups {groups : List (List TokenTree)} {place : Nat}
    (h : x ∈ (readGroups l place groups).2) : ∃ group ∈ groups, ∃ u ∈ group, x.IsOf u.value := by
  induction groups generalizing place with
  | nil => cases h
  | cons group groups ih =>
      have hread : x ∈ (read l place group).2 →
          ∃ g ∈ group :: groups, ∃ u ∈ g, x.IsOf u.value :=
        fun h => ⟨group, List.mem_cons_self, exists_of_read h⟩
      rw [readGroups] at h
      split at h
      · rename_i heq
        rw [heq] at hread
        exact hread h
      · rename_i heq
        rw [heq] at hread
        rcases List.mem_append.1 h with h | h
        · exact hread h
        · obtain ⟨g, hg, hof⟩ := ih h
          exact ⟨g, List.mem_cons_of_mem _ hg, hof⟩

/-- What is noted inside a list of parameters is that of a token inside it. -/
theorem exists_of_ofParens {block : TokenTree} (h : x ∈ (ofParens l block).2) :
    ∃ u ∈ block.children, x.IsOf u.value := by
  obtain ⟨group, hgroup, u, hu, hof⟩ := exists_of_readGroups h
  exact ⟨u, TokenTree.mem_of_mem_commaGroups hgroup hu, hof⟩

end Parameter

/-- The name of an annotation is awaited behind its mark. -/
theorem AnnotationSkip.mark_of_step {l : Language} (hl : l.annotationStyle = .atSign)
    {skip skip' : Option AnnotationSkip} {t : Token} (ht : t.kind = .identifier)
    (h : step l skip t = (skip', true)) : mark? skip = some (.separator, "@") := by
  match skip with
  | none =>
      simp only [step, hl, Token.isSeparator_eq_false (t := t) (by rw [ht]; decide)] at h
      cases h
  | some name => rfl
  | some arguments =>
      simp only [step, hl, Token.isBlock_eq_false (t := t) (by rw [ht]; decide)] at h
      cases h

/-! ## Fields -/

namespace FieldMachine

variable {o : Owner} {l : Language} {t : Token} {m : FieldMachine} {x : MalformedType}

/-- Where the name comes first, a step is that of `acceptNameFirst`, apart from the line. -/
theorem accept_nameFirst (hl : o.language.memberOrder = .nameFirst) (ht : t.kind ≠ .comment)
    (m : FieldMachine) :
    (m.accept o t).malformed = (acceptNameFirst o.language m t).malformed ∧
      (m.accept o t).taken = (acceptNameFirst o.language m t).taken ∧
      (m.accept o t).state.isFailed = (acceptNameFirst o.language m t).state.isFailed := by
  refine accept_of_parts (P := fun s => s.malformed = _ ∧ s.taken = _ ∧ s.state.isFailed = _)
    (fun h => absurd h ht) (fun hfirst => by rw [hl] at hfirst; cases hfirst)
    (fun _ _ => ⟨rfl, rfl, rfl⟩) ?_
  rintro - s line - ⟨hmalformed, htaken, hfailed⟩
  refine ⟨hmalformed, htaken, Eq.trans ?_ hfailed⟩
  show (mapDraft _ s.state).isFailed = _
  cases s.state <;> rfl

theorem malformed_of_comment (h : t.kind = .comment) : (m.accept o t).malformed = [] := by
  rw [accept, if_pos (beq_iff_eq.2 h)]
  rfl

section Types

variable {d : FieldDraft} {machine : TypeMachine} {next : FieldDraft → FieldMachine}
  {accept : FieldDraft → Step FieldMachine}

theorem reported_acceptType (haccept : ∀ d, (accept d).malformed = [])
    (h : x ∈ (acceptType l d machine t next accept).malformed) :
    machine = .idle ∧ x.IsOf t := by
  rw [(ofType_acceptType l d machine t next accept).malformed_eq fun _ => haccept _] at h
  exact TypeMachine.reported_accept h

theorem passes_of_acceptType (haccept : ∀ d, (accept d).taken = false) (ht : t.IsMalformed)
    (htaken : (acceptType l d machine t next accept).taken = true)
    (hgoing : (acceptType l d machine t next accept).state.isFailed = false) :
    (∃ r, machine = .union r) ∨ machine = .functionArrow := by
  obtain ⟨hused, hopen⟩ := (ofType_acceptType l d machine t next accept).used rfl
    (fun _ => haccept _) htaken hgoing
  exact TypeMachine.passes_of_used ht hused fun h => by rw [h] at hopen; cases hopen

end Types

/-- A field reports the first token of its type. -/
theorem reported_accept (hl : o.language.memberOrder = .nameFirst)
    (h : x ∈ (m.accept o t).malformed) : (∃ d, m = type d .idle) ∧ x.IsOf t := by
  by_cases ht : t.kind = .comment
  · rw [malformed_of_comment ht] at h
    cases h
  have htail : ∀ d, (acceptTail d t).malformed = [] := by
    intro d
    rw [acceptTail]
    split_ifs <;> rfl
  rw [(accept_nameFirst hl ht m).1] at h
  cases m with
  | head skip modifiers =>
      rw [acceptNameFirst, acceptHead] at h
      split at h
      · cases h
      · split_ifs at h <;> cases h
  | afterName d =>
      rw [acceptNameFirst] at h
      split_ifs at h
      · cases h
      · cases h
      · cases h
      · rw [htail] at h
        cases h
  | afterMark d =>
      rw [acceptNameFirst] at h
      split_ifs at h
      · cases h
      · rw [htail] at h
        cases h
  | type d machine =>
      obtain ⟨rfl, hof⟩ := reported_acceptType htail h
      exact ⟨⟨d, rfl⟩, hof⟩
  | afterType d =>
      rw [acceptNameFirst, htail] at h
      cases h
  | initializer d => rw [acceptNameFirst] at h; split_ifs at h <;> cases h
  | name d => cases h
  | complete d => cases h
  | failed => cases h

theorem not_taken_acceptTail (hoperator : t.kind ≠ .operator) (hseparator : t.kind ≠ .separator)
    (d : FieldDraft) : (acceptTail d t).taken = false := by
  have hend : isEnd t = false := by simp [isEnd, Token.isSeparator_eq_false hseparator]
  rw [acceptTail, Token.isOperator_eq_false hoperator, hend]
  simp only [Bool.false_eq_true, if_false]
  split <;> rfl

/-- A field uses an identifier that spells no type only where it does not ask what it spells. -/
theorem lax_of_used (hl : o.language.memberOrder = .nameFirst) (ht : t.IsMalformed)
    (htaken : (m.accept o t).taken = true) (hgoing : (m.accept o t).state.isFailed = false) :
    m.stage.isLax = true := by
  have hkind := ht.1
  have hoperator : ∀ op, t.isOperator op = false :=
    Token.isOperator_eq_false (by rw [hkind]; decide)
  have htail := not_taken_acceptTail (t := t) (by rw [hkind]; decide) (by rw [hkind]; decide)
  obtain ⟨-, htaken', hfailed'⟩ := accept_nameFirst hl (by rw [hkind]; decide) m
  rw [htaken'] at htaken
  rw [hfailed'] at hgoing
  cases m with
  | head skip modifiers => rfl
  | initializer d => rfl
  | afterName d =>
      rw [acceptNameFirst] at htaken
      simp [hoperator, htail] at htaken
  | afterMark d =>
      rw [acceptNameFirst] at htaken
      simp [hoperator, htail] at htaken
  | type d machine =>
      rcases passes_of_acceptType htail ht htaken hgoing with ⟨r, rfl⟩ | rfl <;> rfl
  | afterType d =>
      rw [acceptNameFirst, htail] at htaken
      cases htaken
  | name d => cases htaken
  | complete d => cases htaken
  | failed => cases htaken

/-- A field uses a block in parentheses in such a place or as the parameters of a function. -/
theorem lax_of_parens (hl : o.language.memberOrder = .nameFirst) (ht : t.isBlock '(' = true)
    (htaken : (m.accept o t).taken = true) : m.stage.isLax = true ∨ ∃ d, m = type d .idle := by
  have hkind := Token.kind_of_isBlock ht
  have hoperator : ∀ op, t.isOperator op = false :=
    Token.isOperator_eq_false (by rw [hkind]; decide)
  have htail := not_taken_acceptTail (t := t) (by rw [hkind]; decide) (by rw [hkind]; decide)
  rw [(accept_nameFirst hl (by rw [hkind]; decide) m).2.1] at htaken
  cases m with
  | head skip modifiers => exact .inl rfl
  | initializer d => exact .inl rfl
  | afterName d =>
      rw [acceptNameFirst] at htaken
      simp [hoperator, htail] at htaken
  | afterMark d =>
      rw [acceptNameFirst] at htaken
      simp [hoperator, htail] at htaken
  | type d machine =>
      rw [acceptNameFirst, acceptType] at htaken
      cases machine with
      | idle => exact .inr ⟨d, rfl⟩
      | union r => exact .inl rfl
      | functionArrow => exact .inl rfl
      | found r =>
          simp only [TypeMachine.accept, hoperator, Bool.and_false, Bool.false_eq_true, if_false,
            Step.leave, Step.after, htail] at htaken
      | functionParams =>
          simp only [TypeMachine.accept, hoperator, Bool.false_eq_true, if_false,
            Step.leave] at htaken
      | complete r =>
          simp only [TypeMachine.accept, Step.leave, Bool.false_eq_true, if_false, Step.after,
            htail] at htaken
      | failed => cases htaken
  | afterType d =>
      rw [acceptNameFirst, htail] at htaken
      cases htaken
  | name d => cases htaken
  | complete d => cases htaken
  | failed => cases htaken

end FieldMachine

/-! ## Methods -/

namespace MethodMachine

variable {o : Owner} {t : TokenTree} {m : MethodMachine} {x : MalformedType}

/-- Where the name comes first, a step is that of `acceptNameFirst`, apart from the line. -/
theorem accept_nameFirst (hl : o.language.memberOrder = .nameFirst) (ht : t.kind ≠ .comment)
    (m : MethodMachine) :
    (m.accept o t).malformed = (acceptNameFirst o m t).malformed ∧
      (m.accept o t).taken = (acceptNameFirst o m t).taken ∧
      (m.accept o t).state.isFailed = (acceptNameFirst o m t).state.isFailed := by
  refine accept_of_parts (P := fun s => s.malformed = _ ∧ s.taken = _ ∧ s.state.isFailed = _)
    (fun h => absurd h ht) (fun hfirst => by rw [hl] at hfirst; cases hfirst)
    (fun _ _ => ⟨rfl, rfl, rfl⟩) ?_
  rintro - s line - ⟨hmalformed, htaken, hfailed⟩
  refine ⟨hmalformed, htaken, Eq.trans ?_ hfailed⟩
  show (mapDraft _ s.state).isFailed = _
  cases s.state <;> rfl

theorem malformed_of_comment (h : t.kind = .comment) : (m.accept o t).malformed = [] := by
  rw [accept, if_pos (beq_iff_eq.2 h)]
  rfl

section Types

variable {l : Language} {u : Token} {d : MethodDraft} {machine : TypeMachine}
  {within : MethodDraft → TypeMachine → MethodMachine} {next : MethodDraft → MethodMachine}
  {accept : MethodDraft → Step MethodMachine}

theorem reported_acceptType (haccept : ∀ d, (accept d).malformed = [])
    (h : x ∈ (acceptType l d machine u within next accept).malformed) :
    machine = .idle ∧ x.IsOf u := by
  rw [(ofType_acceptType l d machine u within next accept).malformed_eq fun _ => haccept _] at h
  exact TypeMachine.reported_accept h

theorem passes_of_acceptType (haccept : ∀ d, (accept d).taken = false) (hu : u.IsMalformed)
    (htaken : (acceptType l d machine u within next accept).taken = true)
    (hgoing : (acceptType l d machine u within next accept).state.isFailed = false) :
    (∃ r, machine = .union r) ∨ machine = .functionArrow := by
  obtain ⟨hused, hopen⟩ := (ofType_acceptType l d machine u within next accept).used rfl
    (fun _ => haccept _) htaken hgoing
  exact TypeMachine.passes_of_used hu hused fun h => by rw [h] at hopen; cases hopen

end Types

/-- A method uses an identifier that spells no type in its head only as the name of an
annotation. -/
theorem marked_of_head (hl : o.language.memberOrder = .nameFirst) (ht : t.value.IsMalformed)
    {started : Bool} {skip : Option AnnotationSkip} {modifiers : List String}
    {typeParams : List TypeRef}
    (hgoing : (acceptNameFirst o (head started skip modifiers typeParams) t).state.isFailed =
      false) : AnnotationSkip.mark? skip = some (.separator, "@") := by
  obtain ⟨hkind, e, hparse⟩ := ht
  rw [acceptNameFirst] at hgoing
  split at hgoing
  · rename_i skip' hstep
    exact AnnotationSkip.mark_of_step (Language.annotationStyle_of_nameFirst hl) hkind hstep
  · have hmodifier : o.language.marks .methodModifier t.value = false := by
      refine Bool.eq_false_iff.2 fun h => ?_
      rw [Language.kind_of_marks h] at hkind
      cases hkind
    have hname : (t.kind == .identifier) = true := beq_iff_eq.2 hkind
    rw [hmodifier, hname, acceptName] at hgoing
    simp [show TypeRef.parse t.text = .error e from hparse, isFailed] at hgoing

/-- A method reports its name, the first token of its type, or its parameters. -/
theorem reported_accept (hl : o.language.memberOrder = .nameFirst)
    (h : x ∈ (m.accept o t).malformed) :
    x.IsOf t.value ∧ (∀ d machine, m = returnType d machine → machine = .idle) ∨
      t.value.isBlock '(' = true ∧ x ∈ (Parameter.ofParens o.language t).2 ∧
        ∃ d, m = afterName d := by
  by_cases ht : t.kind = .comment
  · rw [malformed_of_comment ht] at h
    cases h
  have htail : ∀ d, (acceptTail d t.value).malformed = [] := by
    intro d
    rw [acceptTail]
    split_ifs <;> rfl
  rw [(accept_nameFirst hl ht m).1] at h
  cases m with
  | head started skip modifiers typeParams =>
      refine .inl ⟨?_, fun d machine hm => by cases hm⟩
      rw [acceptNameFirst_head] at h
      refine acceptHead_of_parts (P := fun s => x ∈ s.malformed → x.IsOf t.value)
        (fun _ _ h => by cases h) (fun _ _ _ h => by cases h) (fun skip' _ _ h => ?_) h
      split_ifs at h with hkind
      · unfold acceptName at h
        split at h
        · cases h
        · obtain rfl := List.mem_singleton.1 h
          exact ⟨beq_iff_eq.1 hkind, rfl, ‹_›⟩
      · cases h
      · cases h
  | afterName d =>
      rw [acceptNameFirst] at h
      split_ifs at h with _ hparens
      · cases h
      · refine .inr ⟨hparens, ?_, d, rfl⟩
        unfold acceptParams at h
        split at h
        · rename_i heq
          rw [heq]
          exact h
        · rename_i heq
          rw [heq]
          exact h
      · cases h
  | afterParams d =>
      rw [acceptNameFirst] at h
      split_ifs at h
      · cases h
      · rw [htail] at h
        cases h
  | returnType d machine =>
      refine .inl ?_
      obtain ⟨rfl, hof⟩ := reported_acceptType htail h
      exact ⟨hof, fun d' machine' hm => by cases hm; rfl⟩
  | afterReturn d =>
      rw [acceptNameFirst, htail] at h
      cases h
  | typeParamList modifiers list => cases h
  | type d machine => cases h
  | name d => cases h
  | clause d => cases h
  | expression d => cases h
  | complete d => cases h
  | failed => cases h

/-- A method uses an identifier that spells no type only behind a mark other than a colon. -/
theorem marked_of_used (hl : o.language.memberOrder = .nameFirst) (ht : t.value.IsMalformed)
    (htaken : (m.accept o t).taken = true) (hgoing : (m.accept o t).state.isFailed = false) :
    ∃ mark, (Extractor.method m).mark? = some mark ∧ mark ≠ (.operator, ":") := by
  have hkind := ht.1
  have hoperator : ∀ op, t.value.isOperator op = false :=
    Token.isOperator_eq_false (by rw [hkind]; decide)
  have hblock : ∀ c, t.value.isBlock c = false :=
    Token.isBlock_eq_false (by rw [hkind]; decide)
  have htail : ∀ d, (acceptTail d t.value).taken = false := by
    intro d
    have hbody : isBody t.value = false := by
      simp [isBody, hblock, Token.isSeparator_eq_false (t := t.value) (by rw [hkind]; decide)]
    rw [acceptTail, hbody]
    simp only [Bool.false_eq_true, if_false]
    split <;> rfl
  obtain ⟨-, htaken', hfailed'⟩ :=
    accept_nameFirst hl (m := m) (t := t) (by rw [show t.kind = _ from hkind]; decide)
  rw [htaken'] at htaken
  rw [hfailed'] at hgoing
  cases m with
  | head started skip modifiers typeParams =>
      exact ⟨_, marked_of_head hl ht hgoing, by decide⟩
  | afterName d =>
      rw [acceptNameFirst] at htaken
      simp [hoperator, hblock, Step.leave] at htaken
  | afterParams d =>
      rw [acceptNameFirst] at htaken
      simp [hoperator, htail] at htaken
  | returnType d machine =>
      rcases passes_of_acceptType htail ht htaken hgoing with ⟨r, rfl⟩ | rfl
      · exact ⟨_, rfl, by decide⟩
      · exact ⟨_, rfl, by decide⟩
  | afterReturn d =>
      rw [acceptNameFirst, htail] at htaken
      cases htaken
  | typeParamList modifiers list => cases htaken
  | type d machine => cases htaken
  | name d => cases htaken
  | clause d => cases htaken
  | expression d => cases htaken
  | complete d => cases htaken
  | failed => cases htaken

end MethodMachine

/-! ## Members -/

namespace Extractor

/-- What is reported is about the token at its place, or about one inside the parentheses there. -/
def Report.StandsIn (r : Report) (body : List TokenTree) : Prop :=
  ∃ t, body[r.place]? = some t ∧ (r.malformed.IsOf t.value ∨
    t.value.isBlock '(' = true ∧ ∃ u ∈ t.children, r.malformed.IsOf u.value)

/-- Whether a token is used whatever it spells: by a field, or by a constant. -/
def isLax : Extractor → Bool
  | field m => m.stage.isLax
  | enumMember _ => true
  | _ => false

theorem field_of_name {e : Extractor} {m : FieldMachine} (h : e.name = (field m).name) :
    ∃ m', e = field m' := by
  cases e <;> first | exact ⟨_, rfl⟩ | exact absurd h (by simp [name])

/-- Only the machines that read fields and methods report anything. -/
theorem isStrict_of_reported {o : Owner} {t : TokenTree} {e : Extractor} {x : MalformedType}
    (h : x ∈ (e.accept o t).malformed) : e.isStrict = true := by
  cases e with
  | field m => rfl
  | method m => rfl
  | enumMember m => simp [accept, EnumMemberMachine.malformed_accept] at h
  | annotations m => simp [accept, AnnotationMachine.malformed_accept] at h
  | comment found? => rw [accept] at h; split at h <;> cases h
  | imports m => simp [accept, ImportMachine.malformed_accept] at h

variable {o : Owner} {t : TokenTree} {t? : Option TokenTree} {m : FieldMachine}
  {m' : MethodMachine} {x : MalformedType}

/-- A method does not use a token that the machine for fields reports: both stand behind one token,
which is a colon for the machine that reports. -/
theorem not_used_of_reported (hl : o.language.memberOrder = .nameFirst)
    (hbehind : Behind t? (field m)) (hbehind' : Behind t? (method m'))
    (hx : x ∈ ((field m).accept o t).malformed) (htaken : ((method m').accept o t).taken = true) :
    ((method m').accept o t).state.isFailed = true := by
  by_contra hfailed
  have hgoing : (m'.accept o t).state.isFailed = false := Bool.eq_false_iff.2 hfailed
  obtain ⟨⟨d, rfl⟩, hof⟩ := FieldMachine.reported_accept hl hx
  obtain ⟨mark, hmark, hnot⟩ := MethodMachine.marked_of_used hl hof.isMalformed htaken hgoing
  obtain ⟨v, hv, hcolon⟩ := hbehind.mark _ rfl
  obtain ⟨v', hv', heq⟩ := hbehind'.mark _ hmark
  obtain rfl := Option.some.inj (hv.symm.trans hv')
  exact hnot (heq.symm.trans hcolon)

/-- A field uses a token that the machine for methods reports only whatever it spells: no type of a
field starts where the parameters of a method do. -/
theorem lax_of_method_reported (hl : o.language.memberOrder = .nameFirst)
    (hbehind : Behind t? (method m')) (hbehind' : Behind t? (field m))
    (hx : x ∈ ((method m').accept o t).malformed) (htaken : ((field m).accept o t).taken = true)
    (hgoing : ((field m).accept o t).state.isFailed = false) : (field m).isLax = true := by
  rcases MethodMachine.reported_accept hl hx with ⟨hof, -⟩ | ⟨hparens, -, d, rfl⟩
  · exact FieldMachine.lax_of_used hl hof.isMalformed htaken hgoing
  · refine (FieldMachine.lax_of_parens hl hparens htaken).resolve_right ?_
    rintro ⟨d', rfl⟩
    obtain ⟨v, hv, hcolon⟩ := hbehind'.mark _ rfl
    obtain ⟨v', hv', hnamed⟩ := hbehind.named d rfl
    obtain rfl := Option.some.inj (hv.symm.trans hv')
    obtain ⟨hkind, htext⟩ := Prod.mk.inj hcolon
    rcases hnamed with h | h | h
    · rw [h] at hkind
      cases hkind
    · rw [h] at hkind
      cases hkind
    · rw [show v.text = "?" from Token.text_of_isOperator h] at htext
      exact absurd htext (by decide)

end Extractor

namespace Members

open Extractor (Report Item Tracked Use)

variable {o : Owner} {kind : DeclarationKind} {body : List TokenTree}

/-- The machines that read fields and methods. -/
theorem eq_of_isStrict {l : Language} {e : Extractor} (he : e ∈ extractors l kind)
    (hstrict : e.isStrict = true) :
    l.hasFieldsAndMethods kind = true ∧ (e = .field .idle ∨ e = .method .idle) := by
  simp only [extractors, List.mem_append, List.mem_cons, List.not_mem_nil, or_false] at he
  rcases he with (he | he) | rfl | rfl
  · split at he
    · exact ⟨‹_›, by simpa using he⟩
    · cases he
  · split at he
    · rw [List.mem_singleton.1 he] at hstrict
      cases hstrict
    · cases he
  · cases hstrict
  · cases hstrict

/-- Where the name comes first, constants are read by themselves. -/
theorem isStrict_of_extractors {l : Language} (hl : l.memberOrder = .nameFirst)
    {e : Extractor} (hfields : l.hasFieldsAndMethods kind = true)
    (he : e ∈ extractors l kind) (hmember : e.readsMembers = true) : e.isStrict = true := by
  simp only [extractors, List.mem_append, List.mem_cons, List.not_mem_nil, or_false] at he
  rcases he with (he | he) | rfl | rfl
  · rw [if_pos hfields] at he
    rcases List.mem_cons.1 he with rfl | he
    · rfl
    · rw [List.mem_singleton.1 he]
      rfl
  · split at he
    · rename_i henum
      rw [beq_iff_eq.1 henum] at hfields
      cases l with
      | csharp => cases hl
      | java => cases hl
      | typescript => exact absurd hfields (by decide)
    · cases he
  · cases hmember
  · cases hmember

/-- The machine of a member, and the states in which it uses tokens. -/
theorem exists_of_item (hl : o.language.memberOrder = .nameFirst) {i : Item}
    (hi : i ∈ items o kind body) :
    ∃ e ∈ extractors o.language kind, i ∈ Tracked.itemsAlone o ⟨e, []⟩ body ∧
      e.readsMembers = true ∧
      ∀ u ∈ i.uses, Tracked.UsedIn (Tracked.Stands body e) o body u := by
  obtain ⟨e, he, hi, hmember⟩ := mem_items.1 hi
  refine ⟨e, he, hi, ?_, (Tracked.stands_alone hl he).1 i hi⟩
  rw [← hmember, Item.isMember_eq]
  exact (Extractor.readsMembers_of_name (Tracked.name_of_mem_itemsAlone hi)).symm

/-- An identifier that spells no type is used whatever it spells, or behind a mark. -/
theorem lax_of_malformed (hl : o.language.memberOrder = .nameFirst) {i : Item}
    (hi : i ∈ items o kind body) {u : Use} (hu : u ∈ i.uses) {t : TokenTree}
    (ht : body[u.place]? = some t) (hmalformed : t.value.IsMalformed) :
    (u.state.isLax = true ∨ ∃ mark, u.state.mark? = some mark ∧ mark ≠ (.operator, ":")) ∧
      ∀ mark, u.state.mark? = some mark →
        ∃ t, Extractor.tokenBefore? body u.place = some t ∧ (t.kind, t.text) = mark := by
  obtain ⟨e, he, -, hmember, huses⟩ := exists_of_item hl hi
  obtain ⟨t', ht', ⟨hname, hbehind⟩, htaken, hgoing⟩ := huses u hu
  obtain rfl := Option.some.inj (ht.symm.trans ht')
  refine ⟨?_, hbehind.mark⟩
  rw [← Extractor.readsMembers_of_name hname] at hmember
  generalize u.state = s at hmember htaken hgoing
  cases s with
  | field m => exact .inl (FieldMachine.lax_of_used hl hmalformed htaken hgoing)
  | method m => exact .inr (MethodMachine.marked_of_used hl hmalformed htaken hgoing)
  | enumMember m => exact .inl rfl
  | _ => cases hmember

/-- What is reported of a body is about tokens of it. -/
theorem standsIn_of_reports (hl : o.language.memberOrder = .nameFirst) {r : Report}
    (hr : r ∈ reports o kind body) : r.StandsIn body := by
  obtain ⟨e, he, hr⟩ := mem_reports.1 hr
  obtain ⟨t, ht, -, hx⟩ := (Tracked.stands_alone hl he).2 r hr
  refine ⟨t, ht, ?_⟩
  have hstrict := Extractor.isStrict_of_reported hx
  generalize r.machine = m at hx hstrict
  cases m with
  | field m => exact .inl (FieldMachine.reported_accept hl hx).2
  | method m =>
      refine (MethodMachine.reported_accept hl hx).imp And.left fun h => ⟨h.1, ?_⟩
      exact Parameter.exists_of_ofParens h.2.1
  | _ => cases hstrict

/-- Where the name comes first, a token that is reported belongs to no method and no constant, and
to a field only if the machine for methods reports it and the field uses it whatever it spells. -/
theorem lax_of_reported (hl : o.language.memberOrder = .nameFirst) {r : Report}
    (hr : r ∈ reports o kind body) {i : Item} (hi : i ∈ items o kind body)
    (hplace : r.place ∈ i.places) :
    r.machine.name = "method" ∧ ∃ u ∈ i.uses, u.place = r.place ∧ u.state.isLax = true := by
  obtain ⟨e, he, hr⟩ := mem_reports.1 hr
  obtain ⟨e', he', hi', hmember, huses⟩ := exists_of_item hl hi
  obtain ⟨t, ht, ⟨hname, hbehind⟩, hx⟩ := (Tracked.stands_alone hl he).2 r hr
  obtain ⟨u, hu, hup⟩ := Item.mem_places.1 hplace
  obtain ⟨t', ht', ⟨hname', hbehind'⟩, htaken, hgoing⟩ := huses u hu
  rw [hup] at ht' hbehind'
  obtain rfl := Option.some.inj (ht.symm.trans ht')
  have hstrict : e.isStrict = true := by
    rw [← Extractor.isStrict_of_name hname]
    exact Extractor.isStrict_of_reported hx
  obtain ⟨hfields, hkind⟩ := eq_of_isStrict he hstrict
  have hkind' := (eq_of_isStrict he' (isStrict_of_extractors hl hfields he' hmember)).2
  -- a machine reads no item from a token that it reports
  have hother : e ≠ e' := by
    rintro rfl
    exact Tracked.apart_of_reported hr hi' hplace
  rcases hkind with rfl | rfl <;> rcases hkind' with rfl | rfl
  · exact absurd rfl hother
  · obtain ⟨m, hm⟩ := Extractor.field_of_name hname
    obtain ⟨m', hm'⟩ := Extractor.method_of_name hname'.symm
    rw [hm] at hbehind hx
    rw [hm'] at hbehind' htaken hgoing
    rw [Extractor.not_used_of_reported hl hbehind hbehind' hx htaken] at hgoing
    cases hgoing
  · refine ⟨hname, u, hu, hup, ?_⟩
    obtain ⟨m, hm⟩ := Extractor.method_of_name hname.symm
    obtain ⟨m', hm'⟩ := Extractor.field_of_name hname'
    rw [hm] at hbehind hx
    rw [hm'] at hbehind' htaken hgoing ⊢
    exact Extractor.lax_of_method_reported hl hbehind hbehind' hx htaken hgoing
  · exact absurd rfl hother

end Members

end Outline
