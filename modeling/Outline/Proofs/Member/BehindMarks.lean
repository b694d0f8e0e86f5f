import Outline.Proofs.Member.Reports

/-!
# Marks in front of a token

Where the name comes first, a machine that waits for a part of a type or for the name of an
annotation does so behind a mark.  Its state tells which one, so that two machines in front of one
token agree on it.

* `Extractor.mark?` — the mark behind which a machine awaits a token.
* `Extractor.behind_accept` — the mark is the token in front.
* `Tracked.stands_alone` — so it is wherever a machine uses or reports a token.
-/

namespace Outline

namespace Language

variable {l : Language}

theorem annotationStyle_of_nameFirst (hl : l.memberOrder = .nameFirst) :
    l.annotationStyle = .atSign := by
  cases l <;> first | rfl | cases hl

end Language

/-! ## Marks in front of a token -/

/-- The mark behind which the name of an annotation is awaited. -/
def AnnotationSkip.mark? : Option AnnotationSkip → Option (TokenKind × String)
  | some name => some (.separator, "@")
  | _ => none

/-- The mark behind which a part of a type is awaited. -/
def TypeMachine.mark? : TypeMachine → Option (TokenKind × String)
  | idle => some (.operator, ":")
  | union _ => some (.operator, "|")
  | functionArrow => some (.operator, "=>")
  | _ => none

namespace Extractor

/-- The mark behind which a machine awaits a token, where the name comes first. -/
def mark? : Extractor → Option (TokenKind × String)
  | field (.head skip _) | method (.head _ skip _ _) => AnnotationSkip.mark? skip
  | field (.type _ m) | method (.returnType _ m) => m.mark?
  | _ => none

/-- The marks behind which machines await tokens. -/
def awaiting : List (TokenKind × String) :=
  [(.separator, "@"), (.operator, ":"), (.operator, "|"), (.operator, "=>")]

theorem mem_awaiting {e : Extractor} {m : TokenKind × String} (h : e.mark? = some m) :
    m ∈ awaiting := by
  have hskip : ∀ skip : Option AnnotationSkip, AnnotationSkip.mark? skip = some m →
      m ∈ awaiting := by
    intro skip h
    rcases skip with _ | _ | _ <;> cases h
    exact List.mem_cons_self
  have htype : ∀ machine : TypeMachine, machine.mark? = some m → m ∈ awaiting := by
    intro machine h
    cases machine <;> cases h <;> decide
  cases e with
  | field machine => cases machine <;> first | exact hskip _ h | exact htype _ h | cases h
  | method machine => cases machine <;> first | exact hskip _ h | exact htype _ h | cases h
  | _ => cases h

/-- The state of a machine fits the token in front of it. -/
structure Behind (t? : Option TokenTree) (e : Extractor) : Prop where
  /-- A mark stands in front of a token that is awaited behind it. -/
  mark : ∀ m, e.mark? = some m → ∃ t, t? = some t ∧ (t.kind, t.text) = m
  /-- A name or a question mark stands in front of the parameters. -/
  named : ∀ d, e = method (.afterName d) →
    ∃ t, t? = some t ∧ (t.kind = .identifier ∨ t.kind = .string ∨ t.value.isOperator "?" = true)

theorem behind_of_unmarked {t? : Option TokenTree} {e : Extractor} (he : e.mark? = none)
    (hnamed : ∀ d, e ≠ method (.afterName d)) : Behind t? e :=
  ⟨fun m hm => absurd (he.symm.trans hm) (by simp), fun d hd => absurd hd (hnamed d)⟩

theorem behind_reset (t? : Option TokenTree) (e : Extractor) : Behind t? e.reset := by
  refine behind_of_unmarked ?_ fun d hd => ?_
  · cases e <;> rfl
  · cases e <;> cases hd

end Extractor

namespace AnnotationSkip

theorem mark_step {l : Language} (hl : l.annotationStyle = .atSign)
    (skip : Option AnnotationSkip) (t : Token) {m : TokenKind × String}
    (h : mark? (step l skip t).1 = some m) : (t.kind, t.text) = m := by
  match skip with
  | none =>
      simp only [step, hl] at h
      split at h
      · rename_i hat
        rw [Token.kind_of_isSeparator hat, Token.text_of_isSeparator hat]
        exact Option.some.inj h
      · cases h
  | some name => simp only [step, hl] at h; split at h <;> cases h
  | some arguments => simp only [step, hl] at h; cases h

end AnnotationSkip

namespace TypeMachine

variable {l : Language} {t : Token}

theorem mark_find {text : String} : (find text).state.mark? = none := by
  unfold find
  split <;> rfl

theorem mark_accept (l : Language) (allowVoid : Bool) (m : TypeMachine) (t : Token)
    {x : TokenKind × String} (h : (m.accept l allowVoid t).state.mark? = some x) :
    (t.kind, t.text) = x := by
  have hoperator : ∀ op, t.isOperator op = true → some (TokenKind.operator, op) = some x →
      (t.kind, t.text) = x := by
    intro op hop hx
    rw [Token.kind_of_isOperator hop, Token.text_of_isOperator hop]
    exact Option.some.inj hx
  cases m with
  | idle =>
      rw [accept] at h
      split_ifs at h
      · cases h
      · cases h
      · rw [mark_find] at h
        cases h
  | found type =>
      rw [accept] at h
      split_ifs at h with _ _ hor
      · cases h
      · cases h
      · exact hoperator "|" (Bool.and_eq_true_iff.1 hor).2 h
      · cases h
  | union type => rw [accept] at h; split_ifs at h <;> cases h
  | functionParams =>
      rw [accept] at h
      split_ifs at h with harrow
      · exact hoperator "=>" harrow h
      · cases h
  | functionArrow =>
      rw [accept] at h
      split_ifs at h
      · rw [mark_find] at h
        cases h
      · cases h
  | complete type => cases h
  | failed => cases h

end TypeMachine

namespace FieldMachine

variable {l : Language} {t : Token}

/-- Behind a mark there is that mark. -/
theorem mark_acceptNameFirst (hl : l.memberOrder = .nameFirst) (m : FieldMachine) (t : Token)
    {x : TokenKind × String}
    (h : (Extractor.field (acceptNameFirst l m t).state).mark? = some x) :
    (t.kind, t.text) = x := by
  have htail : ∀ d, (Extractor.field (acceptTail d t).state).mark? = none := by
    intro d
    rw [acceptTail]
    split_ifs <;> rfl
  have hcolon : ∀ d, t.isOperator ":" = true →
      (Extractor.field (type d .idle)).mark? = some x → (t.kind, t.text) = x := by
    intro d hop hx
    rw [Token.kind_of_isOperator hop, Token.text_of_isOperator hop]
    exact Option.some.inj hx
  cases m with
  | head skip modifiers =>
      have hstep := AnnotationSkip.mark_step (Language.annotationStyle_of_nameFirst hl) skip t
        (m := x)
      rw [acceptNameFirst, acceptHead] at h
      generalize AnnotationSkip.step l skip t = step at h hstep
      obtain ⟨skip', _ | _⟩ := step
      · dsimp only at h
        split_ifs at h
        all_goals first
          | exact hstep h
          | cases h
      · exact hstep h
  | afterName d =>
      rw [acceptNameFirst] at h
      split_ifs at h with hop
      · exact hcolon d hop h
      · cases h
      · cases h
      · rw [htail] at h
        cases h
  | afterMark d =>
      rw [acceptNameFirst] at h
      split_ifs at h with hop
      · exact hcolon d hop h
      · rw [htail] at h
        cases h
  | type d machine =>
      refine (ofType_acceptType l d machine t afterType (acceptTail · t)).of_state
        (P := fun m => (Extractor.field m).mark? = some x → (t.kind, t.text) = x)
        (fun h => by cases h) (TypeMachine.mark_accept l false machine t) (fun _ h => by cases h)
        (fun _ h => ?_) h
      rw [htail] at h
      cases h
  | afterType d =>
      rw [acceptNameFirst, htail] at h
      cases h
  | initializer d => rw [acceptNameFirst] at h; split_ifs at h <;> cases h
  | name d => cases h
  | complete d => cases h
  | failed => cases h

@[simp] theorem mark_mapDraft (f : FieldDraft → FieldDraft) (m : FieldMachine) :
    (Extractor.field (m.mapDraft f)).mark? = (Extractor.field m).mark? := by
  cases m <;> rfl

end FieldMachine

namespace MethodMachine

variable {o : Owner} {t : TokenTree}

/-- Behind a mark there is that mark. -/
theorem mark_acceptNameFirst (hl : o.language.memberOrder = .nameFirst) (m : MethodMachine)
    (t : TokenTree) {x : TokenKind × String}
    (h : (Extractor.method (acceptNameFirst o m t).state).mark? = some x) :
    (t.kind, t.text) = x := by
  have htail : ∀ d, (Extractor.method (acceptTail d t.value).state).mark? = none := by
    intro d
    rw [acceptTail]
    split_ifs <;> rfl
  have hname : ∀ d, (Extractor.method (acceptName d t.text).state).mark? = none := by
    intro d
    unfold acceptName
    split <;> rfl
  have hparams : ∀ d, (Extractor.method (acceptParams o.language d t).state).mark? = none := by
    intro d
    unfold acceptParams
    split <;> rfl
  cases m with
  | head started skip modifiers typeParams =>
      have hstep : ∀ {skip' : Option AnnotationSkip} {taken : Bool},
          AnnotationSkip.step o.language skip t.value = (skip', taken) →
          AnnotationSkip.mark? skip' = some x → (t.kind, t.text) = x := by
        intro skip' taken hstep hmark
        refine AnnotationSkip.mark_step (Language.annotationStyle_of_nameFirst hl) skip t.value ?_
        rw [hstep]
        exact hmark
      rw [acceptNameFirst_head] at h
      refine acceptHead_of_parts
        (P := fun s => (Extractor.method s.state).mark? = some x → (t.kind, t.text) = x)
        (fun _ h => hstep h) (fun _ h _ => hstep h) (fun skip' hskip _ h => ?_) h
      split_ifs at h
      · rw [hname] at h
        cases h
      · cases h
      · rw [leaveHead] at h
        split_ifs at h
        · cases h
        · exact hstep hskip h
  | afterName d =>
      rw [acceptNameFirst] at h
      split_ifs at h
      · cases h
      · rw [hparams] at h
        cases h
      · cases h
  | afterParams d =>
      rw [acceptNameFirst] at h
      split_ifs at h with hop
      · have hkind : t.kind = .operator := Token.kind_of_isOperator hop
        have htext : t.text = ":" := Token.text_of_isOperator hop
        rw [hkind, htext]
        exact Option.some.inj h
      · rw [htail] at h
        cases h
  | returnType d machine =>
      refine (ofType_acceptType o.language d machine t.value returnType afterReturn
        (acceptTail · t.value)).of_state
        (P := fun m => (Extractor.method m).mark? = some x → (t.kind, t.text) = x)
        (fun h => by cases h) (TypeMachine.mark_accept o.language true machine t.value)
        (fun _ h => by cases h) (fun _ h => ?_) h
      rw [htail] at h
      cases h
  | afterReturn d =>
      rw [acceptNameFirst, htail] at h
      cases h
  | typeParamList modifiers list => cases h
  | type d machine => cases h
  | name d => cases h
  | clause d => cases h
  | expression d => cases h
  | complete d => cases h
  | failed => cases h

/-- In front of the parameters there is a name or a question mark. -/
theorem named_acceptNameFirst (m : MethodMachine) {d : MethodDraft}
    (h : (acceptNameFirst o m t).state = afterName d) :
    t.kind = .identifier ∨ t.kind = .string ∨ t.value.isOperator "?" = true := by
  have htail : ∀ d', (acceptTail d' t.value).state ≠ afterName d := by
    intro d'
    rw [acceptTail]
    split_ifs <;> exact MethodMachine.noConfusion
  cases m with
  | head started skip modifiers typeParams =>
      rw [acceptNameFirst_head] at h
      refine acceptHead_of_parts (P := fun s => s.state = afterName d → _)
        (fun _ _ h => by cases h) (fun _ _ _ h => by cases h) (fun skip' _ _ h => ?_) h
      split_ifs at h with hidentifier hstring
      · exact .inl (beq_iff_eq.1 hidentifier)
      · exact .inr (.inl (beq_iff_eq.1 hstring))
      · rw [leaveHead] at h
        split_ifs at h <;> cases h
  | afterName d' =>
      rw [acceptNameFirst] at h
      split_ifs at h with hmark
      · exact .inr (.inr hmark)
      · unfold acceptParams at h
        split at h <;> cases h
      · cases h
  | afterParams d' =>
      rw [acceptNameFirst] at h
      split_ifs at h
      · cases h
      · exact absurd h (htail d')
  | returnType d' machine =>
      exact absurd h ((ofType_acceptType o.language d' machine t.value returnType afterReturn
        (acceptTail · t.value)).of_state (P := (· ≠ afterName d)) MethodMachine.noConfusion
        MethodMachine.noConfusion (fun _ => MethodMachine.noConfusion) fun _ => htail _)
  | afterReturn d' => exact absurd h (htail d')
  | typeParamList modifiers list => cases h
  | type d machine => cases h
  | name d => cases h
  | clause d => cases h
  | expression d => cases h
  | complete d => cases h
  | failed => cases h

@[simp] theorem mark_mapDraft (f : MethodDraft → MethodDraft) (m : MethodMachine) :
    (Extractor.method (m.mapDraft f)).mark? = (Extractor.method m).mark? := by
  cases m <;> rfl

theorem exists_afterName_of_mapDraft {f : MethodDraft → MethodDraft} {m : MethodMachine}
    {d : MethodDraft} (h : m.mapDraft f = afterName d) : ∃ d', m = afterName d' := by
  cases m <;> first | exact ⟨_, rfl⟩ | cases h

end MethodMachine

namespace Extractor

variable {o : Owner} {t : TokenTree} {e : Extractor}

theorem behind_of_not_strict (t? : Option TokenTree) (he : e.isStrict = false) : Behind t? e := by
  refine behind_of_unmarked ?_ fun d hd => ?_
  · cases e <;> first | rfl | cases he
  · rw [hd] at he
    cases he

/-- A token that is no comment stands in front of what a machine is offered behind it. -/
theorem behind_accept (hl : o.language.memberOrder = .nameFirst) (ht : t.kind ≠ .comment)
    (e : Extractor) : Behind (some t) (e.accept o t).state := by
  have hfirst : ∀ {P : Prop}, o.language.memberOrder = .typeFirst → P := fun h => by
    rw [hl] at h
    cases h
  cases hstrict : e.isStrict with
  | false =>
      have hsame := isStrict_of_name (Tracked.name_accept o e t)
      exact behind_of_not_strict _ (hsame.trans hstrict)
  | true =>
      cases e with
      | field m =>
          refine ⟨fun x hx => ⟨t, rfl, ?_⟩, fun d hd => by cases hd⟩
          refine FieldMachine.accept_of_parts (o := o) (m := m) (t := t.value)
            (P := fun s => (field s.state).mark? = some x → (t.kind, t.text) = x)
            (fun h => absurd h ht) (fun h => hfirst h)
            (fun _ _ => FieldMachine.mark_acceptNameFirst hl m t.value) ?_ hx
          exact fun _ s _ _ hs h => hs ((FieldMachine.mark_mapDraft _ s.state).symm.trans h)
      | method m =>
          refine ⟨fun x hx => ⟨t, rfl, ?_⟩, fun d hd => ⟨t, rfl, ?_⟩⟩
          · refine MethodMachine.accept_of_parts (o := o) (m := m) (t := t)
              (P := fun s => (method s.state).mark? = some x → (t.kind, t.text) = x)
              (fun h => absurd h ht) (fun h => hfirst h)
              (fun _ _ => MethodMachine.mark_acceptNameFirst hl m t) ?_ hx
            exact fun _ s _ _ hs h => hs ((MethodMachine.mark_mapDraft _ s.state).symm.trans h)
          · obtain ⟨d', hd'⟩ : ∃ d', (MethodMachine.acceptNameFirst o m t).state = .afterName d' := by
              refine MethodMachine.accept_of_parts (o := o) (m := m) (t := t)
                (P := fun s => (∃ d, s.state = .afterName d) →
                  ∃ d', (MethodMachine.acceptNameFirst o m t).state = .afterName d')
                (fun h => absurd h ht) (fun h => hfirst h) (fun _ _ h => h) ?_ ⟨d, method.inj hd⟩
              exact fun _ s _ _ hs h => hs (MethodMachine.exists_afterName_of_mapDraft h.choose_spec)
            exact MethodMachine.named_acceptNameFirst m hd'
      | _ => cases hstrict

/-- The last token in front of the place `p` that is no comment. -/
def tokenBefore? (body : List TokenTree) (p : Nat) : Option TokenTree :=
  ((body.take p).filter (·.kind != .comment)).getLast?

theorem tokenBefore?_succ {body : List TokenTree} {p : Nat} (ht : body[p]? = some t) :
    tokenBefore? body (p + 1) = if t.kind = .comment then tokenBefore? body p else some t := by
  rw [tokenBefore?, tokenBefore?, List.take_add_one, ht, List.filter_append]
  by_cases hkind : t.kind = .comment <;> simp [hkind]

namespace Tracked

/-- What holds of the states of a machine that starts in the state `e`. -/
def Stands (body : List TokenTree) (e : Extractor) (p : Nat) (e' : Extractor) : Prop :=
  e'.name = e.name ∧ Behind (tokenBefore? body p) e'

/-- The states of a machine tell what stands in front of it. -/
theorem stands_alone (hl : o.language.memberOrder = .nameFirst) {kind : DeclarationKind}
    {body : List TokenTree} (he : e ∈ Members.extractors o.language kind) :
    (∀ i ∈ itemsAlone o ⟨e, []⟩ body, ∀ u ∈ i.uses, UsedIn (Stands body e) o body u) ∧
      ∀ r ∈ reportsAlone o 0 ⟨e, []⟩ body, ReportedIn (Stands body e) o body r := by
  have hstart : e.reset = e := by
    simp only [Members.extractors, List.mem_append, List.mem_cons, List.not_mem_nil,
      or_false] at he
    rcases he with (he | he) | rfl | rfl
    · split at he
      · rcases List.mem_cons.1 he with rfl | he
        · rfl
        · rw [List.mem_singleton.1 he]
          rfl
      · cases he
    · split at he
      · rw [List.mem_singleton.1 he]
        rfl
      · cases he
    · rfl
    · rfl
  refine alone_keeps ⟨rfl, hstart ▸ behind_reset _ e⟩ ?_ ?_
  · rintro p t e' - ⟨hname, -⟩
    have hreset : (e'.accept o t).state.reset.name = e.name := by
      rw [name_reset, name_accept, hname]
    exact ⟨⟨hreset, behind_reset _ _⟩, ⟨hreset, behind_reset _ _⟩⟩
  · rintro p t e' ht ⟨hname, hbehind⟩ - -
    refine ⟨by rw [name_accept, hname], ?_⟩
    rw [tokenBefore?_succ ht]
    split
    · rename_i hcomment
      cases hmember : e'.readsMembers with
      | true =>
          rw [accept_comment hmember hcomment]
          exact hbehind
      | false =>
          refine behind_of_not_strict _ ((isStrict_of_name (name_accept o e' t)).trans ?_)
          cases e' <;> first | rfl | cases hmember
    · exact behind_accept hl ‹_› e'

end Tracked

end Extractor

end Outline
