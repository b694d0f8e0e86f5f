import Outline.Proofs.Relayout.Spelling

/-!
# Members without their layout

The machines that read members go the same way over a token and over the token without its place,
and what they have read differs at most in what the layout may change.

* `Spelling.field_accept`, `Spelling.method_accept`, `Spelling.enumMember_accept`,
  `Spelling.annotation_accept` — one step of each machine.
-/

namespace Outline.Spelling

variable (σ : Spelling) {o o' : Owner}

/-- Two owners whose members are compared. -/
structure Owners (o o' : Owner) : Prop where
  /-- The language is the same. -/
  language : o'.language = o.language
  /-- The types come first in it. -/
  typeFirst : o.language.memberOrder = .typeFirst
  /-- The simple name is the same. -/
  name : o'.name? = o.name?
  /-- The full names are spelled alike. -/
  fullName : o'.fullName.map σ.name = o.fullName.map σ.name

/-! ## Fields -/

/-- What is compared of a field that is being read. -/
def fieldDraft (d : FieldDraft) : FieldDraft := { d with name := σ.name d.name, line := 0 }

/-- What is compared of the machine that reads fields. -/
def fieldMachine : FieldMachine → FieldMachine := FieldMachine.mapDraft σ.fieldDraft

theorem fieldDraft_fieldDraft (d : FieldDraft) :
    σ.fieldDraft (σ.fieldDraft d) = σ.fieldDraft d := by
  simp only [fieldDraft, σ.name_name]

theorem fieldMachine_fieldMachine (m : FieldMachine) :
    σ.fieldMachine (σ.fieldMachine m) = σ.fieldMachine m := by
  cases m <;> simp only [fieldMachine, FieldMachine.mapDraft, fieldDraft_fieldDraft]

@[simp] theorem outcome_take {α β : Type} (f : α → β) (m : α) :
    outcome f (.take m) = (f m, true) := rfl

@[simp] theorem outcome_leave {α β : Type} (f : α → β) (m : α) :
    outcome f (.leave m) = (f m, false) := rfl

/-- What is not compared may be noted of the token. -/
theorem outcome_noted {α β : Type} {f : α → β} {g g' : α → α} {s s' : Step α}
    (h : outcome f s' = outcome f s) (hg' : ∀ a, f (g' a) = f a) (hg : ∀ a, f (g a) = f a) :
    outcome f (if s'.taken then s'.map g' else s') = outcome f (if s.taken then s.map g else s) := by
  obtain ⟨hstate, htaken⟩ := Prod.mk.inj h
  rw [htaken]
  split
  · exact congrArg₂ Prod.mk ((hg' _).trans (hstate.trans (hg _).symm)) htaken
  · exact h

@[simp] theorem outcome_after {α β : Type} (f : α → β) (malformed : List MalformedType)
    (s : Step α) : outcome f (s.after malformed) = outcome f s := rfl

theorem outcome_ite {α β : Type} (f : α → β) (c : Prop) [Decidable c] (a b : Step α) :
    outcome f (if c then a else b) = if c then outcome f a else outcome f b := apply_ite ..

theorem isEnd_token (t : Token) : FieldMachine.isEnd (σ.token t) = FieldMachine.isEnd t := by
  rw [FieldMachine.isEnd, FieldMachine.isEnd, isSeparator_token, isSeparator_token]

theorem isPlain_token {t : Token} (h : t.kind = .identifier) :
    FieldMachine.isPlain (σ.token t).text = FieldMachine.isPlain t.text := by
  have hmarks : ∀ c, (['.', '<', '['].contains c) = true → Text.isBlank c = false := by
    intro c hc
    have hall : (['.', '<', '['].all fun c => !Text.isBlank c) = true := by decide
    simpa using List.all_eq_true.1 hall c (List.contains_iff_mem.1 hc)
  rw [FieldMachine.isPlain, FieldMachine.isPlain, any_identifier h hmarks]

variable {d d' : FieldDraft} (hd : σ.fieldDraft d' = σ.fieldDraft d)

include hd

theorem fieldDraft_name (name : String) :
    σ.fieldDraft { d' with name := σ.word name } = σ.fieldDraft { d with name } := by
  simp only [fieldDraft, FieldDraft.mk.injEq, and_true] at hd ⊢
  exact ⟨hd.1, σ.name_word name, hd.2.2⟩

theorem fieldDraft_type (type? : Option TypeRef) :
    σ.fieldDraft { d' with type? } = σ.fieldDraft { d with type? } := by
  simp only [fieldDraft, FieldDraft.mk.injEq, and_true, true_and] at hd ⊢
  exact ⟨hd.1, hd.2.1, hd.2.2.2⟩

theorem field_acceptName (t : Token) :
    outcome σ.fieldMachine (FieldMachine.acceptName d' (σ.token t)) =
      outcome σ.fieldMachine (FieldMachine.acceptName d t) := by
  rw [FieldMachine.acceptName, FieldMachine.acceptName, kind_token]
  by_cases h : t.kind = .identifier
  · rw [isPlain_token σ h, text_identifier h, outcome_ite, outcome_ite, outcome_take, outcome_take]
    simp only [fieldMachine, FieldMachine.mapDraft, fieldDraft_name σ hd]
  · rw [beq_eq_false_iff_ne.2 h, Bool.false_and]
    rfl

theorem field_acceptType (l : Language) (m : TypeMachine) (t : Token) :
    outcome σ.fieldMachine (FieldMachine.acceptType l d' m (σ.token t)
        FieldMachine.name (FieldMachine.acceptName · (σ.token t))) =
      outcome σ.fieldMachine (FieldMachine.acceptType l d m t FieldMachine.name
        (FieldMachine.acceptName · t)) := by
  obtain ⟨hstate, htaken⟩ := Prod.mk.inj (typeMachine_accept σ l false m t)
  simp only [id_eq] at hstate
  unfold FieldMachine.acceptType
  simp only [hstate, htaken]
  cases hm : (m.accept l false t).state with
  | complete found =>
      cases (m.accept l false t).taken with
      | true =>
          simp only [if_true, outcome, fieldMachine, FieldMachine.mapDraft,
            fieldDraft_type σ hd]
      | false => exact field_acceptName σ (fieldDraft_type σ hd (some found)) t
  | failed => rfl
  | _ => simp only [outcome, fieldMachine, FieldMachine.mapDraft, hd]

omit hd

/-- Where the type comes first, the machine that reads fields goes the same way. -/
theorem field_acceptTypeFirst (l : Language) (m : FieldMachine) (t : Token) :
    outcome σ.fieldMachine (FieldMachine.acceptTypeFirst l (σ.fieldMachine m) (σ.token t)) =
      outcome σ.fieldMachine (FieldMachine.acceptTypeFirst l m t) := by
  have hdraft := fieldDraft_fieldDraft σ
  have hmachine := fieldMachine_fieldMachine σ
  cases m with
  | head skip modifiers =>
      simp only [fieldMachine, FieldMachine.mapDraft, FieldMachine.acceptTypeFirst,
        FieldMachine.acceptHead, annotationSkip_token, marks_token, starts_token]
      split
      · rfl
      · split
        · rename_i hmarks
          rw [text_of_marks hmarks]
        · cases TypeMachine.starts l false t with
          | true => exact field_acceptType σ (d := { modifiers }) rfl l .idle t
          | false => cases modifiers <;> rfl
  | type d machine => exact field_acceptType σ (hdraft d) l machine t
  | name d => exact field_acceptName σ (hdraft d) t
  | afterName d =>
      simp only [fieldMachine, FieldMachine.mapDraft, FieldMachine.acceptTypeFirst,
        isEnd_token, isOperator_token, isBlock_token]
      simp only [outcome_ite, outcome_take, outcome_leave, FieldMachine.mapDraft, hdraft]
  | initializer d =>
      simp only [fieldMachine, FieldMachine.mapDraft, FieldMachine.acceptTypeFirst,
        isSeparator_token]
      cases t.isSeparator ";" <;> simp [FieldMachine.mapDraft, hdraft]
  | afterMark d => exact congrArg (·, false) (hmachine (.afterMark d))
  | afterType d => exact congrArg (·, false) (hmachine (.afterType d))
  | complete d => exact congrArg (·, false) (hmachine (.complete d))
  | failed => rfl

theorem fieldMachine_line (m : FieldMachine) (line : Nat) :
    σ.fieldMachine (m.mapDraft fun d => { d with line }) = σ.fieldMachine m := by
  cases m <;> rfl

/-- The machine that reads fields goes the same way. -/
theorem field_accept (h : σ.Owners o o') (m : FieldMachine) (t : Token) :
    outcome σ.fieldMachine ((σ.fieldMachine m).accept o' (σ.token t)) =
      outcome σ.fieldMachine (m.accept o t) := by
  unfold FieldMachine.accept
  rw [h.language, h.typeFirst, kind_token]
  dsimp only
  split
  · exact congrArg (·, false) (fieldMachine_fieldMachine σ m)
  · exact outcome_noted (field_acceptTypeFirst σ o.language m t) (fieldMachine_line σ · _)
      (fieldMachine_line σ · _)

/-! ## Methods -/

/-- What is compared of a type parameter, which may be the text of an identifier. -/
def typeParam (t : TypeRef) : TypeRef := { t with name := σ.name t.name }

/-- What is compared of a list of type parameters that is being read. -/
def typeParamList (p : TypeParamList) : TypeParamList :=
  { p with params := p.params.map σ.typeParam }

/-- What is compared of a method that is being read. -/
def methodDraft (d : MethodDraft) : MethodDraft :=
  { d with
    typeParams := d.typeParams.map σ.typeParam, params := d.params.map σ.parameter, line := 0 }

/-- What is compared of the machine that reads methods. -/
def methodMachine : MethodMachine → MethodMachine
  | .head started skip modifiers typeParams =>
    .head started skip modifiers (typeParams.map σ.typeParam)
  | .typeParamList modifiers list => .typeParamList modifiers (σ.typeParamList list)
  | .type d m => .type (σ.methodDraft d) m
  | .name d => .name (σ.methodDraft d)
  | .afterName d => .afterName (σ.methodDraft d)
  | .afterParams d => .afterParams (σ.methodDraft d)
  | .returnType d m => .returnType (σ.methodDraft d) m
  | .afterReturn d => .afterReturn (σ.methodDraft d)
  | .clause d => .clause (σ.methodDraft d)
  | .expression d => .expression (σ.methodDraft d)
  | .complete d => .complete (σ.methodDraft d)
  | .failed => .failed

theorem typeParam_typeParam (t : TypeRef) : σ.typeParam (σ.typeParam t) = σ.typeParam t := by
  rw [typeParam, typeParam, σ.name_name]

theorem map_typeParam (ts : List TypeRef) :
    (ts.map σ.typeParam).map σ.typeParam = ts.map σ.typeParam := by
  rw [List.map_map]
  exact List.map_congr_left fun t _ => typeParam_typeParam σ t

theorem typeParamList_typeParamList (p : TypeParamList) :
    σ.typeParamList (σ.typeParamList p) = σ.typeParamList p := by
  simp only [typeParamList, map_typeParam]

theorem map_parameter (ps : List (Parameter TypeRef)) :
    (ps.map σ.parameter).map σ.parameter = ps.map σ.parameter := by
  rw [List.map_map]
  exact List.map_congr_left fun p _ => by simp only [Function.comp, parameter, σ.name_name]

theorem methodDraft_methodDraft (d : MethodDraft) :
    σ.methodDraft (σ.methodDraft d) = σ.methodDraft d := by
  simp only [methodDraft, map_typeParam, map_parameter]

theorem methodMachine_methodMachine (m : MethodMachine) :
    σ.methodMachine (σ.methodMachine m) = σ.methodMachine m := by
  cases m <;>
    simp only [methodMachine, methodDraft_methodDraft, typeParamList_typeParamList, map_typeParam]

theorem typeParamList_read {p p' : TypeParamList} (hp : σ.typeParamList p' = σ.typeParamList p)
    (t : Token) : σ.typeParamList (p'.read (σ.token t)) = σ.typeParamList (p.read t) := by
  obtain ⟨params, expecting, depth⟩ := p
  obtain ⟨params', expecting', depth'⟩ := p'
  simp only [typeParamList, TypeParamList.mk.injEq] at hp
  obtain ⟨hparams, rfl, rfl⟩ := hp
  have hangles : TypeParamList.isAngles (σ.token t) = TypeParamList.isAngles t := by
    rw [TypeParamList.isAngles, TypeParamList.isAngles, kind_token]
    by_cases h : t.kind = .operator
    · rw [text_token (by rw [h]; rfl) (by rw [h]; decide)]
    · rw [beq_eq_false_iff_ne.2 h, Bool.false_and, Bool.false_and]
  unfold TypeParamList.read
  rw [hangles, isSeparator_token, kind_token]
  dsimp only
  split
  · rename_i h
    have hkind : t.kind = .operator := by simpa using (Bool.and_eq_true_iff.1 h).1
    rw [TypeParamList.opened, TypeParamList.opened,
      text_token (by rw [hkind]; rfl) (by rw [hkind]; decide)]
    simp only [typeParamList, hparams]
  · split
    · simp only [typeParamList, hparams]
    · split
      · rename_i h
        have hkind : t.kind = .identifier := by simpa using (Bool.and_eq_true_iff.1 h).2
        simp only [typeParamList, List.map_append, hparams, text_identifier hkind, List.map_cons,
          List.map_nil, typeParam, TypeRef.simple, σ.name_word]
      · simp only [typeParamList, hparams]

variable {b b' : MethodDraft} (hb : σ.methodDraft b' = σ.methodDraft b)

include hb

theorem methodDraft_fields : b'.modifiers = b.modifiers ∧
    b'.typeParams.map σ.typeParam = b.typeParams.map σ.typeParam ∧
      b'.returnType? = b.returnType? ∧ b'.name = b.name ∧
        b'.params.map σ.parameter = b.params.map σ.parameter := by
  simpa [methodDraft] using hb

theorem method_acceptName (text : String) :
    outcome σ.methodMachine (MethodMachine.acceptName b' (σ.word text)) =
      outcome σ.methodMachine (MethodMachine.acceptName b text) := by
  obtain ⟨hmodifiers, htypeParams, hreturn, hname, hparams⟩ := methodDraft_fields σ hb
  unfold MethodMachine.acceptName
  have hparse := σ.parse_word text
  revert hparse
  cases TypeRef.parse (σ.word text) <;> cases TypeRef.parse text <;> intro hparse
  · rfl
  · cases hparse
  · cases hparse
  · cases hparse
    simp [methodMachine, methodDraft, hmodifiers, htypeParams, hreturn,
      hparams]

theorem method_acceptParams {l : Language} (hl : l.memberOrder = .typeFirst) (t : TokenTree) :
    outcome σ.methodMachine (MethodMachine.acceptParams l b' (σ.tree t)) =
      outcome σ.methodMachine (MethodMachine.acceptParams l b t) := by
  obtain ⟨hmodifiers, htypeParams, hreturn, hname, -⟩ := methodDraft_fields σ hb
  unfold MethodMachine.acceptParams
  have hparens := parameters σ hl t
  revert hparens
  rcases Parameter.ofParens l (σ.tree t) with ⟨_ | params', malformed'⟩ <;>
    rcases Parameter.ofParens l t with ⟨_ | params, malformed⟩ <;> intro hparens
  · rfl
  · cases hparens
  · cases hparens
  · have hparams : params'.map σ.parameter = params.map σ.parameter := Option.some.inj hparens
    simp [outcome, methodMachine, methodDraft, hmodifiers, htypeParams,
      hreturn, hname, hparams]

theorem methodDraft_name (name : String) :
    σ.methodDraft { b' with name } = σ.methodDraft { b with name } := by
  obtain ⟨hmodifiers, htypeParams, hreturn, -, hparams⟩ := methodDraft_fields σ hb
  simp only [methodDraft, hmodifiers, htypeParams, hreturn, hparams]

theorem methodDraft_type (returnType? : Option TypeRef) :
    σ.methodDraft { b' with returnType? } = σ.methodDraft { b with returnType? } := by
  obtain ⟨hmodifiers, htypeParams, -, hname, hparams⟩ := methodDraft_fields σ hb
  simp only [methodDraft, hmodifiers, htypeParams, hname, hparams]

theorem method_acceptAfterType (h : σ.Owners o o') (t : TokenTree) :
    outcome σ.methodMachine (MethodMachine.acceptAfterType o' b' (σ.tree t)) =
      outcome σ.methodMachine (MethodMachine.acceptAfterType o b t) := by
  have hconstructor : MethodMachine.isConstructor o' b' (σ.tree t).value =
      MethodMachine.isConstructor o b t.value := by
    rw [MethodMachine.isConstructor, MethodMachine.isConstructor, value_tree, isBlock_token,
      (methodDraft_fields σ hb).2.2.1, h.name]
  rw [MethodMachine.acceptAfterType, MethodMachine.acceptAfterType, hconstructor, kind_tree,
    h.language, h.name]
  by_cases hid : t.kind = .identifier
  · have htext : (σ.tree t).text = σ.word t.text := by rw [text_tree, text_identifier hid]
    rw [if_pos (by simpa using hid), if_pos (by simpa using hid), htext]
    exact method_acceptName σ hb t.text
  · simp only [beq_eq_false_iff_ne.2 hid, Bool.false_eq_true, if_false, outcome_ite,
      method_acceptParams σ (methodDraft_name σ hb _) h.typeFirst]

theorem method_acceptType (h : σ.Owners o o') (m : TypeMachine) (t : TokenTree) :
    outcome σ.methodMachine (MethodMachine.acceptType o.language b' m (σ.tree t).value
        MethodMachine.type MethodMachine.name (MethodMachine.acceptAfterType o' · (σ.tree t))) =
      outcome σ.methodMachine (MethodMachine.acceptType o.language b m t.value
        MethodMachine.type MethodMachine.name (MethodMachine.acceptAfterType o · t)) := by
  obtain ⟨hstate, htaken⟩ := Prod.mk.inj (typeMachine_accept σ o.language true m t.value)
  simp only [id_eq] at hstate
  unfold MethodMachine.acceptType
  simp only [value_tree, hstate, htaken]
  cases hm : (m.accept o.language true t.value).state with
  | complete found =>
      cases (m.accept o.language true t.value).taken with
      | true =>
          simp only [if_true, outcome, methodMachine,
            methodDraft_type σ hb]
      | false => exact method_acceptAfterType σ (methodDraft_type σ hb (some found)) h t
  | failed => rfl
  | _ => simp only [outcome, methodMachine, hb]

omit hb

theorem isBody_token (t : Token) : MethodMachine.isBody (σ.token t) = MethodMachine.isBody t := by
  rw [MethodMachine.isBody, MethodMachine.isBody, isSeparator_token, isBlock_token]

theorem startsClause_token (t : Token) :
    MethodMachine.startsClause (σ.token t) = MethodMachine.startsClause t := by
  rw [MethodMachine.startsClause, MethodMachine.startsClause, isKeyword_token, isKeyword_token,
    isOperator_token, isIdentifier_token (w := "where") (Text.solid_of_all (by decide +kernel))]

/-- A token in front of a method. -/
theorem method_acceptTypeFirst_head (h : σ.Owners o o') (started : Bool)
    (skip : Option AnnotationSkip) (modifiers : List String) (typeParams : List TypeRef)
    (t : TokenTree) :
    outcome σ.methodMachine (MethodMachine.acceptTypeFirst o'
        (σ.methodMachine (.head started skip modifiers typeParams)) (σ.tree t)) =
      outcome σ.methodMachine
        (MethodMachine.acceptTypeFirst o (.head started skip modifiers typeParams) t) := by
  simp only [methodMachine, MethodMachine.acceptTypeFirst, h.language, value_tree,
    annotationSkip_token, marks_token, starts_token, isOperator_token, List.isEmpty_map]
  split
  · simp [methodMachine, typeParam_typeParam]
  · split
    · rename_i hmarks
      have htext : (σ.tree t).text = t.text := by rw [text_tree, text_of_marks hmarks]
      rw [htext]
      simp [methodMachine, typeParam_typeParam]
    · split
      · rfl
      · split
        · have hdraft' : σ.methodDraft { modifiers, typeParams := typeParams.map σ.typeParam } =
              σ.methodDraft { modifiers, typeParams } := by
            simp [methodDraft, typeParam_typeParam]
          have := method_acceptType σ hdraft' h .idle t
          rw [value_tree] at this
          exact this
        · cases started <;>
            simp [MethodMachine.leaveHead, methodMachine,
              typeParam_typeParam]

/-- A token of a list of type parameters. -/
theorem method_acceptTypeFirst_list (modifiers : List String) (list : TypeParamList)
    (t : TokenTree) :
    outcome σ.methodMachine (MethodMachine.acceptTypeFirst o'
        (σ.methodMachine (.typeParamList modifiers list)) (σ.tree t)) =
      outcome σ.methodMachine
        (MethodMachine.acceptTypeFirst o (.typeParamList modifiers list) t) := by
  have hread := typeParamList_read σ (typeParamList_typeParamList σ list) t.value
  simp only [methodMachine, MethodMachine.acceptTypeFirst, value_tree, outcome_take]
  have hclosed : ((σ.typeParamList list).read (σ.token t.value)).isClosed =
      (list.read t.value).isClosed := by
    rw [TypeParamList.isClosed, TypeParamList.isClosed]
    have hdepth : ((σ.typeParamList list).read (σ.token t.value)).depth =
        (list.read t.value).depth := (TypeParamList.mk.inj hread).2.2
    rw [hdepth]
  have hparams : ((σ.typeParamList list).read (σ.token t.value)).params.map σ.typeParam =
      (list.read t.value).params.map σ.typeParam := (TypeParamList.mk.inj hread).1
  rw [hclosed]
  cases (list.read t.value).isClosed
  · exact congrArg (MethodMachine.typeParamList modifiers ·, true) hread
  · exact congrArg (MethodMachine.head true none modifiers ·, true) hparams

/-- Where the type comes first, the machine that reads methods goes the same way. -/
theorem method_acceptTypeFirst (h : σ.Owners o o') (m : MethodMachine) (t : TokenTree) :
    outcome σ.methodMachine
        (MethodMachine.acceptTypeFirst o' (σ.methodMachine m) (σ.tree t)) =
      outcome σ.methodMachine (MethodMachine.acceptTypeFirst o m t) := by
  have hdraft := methodDraft_methodDraft σ
  have hmachine := methodMachine_methodMachine σ
  cases m with
  | head started skip modifiers typeParams =>
      exact method_acceptTypeFirst_head σ h started skip modifiers typeParams t
  | typeParamList modifiers list => exact method_acceptTypeFirst_list σ modifiers list t
  | type d machine =>
      simp only [methodMachine, MethodMachine.acceptTypeFirst,
        h.language]
      exact method_acceptType σ (hdraft d) h machine t
  | name d => exact method_acceptAfterType σ (hdraft d) h t
  | afterName d =>
      simp only [methodMachine, MethodMachine.acceptTypeFirst,
        h.language, value_tree, isBlock_token, outcome_ite,
        method_acceptParams σ (hdraft d) h.typeFirst]
  | afterParams d =>
      simp only [methodMachine, MethodMachine.acceptTypeFirst,
        value_tree, isBody_token, isOperator_token, startsClause_token, outcome_ite,
        outcome_take, outcome_leave, hdraft]
  | clause d =>
      simp only [methodMachine, MethodMachine.acceptTypeFirst,
        value_tree, isBody_token, outcome_take]
      cases MethodMachine.isBody t.value <;> simp [hdraft]
  | expression d =>
      simp only [methodMachine, MethodMachine.acceptTypeFirst,
        value_tree, isSeparator_token, outcome_take]
      cases t.value.isSeparator ";" <;> simp [hdraft]
  | returnType d machine => exact congrArg (·, false) (hmachine (.returnType d machine))
  | afterReturn d => exact congrArg (·, false) (hmachine (.afterReturn d))
  | complete d => exact congrArg (·, false) (hmachine (.complete d))
  | failed => rfl

theorem methodMachine_line (m : MethodMachine) (line : Nat) :
    σ.methodMachine (m.mapDraft fun d => { d with line }) = σ.methodMachine m := by
  cases m <;> rfl

/-- The machine that reads methods goes the same way. -/
theorem method_accept (h : σ.Owners o o') (m : MethodMachine) (t : TokenTree) :
    outcome σ.methodMachine ((σ.methodMachine m).accept o' (σ.tree t)) =
      outcome σ.methodMachine (m.accept o t) := by
  unfold MethodMachine.accept
  rw [h.language, h.typeFirst, kind_tree]
  dsimp only
  split
  · exact congrArg (·, false) (methodMachine_methodMachine σ m)
  · exact outcome_noted (method_acceptTypeFirst σ h m t) (methodMachine_line σ · _)
      (methodMachine_line σ · _)

/-! ## Constants -/

/-- What is compared of a constant that is being read. -/
def enumMemberDraft (d : EnumMemberDraft) : EnumMemberDraft where
  name := σ.name d.name
  arguments? := d.arguments?.map fun _ => default
  value := []

/-- What is compared of how much of a constant is read. -/
def enumMemberStage : EnumMemberStage → EnumMemberStage
  | .head skip => .head skip
  | .afterName d => .afterName (σ.enumMemberDraft d)
  | .value d => .value (σ.enumMemberDraft d)
  | .complete d => .complete (σ.enumMemberDraft d)
  | .failed => .failed

/-- What is compared of the machine that reads constants. -/
def enumMemberMachine (m : EnumMemberMachine) : EnumMemberMachine :=
  { m with stage := σ.enumMemberStage m.stage }

theorem enumMemberDraft_enumMemberDraft (d : EnumMemberDraft) :
    σ.enumMemberDraft (σ.enumMemberDraft d) = σ.enumMemberDraft d := by
  simp only [enumMemberDraft, σ.name_name, Option.map_map, Function.comp_def]

theorem enumMemberStage_enumMemberStage (s : EnumMemberStage) :
    σ.enumMemberStage (σ.enumMemberStage s) = σ.enumMemberStage s := by
  cases s <;> simp only [enumMemberStage, enumMemberDraft_enumMemberDraft]

theorem enumMemberMachine_mk (stage : EnumMemberStage) (listEnded : Bool) :
    σ.enumMemberMachine ⟨stage, listEnded⟩ = ⟨σ.enumMemberStage stage, listEnded⟩ := rfl

theorem isConstantName_token (t : Token) :
    EnumMemberMachine.isConstantName (σ.token t) = EnumMemberMachine.isConstantName t := by
  have hmarks : ∀ c, (['.', '<'].contains c) = true → Text.isBlank c = false := by
    intro c hc
    have hall : (['.', '<'].all fun c => !Text.isBlank c) = true := by decide
    simpa using List.all_eq_true.1 hall c (List.contains_iff_mem.1 hc)
  rw [EnumMemberMachine.isConstantName, EnumMemberMachine.isConstantName, kind_token]
  by_cases h : t.kind = .identifier
  · rw [any_identifier h hmarks]
  · rw [beq_eq_false_iff_ne.2 h, Bool.false_and, Bool.false_and]

/-- The machine that reads constants goes the same way. -/
theorem enumMember_accept (h : σ.Owners o o') (m : EnumMemberMachine) (t : TokenTree) :
    outcome σ.enumMemberMachine ((σ.enumMemberMachine m).accept o' (σ.tree t)) =
      outcome σ.enumMemberMachine (m.accept o t) := by
  have hdraft := enumMemberDraft_enumMemberDraft σ
  have hstage := enumMemberStage_enumMemberStage σ
  obtain ⟨stage, listEnded⟩ := m
  cases hskip : listEnded || t.kind == .comment with
  | true =>
      simp only [EnumMemberMachine.accept, enumMemberMachine, kind_tree, hskip, if_true,
        outcome_leave, hstage]
  | false =>
      simp only [EnumMemberMachine.accept, enumMemberMachine, kind_tree, hskip, h.language,
        Bool.false_eq_true, if_false, value_tree, isBlock_token, isOperator_token,
        isSeparator_token, annotationSkip_token, isConstantName_token]
      cases stage with
      | head skip =>
          simp only [enumMemberStage]
          rcases AnnotationSkip.step o.language skip t.value with ⟨skip, _ | _⟩
          · dsimp only
            cases hname : EnumMemberMachine.isConstantName t.value with
            | true =>
                have hkind : t.value.kind = .identifier := by
                  simpa using (Bool.and_eq_true_iff.1 hname).1
                rw [text_tree, text_identifier hkind]
                simp [enumMemberMachine_mk, enumMemberStage, enumMemberDraft, σ.name_word]
            | false => cases t.value.isSeparator ";" <;> rfl
          · rfl
      | afterName d =>
          have hnone : (σ.enumMemberDraft d).arguments?.isNone = d.arguments?.isNone := by
            simp [enumMemberDraft]
          simp only [enumMemberStage, hnone, outcome_ite, outcome_take, outcome_leave,
            enumMemberMachine_mk, hdraft]
          simp [enumMemberDraft, σ.name_name]
      | value d =>
          simp only [enumMemberStage, outcome_ite, outcome_take, enumMemberMachine_mk, hdraft]
          simp [enumMemberDraft, σ.name_name, Function.comp_def]
      | complete d => simp only [enumMemberStage, outcome_leave, enumMemberMachine_mk, hdraft]
      | failed => rfl

/-! ## Annotations -/

/-- What is compared of the machine that reads annotations. -/
def annotationMachine : AnnotationMachine → AnnotationMachine
  | .arguments _ => .arguments ""
  | .complete _ => .complete []
  | m => m

/-- The machine that reads annotations goes the same way. -/
theorem annotation_accept (l : Language) (m : AnnotationMachine) (t : TokenTree) :
    outcome annotationMachine ((annotationMachine m).accept l (σ.tree t)) =
      outcome annotationMachine (m.accept l t) := by
  unfold AnnotationMachine.accept
  rw [kind_tree]
  split
  · cases m <;> rfl
  · cases hl : l.annotationStyle with
    | bracketed =>
        cases m with
        | idle =>
            simp only [annotationMachine, value_tree, isBlock_token]
            cases hblock : t.value.isBlock '[' with
            | false => rfl
            | true =>
                simp only [if_true, annotations_isEmpty, outcome_ite, outcome_take,
                  outcome_leave, annotationMachine]
        | _ => rfl
    | atSign =>
        cases m with
        | arguments n =>
            simp only [annotationMachine, value_tree, isBlock_token, outcome_ite, outcome_take,
              outcome_leave]
        | idle => simp only [annotationMachine, value_tree, isSeparator_token]
        | name =>
            simp only [annotationMachine, outcome_ite, outcome_take, outcome_leave]
        | _ => rfl

end Outline.Spelling
