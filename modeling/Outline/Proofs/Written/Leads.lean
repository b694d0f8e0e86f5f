import Outline.Proofs.Written.Remnants

/-!
# Comments and annotations in front of a declaration

* `Extractor.field_leads`, `Extractor.method_leads` — the machines that read members keep of them
  what `Remnant` tells, and end no member.
-/

namespace Outline

namespace Remnant

/-- The state of the machine that reads fields. -/
def Fields (l : Language) : Remnant → FieldMachine → Prop
  | nothing, f => f = .idle
  | arguments, f => l.annotationStyle = .atSign ∧ f = .head (some .arguments) []
  | type r, f =>
    l.annotationStyle = .atSign ∧ ∃ line, f = .type { modifiers := [], line } (.found r)
  | parameters _ _, f => l.annotationStyle = .atSign ∧ f = .idle

/-- The state of the machine that reads methods. -/
def Methods (l : Language) : Remnant → MethodMachine → Prop
  | nothing, m => m = .idle
  | arguments, m => l.annotationStyle = .atSign ∧ m = .head false (some .arguments) [] []
  | type r, m =>
    l.annotationStyle = .atSign ∧ ∃ line, m = .type { modifiers := [], line } (.found r)
  | parameters r params, m =>
    l.annotationStyle = .atSign ∧ ∃ line, m = .afterParams {
      modifiers := [], returnType? := some r, name := r.name, params, line }

variable {l : Language} {x : Remnant} {f : FieldMachine} {m : MethodMachine}

theorem Fields.isFailed (h : x.Fields l f) : (Extractor.field f).isFailed = false := by
  cases x with
  | nothing => obtain rfl := h; rfl
  | arguments => obtain ⟨-, rfl⟩ := h; rfl
  | type r => obtain ⟨-, line, rfl⟩ := h; rfl
  | parameters r params => obtain ⟨-, rfl⟩ := h; rfl

theorem Fields.isComplete (h : x.Fields l f) : (Extractor.field f).isComplete = false := by
  cases x with
  | nothing => obtain rfl := h; rfl
  | arguments => obtain ⟨-, rfl⟩ := h; rfl
  | type r => obtain ⟨-, line, rfl⟩ := h; rfl
  | parameters r params => obtain ⟨-, rfl⟩ := h; rfl

/-- Nothing is kept of annotations in square brackets. -/
theorem Fields.of_bracketed (h : x.Fields l f) (hl : l.annotationStyle = .bracketed) :
    x = nothing ∧ f = .idle := by
  cases x with
  | nothing => exact ⟨rfl, h⟩
  | _ => exact absurd (hl.symm.trans h.1) (by decide)

theorem Methods.isFailed (h : x.Methods l m) : (Extractor.method m).isFailed = false := by
  cases x with
  | nothing => obtain rfl := h; rfl
  | arguments => obtain ⟨-, rfl⟩ := h; rfl
  | type r => obtain ⟨-, line, rfl⟩ := h; rfl
  | parameters r params => obtain ⟨-, line, rfl⟩ := h; rfl

theorem Methods.isComplete (h : x.Methods l m) : (Extractor.method m).isComplete = false := by
  cases x with
  | nothing => obtain rfl := h; rfl
  | arguments => obtain ⟨-, rfl⟩ := h; rfl
  | type r => obtain ⟨-, line, rfl⟩ := h; rfl
  | parameters r params => obtain ⟨-, line, rfl⟩ := h; rfl

theorem Methods.of_bracketed (h : x.Methods l m) (hl : l.annotationStyle = .bracketed) :
    x = nothing ∧ m = .idle := by
  cases x with
  | nothing => exact ⟨rfl, h⟩
  | _ => exact absurd (hl.symm.trans h.1) (by decide)

end Remnant

namespace Extractor

open FieldMachine (acceptTypeFirst)

variable {o : Owner} {t : TokenTree}

/-! ## Comments -/

/-- A comment is left by every machine but one. -/
theorem comment_leaves {e : Extractor} (ht : t.kind = .comment)
    (he : (∃ f, e = field f) ∨ (∃ m, e = method m) ∨ ∃ a, e = annotations a)
    (hf : e.isFailed = false) (hc : e.isComplete = false) : respond o t e = ⟨e, [], false⟩ := by
  have htest : (t.value.kind == .comment) = true := beq_iff_eq.2 ht
  refine respond_of_going (s := .leave e) ?_ hf hc
  rcases he with ⟨f, rfl⟩ | ⟨m, rfl⟩ | ⟨a, rfl⟩
  · simp only [accept, FieldMachine.accept, htest, if_true]
    rfl
  · simp only [accept, MethodMachine.accept, TokenTree.kind, htest, if_true]
    rfl
  · simp only [accept, AnnotationMachine.accept, TokenTree.kind, htest, if_true]
    rfl

/-- The other one reads it. -/
theorem comment_reads (ht : t.kind = .comment) :
    respond o t (comment none) =
      ⟨comment none, [comment (some (Text.commentText t.text))], true⟩ := by
  have hs : (comment none).accept o t = .take (comment (some (Text.commentText t.text))) := by
    simp only [accept, ht, beq_self_eq_true, if_true]
  exact respond_of_taken_complete hs rfl rfl rfl

/-- And no other token. -/
theorem comment_passes (ht : t.kind ≠ .comment) :
    respond o t (comment none) = ⟨comment none, [], false⟩ := by
  have hs : (comment none).accept o t = .leave (comment none) := by
    have ht : (t.kind == .comment) = false := beq_eq_false_iff_ne.2 ht
    simp only [accept, ht, Bool.false_eq_true, if_false]
  exact respond_of_going hs rfl rfl

/-! ## The machine that reads fields -/

theorem kind_ne_of_isSeparator {sep : String} (h : t.value.isSeparator sep = true) :
    t.kind ≠ .comment := by
  show t.value.kind ≠ _
  rw [Token.kind_of_isSeparator h]
  decide

theorem kind_ne_of_isBlock {b : Char} (h : t.value.isBlock b = true) : t.kind ≠ .comment := by
  show t.value.kind ≠ _
  rw [Token.kind_of_isBlock h]
  decide

/-- An at sign starts an annotation. -/
theorem field_sign (hl : o.language.memberOrder = .typeFirst)
    (hstyle : o.language.annotationStyle = .atSign) (h : t.value.isSeparator "@" = true) :
    respond o t (field .idle) = ⟨field (.head (some .name) []), [], true⟩ := by
  have haccept : acceptTypeFirst o.language .idle t.value = .take (.head (some .name) []) := by
    simp [FieldMachine.idle, acceptTypeFirst, FieldMachine.acceptHead, AnnotationSkip.step, hstyle,
      h]
  exact field_takes hl (kind_ne_of_isSeparator h) haccept rfl rfl

/-- Behind the name of an annotation, it is lost. -/
theorem field_sign_lost (hl : o.language.memberOrder = .typeFirst)
    (hstyle : o.language.annotationStyle = .atSign) (h : t.value.isSeparator "@" = true) :
    respond o t (field (.head (some .arguments) [])) = ⟨field .idle, [], false⟩ := by
  have hkind := Token.kind_of_isSeparator h
  have hblock : t.value.isBlock '(' = false := Token.isBlock_eq_false (by rw [hkind]; decide) '('
  have haccept : acceptTypeFirst o.language (.head (some .arguments) []) t.value =
      .leave .idle := by
    simp [FieldMachine.idle, acceptTypeFirst, FieldMachine.acceptHead, AnnotationSkip.step, hstyle,
      hblock, Language.marks, TypeMachine.starts, hkind]
  exact field_leaves hl (kind_ne_of_isSeparator h) haccept rfl rfl

/-- Behind a type, it starts an annotation. -/
theorem field_sign_typed {d : FieldDraft} {r : TypeRef} (hl : o.language.memberOrder = .typeFirst)
    (h : t.value.isSeparator "@" = true) :
    respond o t (field (.type d (.found r))) = respond o t (field .idle) := by
  have hkind := Token.kind_of_isSeparator h
  have hop : ∀ op, t.value.isOperator op = false :=
    Token.isOperator_eq_false (by rw [hkind]; decide)
  have haccept := FieldMachine.accept_found (d := d) (r := r) hl (hop "?") (hop "...")
  rw [FieldMachine.acceptName, hkind] at haccept
  exact field_retries hl (kind_ne_of_isSeparator h) haccept rfl

/-- The name of an annotation. -/
theorem field_skip_name (hl : o.language.memberOrder = .typeFirst)
    (hstyle : o.language.annotationStyle = .atSign) (h : t.kind = .identifier) :
    respond o t (field (.head (some .name) [])) =
      ⟨field (.head (some .arguments) []), [], true⟩ := by
  have haccept : acceptTypeFirst o.language (.head (some .name) []) t.value =
      .take (.head (some .arguments) []) := by
    have h : t.value.kind = .identifier := h
    simp [acceptTypeFirst, FieldMachine.acceptHead, AnnotationSkip.step, hstyle, h]
  exact field_takes hl (by rw [h]; decide) haccept rfl rfl

/-- The arguments of an annotation. -/
theorem field_skip_block (hl : o.language.memberOrder = .typeFirst)
    (hstyle : o.language.annotationStyle = .atSign) (h : t.value.isBlock '(' = true) :
    respond o t (field (.head (some .arguments) [])) = ⟨field .idle, [], true⟩ := by
  have haccept : acceptTypeFirst o.language (.head (some .arguments) []) t.value = .take .idle := by
    simp [FieldMachine.idle, acceptTypeFirst, FieldMachine.acceptHead, AnnotationSkip.step, hstyle,
      h]
  exact field_takes hl (kind_ne_of_isBlock h) haccept rfl rfl

/-- The name of an annotation whose at sign is lost. -/
theorem field_name_type (hl : o.language.memberOrder = .typeFirst) (h : t.kind = .identifier) :
    respond o t (field .idle) = ⟨field (match TypeRef.parse t.text with
      | .ok r => .type { modifiers := [], line := t.span.last.line } (.found r)
      | .error _ => .idle), [], true⟩ := by
  have hstarts : TypeMachine.starts o.language false t.value = true := by
    have h : t.value.kind = .identifier := h
    rw [TypeMachine.starts, h]
  cases hparse : TypeRef.parse t.text with
  | ok r => exact field_type hl hstarts hparse []
  | error e =>
      have hmark : o.language.marks .fieldModifier t.value = false :=
        Language.not_marks_of_starts hl (by decide) hstarts
      have haccept : acceptTypeFirst o.language .idle t.value =
          ⟨.failed, true, [⟨t.text, e⟩]⟩ := by
        simp only [FieldMachine.idle, acceptTypeFirst, FieldMachine.acceptHead,
          FieldMachine.step_word (Or.inr h), hmark, hstarts, Bool.false_eq_true, if_false, if_true]
        rw [FieldMachine.acceptType_start hl hstarts, hparse]
      exact field_dies hl (by rw [h]; decide) haccept

/-- A block in parentheses makes the machine give up. -/
theorem field_paren {f : FieldMachine} (hl : o.language.memberOrder = .typeFirst)
    (h : t.value.isBlock '(' = true) (hf : f.rank ≤ 1) :
    respond o t (field f) = ⟨field .idle, [], false⟩ := by
  have hkind := Token.kind_of_isBlock h
  exact field_calm_leaves hl hf (Or.inr hkind)
    (Token.isSeparator_eq_false (by rw [hkind]; decide) "@") (Token.isBlock_ne h (by decide))

/-- The name and the arguments of an annotation whose at sign is lost. -/
theorem field_lost_lead (hl : o.language.memberOrder = .typeFirst)
    (hstyle : o.language.annotationStyle = .atSign) {name : TokenTree}
    {arguments? : Option TokenTree} (hname : name.kind = .identifier)
    (hblock : ∀ b ∈ arguments?, b.value.isBlock '(' = true) :
    ∃ f', Passes o (field .idle) (name :: arguments?.toList) (field f') ∧
      Remnant.Fields o.language (.ofName o name arguments?) f' := by
  have htype := field_name_type hl hname
  simp only [Remnant.ofName]
  cases hparse : TypeRef.parse name.text with
  | error e =>
      rw [hparse] at htype
      cases arguments? with
      | none => exact ⟨.idle, .one htype, rfl⟩
      | some b =>
          have hparen := field_paren (o := o) (f := .idle) hl (hblock b rfl) (Nat.zero_le 1)
          exact ⟨.idle, .cons htype (.one hparen), rfl⟩
  | ok r =>
      rw [hparse] at htype
      cases arguments? with
      | none => exact ⟨_, .one htype, hstyle, _, rfl⟩
      | some b =>
          have hparen {d : FieldDraft} := field_paren (o := o) (f := .type d (.found r)) hl
            (hblock b rfl) (Nat.le_refl 1)
          refine ⟨.idle, .cons htype (.one hparen), ?_⟩
          simp only
          split
          · split
            · exact ⟨hstyle, rfl⟩
            · rfl
          · rfl

/-- An annotation. -/
theorem field_mark_lead {x : Remnant} {f : FieldMachine}
    (hl : o.language.memberOrder = .typeFirst) (hx : Remnant.Fields o.language x f)
    {start name : TokenTree} {arguments? : Option TokenTree}
    (hstyle : o.language.annotationStyle = .atSign) (hstart : start.value.isSeparator "@" = true)
    (hname : name.kind = .identifier) (hblock : ∀ b ∈ arguments?, b.value.isBlock '(' = true) :
    ∃ f', Passes o (field f) (start :: name :: arguments?.toList) (field f') ∧
      Remnant.Fields o.language
        (x.after o (.mark (.sign start name arguments? hstyle hstart hname hblock))) f' := by
  have hfresh : ∀ f, respond o start (field f) = ⟨field (.head (some .name) []), [], true⟩ →
      ∃ f', Passes o (field f) (start :: name :: arguments?.toList) (field f') ∧
        Remnant.Fields o.language (if arguments?.isSome then .nothing else .arguments) f' := by
    intro f hf
    cases arguments? with
    | none =>
        exact ⟨_, .cons hf (.one (field_skip_name hl hstyle hname)), hstyle, rfl⟩
    | some b =>
        exact ⟨.idle, .cons hf (.cons (field_skip_name hl hstyle hname)
          (.one (field_skip_block hl hstyle (hblock b rfl)))), rfl⟩
  cases x with
  | nothing =>
      obtain rfl := hx
      exact hfresh _ (field_sign hl hstyle hstart)
  | type r =>
      obtain ⟨-, line, rfl⟩ := hx
      exact hfresh _ ((field_sign_typed hl hstart).trans (field_sign hl hstyle hstart))
  | parameters r ps =>
      obtain ⟨-, rfl⟩ := hx
      exact hfresh _ (field_sign hl hstyle hstart)
  | arguments =>
      obtain ⟨-, rfl⟩ := hx
      obtain ⟨f', hrest, hf'⟩ := field_lost_lead hl hstyle hname hblock
      exact ⟨f', .cons (field_sign_lost hl hstyle hstart) hrest, hf'⟩

/-- Annotations in square brackets. -/
theorem field_brackets (hl : o.language.memberOrder = .typeFirst)
    (hstyle : o.language.annotationStyle = .bracketed) (h : t.value.isBlock '[' = true) :
    respond o t (field .idle) = ⟨field .idle, [], true⟩ := by
  have haccept : acceptTypeFirst o.language .idle t.value = .take .idle := by
    simp [FieldMachine.idle, acceptTypeFirst, FieldMachine.acceptHead, AnnotationSkip.step, hstyle,
      h]
  exact field_takes hl (kind_ne_of_isBlock h) haccept rfl rfl

/-- What stands in front of a declaration. -/
theorem field_lead {x : Remnant} {f : FieldMachine} (hl : o.language.memberOrder = .typeFirst)
    (hx : x.Fields o.language f) (lead : WrittenLead o.language) :
    ∃ f', Passes o (field f) lead.tokens (field f') ∧ (x.after o lead).Fields o.language f' := by
  cases lead with
  | comment token isComment =>
      have hleaves := comment_leaves (o := o) isComment (Or.inl ⟨f, rfl⟩) hx.isFailed hx.isComplete
      exact ⟨f, .one hleaves, hx⟩
  | mark m =>
      cases m with
      | sign start name arguments? hstyle hstart hname hblock =>
          exact field_mark_lead hl hx hstyle hstart hname hblock
      | brackets block hstyle isBlock found =>
          obtain ⟨rfl, rfl⟩ := hx.of_bracketed hstyle
          exact ⟨.idle, .one (field_brackets hl hstyle isBlock), rfl⟩

theorem field_leads {x : Remnant} {f : FieldMachine} (hl : o.language.memberOrder = .typeFirst)
    (hx : x.Fields o.language f) (leads : List (WrittenLead o.language)) :
    ∃ f', Passes o (field f) (leads.flatMap (·.tokens)) (field f') ∧
      (leads.foldl (Remnant.after o) x).Fields o.language f' := by
  induction leads generalizing x f with
  | nil => exact ⟨f, .nil _, hx⟩
  | cons lead leads ih =>
      obtain ⟨f', hpasses, hx'⟩ := field_lead hl hx lead
      obtain ⟨last, hrest, hlast⟩ := ih hx'
      exact ⟨last, hpasses.append hrest, hlast⟩

/-! ## The machine that reads methods -/

/-- An at sign starts an annotation. -/
theorem method_sign (hl : o.language.memberOrder = .typeFirst)
    (hstyle : o.language.annotationStyle = .atSign) (h : t.value.isSeparator "@" = true) :
    respond o t (method .idle) = ⟨method (.head false (some .name) [] []), [], true⟩ := by
  have haccept : MethodMachine.acceptTypeFirst o .idle t =
      .take (.head false (some .name) [] []) := by
    simp [MethodMachine.idle, MethodMachine.acceptTypeFirst, AnnotationSkip.step, hstyle, h]
  exact method_takes hl (kind_ne_of_isSeparator h) haccept rfl rfl

/-- Behind the name of an annotation, it is lost. -/
theorem method_sign_lost (hl : o.language.memberOrder = .typeFirst)
    (hstyle : o.language.annotationStyle = .atSign) (h : t.value.isSeparator "@" = true) :
    respond o t (method (.head false (some .arguments) [] [])) = ⟨method .idle, [], false⟩ := by
  have hkind := Token.kind_of_isSeparator h
  have hblock : t.value.isBlock '(' = false := Token.isBlock_eq_false (by rw [hkind]; decide) '('
  have hangle : t.value.isOperator "<" = false :=
    Token.isOperator_eq_false (by rw [hkind]; decide) "<"
  have haccept : MethodMachine.acceptTypeFirst o (.head false (some .arguments) [] []) t =
      .leave .idle := by
    simp [MethodMachine.idle, MethodMachine.acceptTypeFirst, AnnotationSkip.step, hstyle, hblock,
      hangle, Language.marks, TypeMachine.starts, hkind, MethodMachine.leaveHead]
  exact method_leaves hl (kind_ne_of_isSeparator h) haccept rfl rfl

/-- Behind a type, it starts an annotation. -/
theorem method_sign_typed {r : TypeRef} {line : Nat} (hl : o.language.memberOrder = .typeFirst)
    (h : t.value.isSeparator "@" = true) :
    respond o t (method (.type { modifiers := [], line } (.found r))) =
      respond o t (method .idle) := by
  have hkind : t.kind = .separator := Token.kind_of_isSeparator h
  have hop : ∀ op, t.value.isOperator op = false :=
    Token.isOperator_eq_false (by show t.kind ≠ _; rw [hkind]; decide)
  exact method_typed_retries hl (Or.inl ⟨line, rfl⟩) (kind_ne_of_isSeparator h)
    (by rw [hkind]; decide) (hop "?") (hop "...")
    (Token.isBlock_eq_false (by show t.kind ≠ _; rw [hkind]; decide) '(')

/-- So it does behind parameters. -/
theorem method_sign_params {d : MethodDraft} (hl : o.language.memberOrder = .typeFirst)
    (h : t.value.isSeparator "@" = true) :
    respond o t (method (.afterParams d)) = respond o t (method .idle) := by
  have hkind := Token.kind_of_isSeparator h
  have hop : ∀ op, t.value.isOperator op = false :=
    Token.isOperator_eq_false (by rw [hkind]; decide)
  have hclause : MethodMachine.startsClause t.value = false := by
    simp [MethodMachine.startsClause, Token.isKeyword, hop, hkind]
  have hbody : MethodMachine.isBody t.value = false := by
    rw [MethodMachine.isBody, Token.isSeparator_ne h (by decide),
      Token.isBlock_eq_false (by rw [hkind]; decide)]
    rfl
  exact method_params_retries hl (kind_ne_of_isSeparator h) hclause hbody (hop "=>")

/-- The name of an annotation. -/
theorem method_skip_name (hl : o.language.memberOrder = .typeFirst)
    (hstyle : o.language.annotationStyle = .atSign) (h : t.kind = .identifier) :
    respond o t (method (.head false (some .name) [] [])) =
      ⟨method (.head false (some .arguments) [] []), [], true⟩ := by
  have haccept : MethodMachine.acceptTypeFirst o (.head false (some .name) [] []) t =
      .take (.head false (some .arguments) [] []) := by
    have h : t.value.kind = .identifier := h
    simp [MethodMachine.acceptTypeFirst, AnnotationSkip.step, hstyle, h]
  exact method_takes hl (by rw [h]; decide) haccept rfl rfl

/-- The arguments of an annotation. -/
theorem method_skip_block (hl : o.language.memberOrder = .typeFirst)
    (hstyle : o.language.annotationStyle = .atSign) (h : t.value.isBlock '(' = true) :
    respond o t (method (.head false (some .arguments) [] [])) = ⟨method .idle, [], true⟩ := by
  have haccept : MethodMachine.acceptTypeFirst o (.head false (some .arguments) [] []) t =
      .take .idle := by
    simp [MethodMachine.idle, MethodMachine.acceptTypeFirst, AnnotationSkip.step, hstyle, h]
  exact method_takes hl (kind_ne_of_isBlock h) haccept rfl rfl

/-- The name of an annotation whose at sign is lost. -/
theorem method_name_type (hl : o.language.memberOrder = .typeFirst) (h : t.kind = .identifier) :
    respond o t (method .idle) = ⟨method (match TypeRef.parse t.text with
      | .ok r => .type { modifiers := [], line := t.span.last.line } (.found r)
      | .error _ => .idle), [], true⟩ := by
  have hstarts : TypeMachine.starts o.language true t.value = true := by
    have h : t.value.kind = .identifier := h
    rw [TypeMachine.starts, h]
  cases hparse : TypeRef.parse t.text with
  | ok r => exact method_type hl hstarts hparse false [] []
  | error e =>
      have hmark : o.language.marks .methodModifier t.value = false :=
        Language.not_marks_of_starts hl (by decide) hstarts
      have hangle : t.value.isOperator "<" = false :=
        Token.isOperator_eq_false (by show t.kind ≠ _; rw [h]; decide) "<"
      have haccept : MethodMachine.acceptTypeFirst o .idle t =
          ⟨.failed, true, [⟨t.text, e⟩]⟩ := by
        simp only [MethodMachine.idle, MethodMachine.acceptTypeFirst,
          FieldMachine.step_word (Or.inr h), hmark, hangle, hstarts, Bool.false_and,
          Bool.false_eq_true, if_false, if_true]
        rw [MethodMachine.acceptType_start hl hstarts, hparse]
      exact method_dies hl (by rw [h]; decide) haccept

/-- A block in parentheses says nothing to an idle machine. -/
theorem method_paren (hl : o.language.memberOrder = .typeFirst)
    (h : t.value.isBlock '(' = true) :
    respond o t (method .idle) = ⟨method .idle, [], false⟩ := by
  have hkind := Token.kind_of_isBlock h
  exact method_calm_leaves hl (Nat.zero_le 2) (Or.inr hkind)
    (Token.isSeparator_eq_false (by rw [hkind]; decide) "@") (Token.isBlock_ne h (by decide))
    fun h => absurd rfl h

/-- The name and the arguments of an annotation whose at sign is lost. -/
theorem method_lost_lead (hl : o.language.memberOrder = .typeFirst)
    (hstyle : o.language.annotationStyle = .atSign) {name : TokenTree}
    {arguments? : Option TokenTree} (hname : name.kind = .identifier)
    (hblock : ∀ b ∈ arguments?, b.value.isBlock '(' = true) :
    ∃ m', Passes o (method .idle) (name :: arguments?.toList) (method m') ∧
      Remnant.Methods o.language (.ofName o name arguments?) m' := by
  have htype := method_name_type hl hname
  simp only [Remnant.ofName]
  cases hparse : TypeRef.parse name.text with
  | error e =>
      rw [hparse] at htype
      cases arguments? with
      | none => exact ⟨.idle, .one htype, rfl⟩
      | some b =>
          have hb := method_paren hl (hblock b rfl)
          exact ⟨.idle, .cons htype (.one hb), rfl⟩
  | ok r =>
      rw [hparse] at htype
      cases arguments? with
      | none => exact ⟨_, .one htype, hstyle, _, rfl⟩
      | some b =>
          -- the arguments are those of a constructor if the name is that of the declaration
          obtain ⟨line, taken, hparens⟩ := method_parens hl
            (Or.inl ⟨name.span.last.line, rfl⟩ : MethodTyped _ [] r) (hblock b rfl)
          by_cases howner : namesOwner o r = true
          · simp only [howner, if_true] at hparens ⊢
            cases hps : (Parameter.ofParens o.language b).1 with
            | some ps =>
                rw [hps] at hparens
                exact ⟨_, .cons htype (.one hparens), hstyle, line, rfl⟩
            | none =>
                rw [hps] at hparens
                exact ⟨.idle, .cons htype (.one hparens), rfl⟩
          · simp only [howner, Bool.false_eq_true, if_false] at hparens ⊢
            have hb := hparens.trans (method_paren hl (hblock b rfl))
            exact ⟨.idle, .cons htype (.one hb), rfl⟩

/-- An annotation. -/
theorem method_mark_lead {x : Remnant} {m : MethodMachine}
    (hl : o.language.memberOrder = .typeFirst) (hx : Remnant.Methods o.language x m)
    {start name : TokenTree} {arguments? : Option TokenTree}
    (hstyle : o.language.annotationStyle = .atSign) (hstart : start.value.isSeparator "@" = true)
    (hname : name.kind = .identifier) (hblock : ∀ b ∈ arguments?, b.value.isBlock '(' = true) :
    ∃ m', Passes o (method m) (start :: name :: arguments?.toList) (method m') ∧
      Remnant.Methods o.language
        (x.after o (.mark (.sign start name arguments? hstyle hstart hname hblock))) m' := by
  have hfresh : ∀ m, respond o start (method m) =
      ⟨method (.head false (some .name) [] []), [], true⟩ →
      ∃ m', Passes o (method m) (start :: name :: arguments?.toList) (method m') ∧
        Remnant.Methods o.language (if arguments?.isSome then .nothing else .arguments) m' := by
    intro m hm
    cases arguments? with
    | none =>
        exact ⟨_, .cons hm (.one (method_skip_name hl hstyle hname)), hstyle, rfl⟩
    | some b =>
        exact ⟨.idle, .cons hm (.cons (method_skip_name hl hstyle hname)
          (.one (method_skip_block hl hstyle (hblock b rfl)))), rfl⟩
  cases x with
  | nothing =>
      obtain rfl := hx
      exact hfresh _ (method_sign hl hstyle hstart)
  | type r =>
      obtain ⟨-, line, rfl⟩ := hx
      exact hfresh _ ((method_sign_typed hl hstart).trans (method_sign hl hstyle hstart))
  | parameters r ps =>
      obtain ⟨-, line, rfl⟩ := hx
      exact hfresh _ ((method_sign_params hl hstart).trans (method_sign hl hstyle hstart))
  | arguments =>
      obtain ⟨-, rfl⟩ := hx
      obtain ⟨m', hrest, hm'⟩ := method_lost_lead hl hstyle hname hblock
      exact ⟨m', .cons (method_sign_lost hl hstyle hstart) hrest, hm'⟩

/-- Annotations in square brackets. -/
theorem method_brackets (hl : o.language.memberOrder = .typeFirst)
    (hstyle : o.language.annotationStyle = .bracketed) (h : t.value.isBlock '[' = true) :
    respond o t (method .idle) = ⟨method .idle, [], true⟩ := by
  have haccept : MethodMachine.acceptTypeFirst o .idle t = .take .idle := by
    simp [MethodMachine.idle, MethodMachine.acceptTypeFirst, AnnotationSkip.step, hstyle, h]
  exact method_takes hl (kind_ne_of_isBlock h) haccept rfl rfl

/-- What stands in front of a declaration. -/
theorem method_lead {x : Remnant} {m : MethodMachine} (hl : o.language.memberOrder = .typeFirst)
    (hx : x.Methods o.language m) (lead : WrittenLead o.language) :
    ∃ m', Passes o (method m) lead.tokens (method m') ∧ (x.after o lead).Methods o.language m' := by
  cases lead with
  | comment token isComment =>
      have hleaves :=
        comment_leaves (o := o) isComment (Or.inr (Or.inl ⟨m, rfl⟩)) hx.isFailed hx.isComplete
      exact ⟨m, .one hleaves, hx⟩
  | mark mark =>
      cases mark with
      | sign start name arguments? hstyle hstart hname hblock =>
          exact method_mark_lead hl hx hstyle hstart hname hblock
      | brackets block hstyle isBlock found =>
          obtain ⟨rfl, rfl⟩ := hx.of_bracketed hstyle
          exact ⟨.idle, .one (method_brackets hl hstyle isBlock), rfl⟩

theorem method_leads {x : Remnant} {m : MethodMachine} (hl : o.language.memberOrder = .typeFirst)
    (hx : x.Methods o.language m) (leads : List (WrittenLead o.language)) :
    ∃ m', Passes o (method m) (leads.flatMap (·.tokens)) (method m') ∧
      (leads.foldl (Remnant.after o) x).Methods o.language m' := by
  induction leads generalizing x m with
  | nil => exact ⟨m, .nil _, hx⟩
  | cons lead leads ih =>
      obtain ⟨m', hpasses, hx'⟩ := method_lead hl hx lead
      obtain ⟨last, hrest, hlast⟩ := ih hx'
      exact ⟨last, hpasses.append hrest, hlast⟩

end Extractor

end Outline
