import Outline.Proofs.Member.EnumMemberOffer
import Outline.Proofs.Written.Constants

/-!
# Constants as the machine that reads them reads them

Behind an annotation without arguments the machine that reads constants loses an at sign as the
others do, and reads the name of the next annotation as a constant.  It gives that up at the name
of the constant, from which it reads anew.

* `Extractor.Keeps` — a run of tokens in which a machine ends nothing and uses up every body.
* `Extractor.constant_keeps` — the machine reads a written constant, up to the token behind it.
* `Extractor.constant_stop`, `Extractor.constant_close` — a comma, a semicolon and the end of the
  body end the constant.
-/

namespace Outline

namespace EnumMemberMachine

variable {o : Owner} {t : TokenTree}

/-! ## What the machine makes of a token -/

theorem accept_head (ht : t.kind ≠ .comment) (skip : Option AnnotationSkip) :
    accept o ⟨.head skip, false⟩ t = match AnnotationSkip.step o.language skip t.value with
      | (skip, true) => .take ⟨.head skip, false⟩
      | (skip, false) =>
        if isConstantName t.value then .take ⟨.afterName { name := t.text }, false⟩
        else if t.value.isSeparator ";" then .take ⟨.head skip, true⟩
        else .leave ⟨.head skip, false⟩ :=
  if_neg (by simpa using ht)

theorem accept_afterName (ht : t.kind ≠ .comment) (d : EnumMemberDraft) :
    accept o ⟨.afterName d, false⟩ t =
      if t.value.isSeparator "," then .take ⟨.complete d, false⟩
      else if t.value.isSeparator ";" then .take ⟨.complete d, true⟩
      else if t.value.isOperator "=" then .take ⟨.value d, false⟩
      else if t.value.isBlock '(' && d.arguments?.isNone then
        .take ⟨.afterName { d with arguments? := some t }, false⟩
      else if t.value.isBlock '\x7b' then .take ⟨.afterName d, false⟩
      else .leave ⟨.failed, false⟩ :=
  if_neg (by simpa using ht)

theorem accept_value (ht : t.kind ≠ .comment) (d : EnumMemberDraft) :
    accept o ⟨.value d, false⟩ t =
      if t.value.isSeparator "," then .take ⟨.complete d, false⟩
      else if t.value.isSeparator ";" then .take ⟨.complete d, true⟩
      else .take ⟨.value { d with value := d.value ++ [t] }, false⟩ :=
  if_neg (by simpa using ht)

/-- Behind a name, a block belongs to the constant or to none. -/
theorem accept_block {b : Char} (h : t.value.isBlock b = true) (d : EnumMemberDraft) :
    accept o ⟨.afterName d, false⟩ t =
      if t.value.isBlock '(' && d.arguments?.isNone then
        .take ⟨.afterName { d with arguments? := some t }, false⟩
      else if t.value.isBlock '\x7b' then .take ⟨.afterName d, false⟩
      else .leave ⟨.failed, false⟩ := by
  have hkind := Token.kind_of_isBlock h
  have hsep : ∀ sep, t.value.isSeparator sep = false :=
    Token.isSeparator_eq_false (by rw [hkind]; decide)
  have hop : ∀ op, t.value.isOperator op = false :=
    Token.isOperator_eq_false (by rw [hkind]; decide)
  simp [accept_afterName (Extractor.kind_ne_of_isBlock h), hsep, hop]

theorem isConstantName_eq_false {t : Token} (h : t.kind ≠ .identifier) :
    isConstantName t = false := by
  rw [isConstantName, beq_eq_false_iff_ne.2 h, Bool.false_and]

/-- A word is the name of a constant. -/
theorem isConstantName_word (h : IsName t) : isConstantName t.value = true := by
  rw [isConstantName, Bool.and_eq_true]
  refine ⟨beq_iff_eq.2 h.identifier, ?_⟩
  rw [Bool.not_eq_true', List.any_eq_false]
  intro c hc
  simp [Text.ne_of_isWord h.word hc (by decide : '.' ∈ Text.typeMarks),
    Text.ne_of_isWord h.word hc (by decide : '<' ∈ Text.typeMarks)]

end EnumMemberMachine

namespace Extractor

variable {o : Owner} {t : TokenTree} {e e' : Extractor} {ts us : List TokenTree}
  {m m' : EnumMemberMachine}

/-! ## From steps to responses -/

theorem constant_takes (h : m.accept o t = .take m') (hf : m'.isFailed = false)
    (hc : m'.isComplete = false) : respond o t (enumMember m) = ⟨enumMember m', [], true⟩ := by
  have hs : (enumMember m).accept o t = .take (enumMember m') := by
    rw [accept, h]
    rfl
  exact respond_of_going hs hf hc

theorem constant_leaves (h : m.accept o t = .leave m') (hf : m'.isFailed = false)
    (hc : m'.isComplete = false) : respond o t (enumMember m) = ⟨enumMember m', [], false⟩ := by
  have hs : (enumMember m).accept o t = .leave (enumMember m') := by
    rw [accept, h]
    rfl
  exact respond_of_going hs hf hc

theorem constant_ends {d : EnumMemberDraft} {ended : Bool}
    (h : m.accept o t = .take ⟨.complete d, ended⟩) : respond o t (enumMember m) =
      ⟨enumMember ⟨.head none, ended⟩, [enumMember ⟨.complete d, ended⟩], true⟩ := by
  have hs : (enumMember m).accept o t = .take (enumMember ⟨.complete d, ended⟩) := by
    rw [accept, h]
    rfl
  exact respond_of_taken_complete hs rfl rfl rfl

theorem constant_retries (ht : t.kind ≠ .comment) (h : m.accept o t = .leave ⟨.failed, false⟩)
    (hm : m.isIdle = false) : respond o t (enumMember m) = respond o t (enumMember {}) := by
  have hs : (enumMember m).accept o t = .leave (enumMember ⟨.failed, false⟩) := by
    rw [accept, h]
    rfl
  exact respond_of_left_failed hs rfl rfl hm rfl (restart_enumMember (p := 0) ht).1

theorem constant_comment (ht : t.kind = .comment) (hf : m.isFailed = false)
    (hc : m.isComplete = false) : respond o t (enumMember m) = ⟨enumMember m, [], false⟩ := by
  refine constant_leaves ?_ hf hc
  rw [EnumMemberMachine.accept, beq_iff_eq.2 ht, Bool.or_true, if_pos rfl]

/-! ## Runs in which every body is used up -/

/-- A run of tokens in which a machine ends nothing and uses up every block in braces. -/
inductive Keeps (o : Owner) : Extractor → List TokenTree → Extractor → Prop where
  /-- There is no token. -/
  | nil (e : Extractor) : Keeps o e [] e
  /-- A token in front of others. -/
  | cons {e e' last : Extractor} {t : TokenTree} {ts : List TokenTree} {taken : Bool}
      (hstep : respond o t e = ⟨e', [], taken⟩)
      (hbrace : taken = true ∨ t.value.isBlock '\x7b' = false)
      (hrest : Keeps o e' ts last) : Keeps o e (t :: ts) last

namespace Keeps

variable {last : Extractor}

theorem append (h : Keeps o e ts e') (h' : Keeps o e' us last) : Keeps o e (ts ++ us) last := by
  induction h with
  | nil e => exact h'
  | cons hstep hbrace hrest ih => exact .cons hstep hbrace (ih h')

/-- A token that is used up, in front of others. -/
theorem taken (hstep : respond o t e = ⟨e', [], true⟩) (hrest : Keeps o e' ts last) :
    Keeps o e (t :: ts) last :=
  .cons hstep (Or.inl rfl) hrest

end Keeps

/-! ## In front of the name -/

/-- What the machine keeps of comments and annotations in front of a constant: nothing, the name of
an annotation, or such a name that it has read as that of a constant. -/
def Expects (l : Language) (m : EnumMemberMachine) : Prop :=
  m = {} ∨ l.annotationStyle = .atSign ∧
    (m = ⟨.head (some .arguments), false⟩ ∨ ∃ d, m = ⟨.afterName d, false⟩)

theorem Expects.going (h : Expects o.language m) :
    m.isFailed = false ∧ m.isComplete = false := by
  rcases h with rfl | ⟨-, rfl | ⟨d, rfl⟩⟩ <;> exact ⟨rfl, rfl⟩

/-- A name that has been read by mistake is given up at a word or an at sign. -/
theorem constant_renews {d : EnumMemberDraft} (ht : t.kind = .identifier ∨ t.kind = .separator)
    (hcomma : t.value.isSeparator "," = false) (hsemicolon : t.value.isSeparator ";" = false) :
    respond o t (enumMember ⟨.afterName d, false⟩) = respond o t (enumMember {}) := by
  have hnotComment : t.kind ≠ .comment := by rcases ht with h | h <;> rw [h] <;> decide
  have hequals : t.value.isOperator "=" = false := Token.isOperator_eq_false
    (by show t.kind ≠ _; rcases ht with h | h <;> rw [h] <;> decide) "="
  have hblock : ∀ b, t.value.isBlock b = false := Token.isBlock_eq_false
    (by show t.kind ≠ _; rcases ht with h | h <;> rw [h] <;> decide)
  refine constant_retries hnotComment ?_ rfl
  rw [EnumMemberMachine.accept_afterName hnotComment, hcomma, hsemicolon, hequals, hblock, hblock]
  rfl

/-- The name of a constant is read from anew. -/
theorem constant_name (hm : Expects o.language m) (h : IsName t) :
    respond o t (enumMember m) =
      ⟨enumMember ⟨.afterName { name := t.text }, false⟩, [], true⟩ := by
  have hnotComment : t.kind ≠ .comment := by rw [h.identifier]; decide
  have hsep : ∀ sep, t.value.isSeparator sep = false :=
    Token.isSeparator_eq_false (by show t.kind ≠ _; rw [h.identifier]; decide)
  have hblock : ∀ b, t.value.isBlock b = false :=
    Token.isBlock_eq_false (by show t.kind ≠ _; rw [h.identifier]; decide)
  have hhead : ∀ skip, (AnnotationSkip.step o.language skip t.value).2 = false →
      respond o t (enumMember ⟨.head skip, false⟩) =
        ⟨enumMember ⟨.afterName { name := t.text }, false⟩, [], true⟩ := by
    intro skip hskip
    refine constant_takes ?_ rfl rfl
    rw [EnumMemberMachine.accept_head hnotComment]
    split
    · rename_i hstep
      rw [hstep] at hskip
      cases hskip
    · rw [if_pos (EnumMemberMachine.isConstantName_word h)]
  have hidle : respond o t (enumMember {}) =
      ⟨enumMember ⟨.afterName { name := t.text }, false⟩, [], true⟩ := by
    refine hhead none ?_
    rw [FieldMachine.step_word (Or.inr h.identifier)]
  rcases hm with rfl | ⟨hstyle, rfl | ⟨d, rfl⟩⟩
  · exact hidle
  · refine hhead (some .arguments) ?_
    simp only [AnnotationSkip.step, hstyle, hblock]
  · exact (constant_renews (Or.inl h.identifier) (hsep _) (hsep _)).trans hidle

/-- An at sign starts an annotation. -/
theorem constant_sign (hstyle : o.language.annotationStyle = .atSign)
    (h : t.value.isSeparator "@" = true) :
    respond o t (enumMember {}) = ⟨enumMember ⟨.head (some .name), false⟩, [], true⟩ := by
  refine constant_takes ?_ rfl rfl
  rw [show ({} : EnumMemberMachine) = ⟨.head none, false⟩ from rfl,
    EnumMemberMachine.accept_head (kind_ne_of_isSeparator h)]
  simp only [AnnotationSkip.step, hstyle, h, if_true]

/-- Behind the name of an annotation, it is lost. -/
theorem constant_sign_lost (hstyle : o.language.annotationStyle = .atSign)
    (h : t.value.isSeparator "@" = true) :
    respond o t (enumMember ⟨.head (some .arguments), false⟩) =
      ⟨enumMember {}, [], false⟩ := by
  have hkind := Token.kind_of_isSeparator h
  have hblock : t.value.isBlock '(' = false := Token.isBlock_eq_false (by rw [hkind]; decide) '('
  have hname := EnumMemberMachine.isConstantName_eq_false (t := t.value) (by rw [hkind]; decide)
  refine constant_leaves ?_ rfl rfl
  rw [EnumMemberMachine.accept_head (kind_ne_of_isSeparator h)]
  simp [AnnotationSkip.step, hstyle, hblock, hname,
    Token.isSeparator_ne h (by decide : "@" ≠ ";")]

/-- The name of an annotation. -/
theorem constant_skip_name (hstyle : o.language.annotationStyle = .atSign)
    (h : t.kind = .identifier) :
    respond o t (enumMember ⟨.head (some .name), false⟩) =
      ⟨enumMember ⟨.head (some .arguments), false⟩, [], true⟩ := by
  refine constant_takes ?_ rfl rfl
  rw [EnumMemberMachine.accept_head (by rw [h]; decide)]
  simp only [AnnotationSkip.step, hstyle, show t.value.kind = _ from h, beq_self_eq_true, if_true]

/-- The arguments of an annotation. -/
theorem constant_skip_block (hstyle : o.language.annotationStyle = .atSign)
    (h : t.value.isBlock '(' = true) :
    respond o t (enumMember ⟨.head (some .arguments), false⟩) =
      ⟨enumMember {}, [], true⟩ := by
  refine constant_takes ?_ rfl rfl
  rw [EnumMemberMachine.accept_head (kind_ne_of_isBlock h)]
  simp only [AnnotationSkip.step, hstyle, h]

/-- A block in parentheses says nothing to an idle machine. -/
theorem constant_paren (h : t.value.isBlock '(' = true) :
    respond o t (enumMember {}) = ⟨enumMember {}, [], false⟩ := by
  have hkind := Token.kind_of_isBlock h
  have hsep : ∀ sep, t.value.isSeparator sep = false :=
    Token.isSeparator_eq_false (by rw [hkind]; decide)
  have hbracket : t.value.isBlock '[' = false := Token.isBlock_ne h (by decide)
  have hstep : AnnotationSkip.step o.language none t.value = (none, false) := by
    unfold AnnotationSkip.step
    cases o.language.annotationStyle <;> simp [hsep, hbracket]
  have hname := EnumMemberMachine.isConstantName_eq_false (t := t.value) (by rw [hkind]; decide)
  refine constant_leaves ?_ rfl rfl
  rw [show ({} : EnumMemberMachine) = ⟨.head none, false⟩ from rfl,
    EnumMemberMachine.accept_head (kind_ne_of_isBlock h), hstep]
  simp [hname, hsep]

/-- Arguments behind the name of a constant. -/
theorem constant_arguments {d : EnumMemberDraft} (h : t.value.isBlock '(' = true)
    (hd : d.arguments? = none) :
    respond o t (enumMember ⟨.afterName d, false⟩) =
      ⟨enumMember ⟨.afterName { d with arguments? := some t }, false⟩, [], true⟩ := by
  refine constant_takes ?_ rfl rfl
  rw [EnumMemberMachine.accept_block h, h, hd]
  rfl

/-- The name and the arguments of an annotation whose at sign is lost. -/
theorem constant_lost_lead (hstyle : o.language.annotationStyle = .atSign) {name : TokenTree}
    {arguments? : Option TokenTree} (hname : name.kind = .identifier)
    (hblock : ∀ b ∈ arguments?, b.value.isBlock '(' = true) :
    ∃ m', Keeps o (enumMember {}) (name :: arguments?.toList) (enumMember m') ∧
      Expects o.language m' := by
  have hbrace : name.value.isBlock '\x7b' = false :=
    Token.isBlock_eq_false (by show name.kind ≠ _; rw [hname]; decide) '\x7b'
  have hsep : name.value.isSeparator ";" = false :=
    Token.isSeparator_eq_false (by show name.kind ≠ _; rw [hname]; decide) ";"
  have haccept := EnumMemberMachine.accept_head (o := o) (t := name) (by rw [hname]; decide) none
  rw [FieldMachine.step_word (Or.inr hname), hsep] at haccept
  by_cases hread : EnumMemberMachine.isConstantName name.value = true
  · have hname : respond o name (enumMember {}) =
        ⟨enumMember ⟨.afterName { name := name.text }, false⟩, [], true⟩ := by
      refine constant_takes ?_ rfl rfl
      rw [show ({} : EnumMemberMachine) = ⟨.head none, false⟩ from rfl, haccept, hread]
      rfl
    cases arguments? with
    | none => exact ⟨_, .taken hname (.nil _), Or.inr ⟨hstyle, Or.inr ⟨_, rfl⟩⟩⟩
    | some b =>
        have hb := constant_arguments (o := o) (d := { name := name.text }) (hblock b rfl) rfl
        exact ⟨_, .taken hname (.taken hb (.nil _)), Or.inr ⟨hstyle, Or.inr ⟨_, rfl⟩⟩⟩
  · have hname : respond o name (enumMember {}) = ⟨enumMember {}, [], false⟩ := by
      refine constant_leaves ?_ rfl rfl
      rw [show ({} : EnumMemberMachine) = ⟨.head none, false⟩ from rfl, haccept]
      simp [hread]
    cases arguments? with
    | none => exact ⟨_, .cons hname (Or.inr hbrace) (.nil _), Or.inl rfl⟩
    | some b =>
        have hb := constant_paren (o := o) (hblock b rfl)
        have hbrace' := Token.isBlock_ne (hblock b rfl) (by decide : '(' ≠ '\x7b')
        exact ⟨_, .cons hname (Or.inr hbrace) (.cons hb (Or.inr hbrace') (.nil _)), Or.inl rfl⟩

/-- An annotation behind an at sign. -/
theorem constant_mark_lead (hm : Expects o.language m)
    (hstyle : o.language.annotationStyle = .atSign) {start name : TokenTree}
    {arguments? : Option TokenTree} (hstart : start.value.isSeparator "@" = true)
    (hname : name.kind = .identifier) (hblock : ∀ b ∈ arguments?, b.value.isBlock '(' = true) :
    ∃ m', Keeps o (enumMember m) (start :: name :: arguments?.toList) (enumMember m') ∧
      Expects o.language m' := by
  have hsign := constant_sign (o := o) hstyle hstart
  have hfresh : ∀ m, respond o start (enumMember m) =
      ⟨enumMember ⟨.head (some .name), false⟩, [], true⟩ →
      ∃ m', Keeps o (enumMember m) (start :: name :: arguments?.toList) (enumMember m') ∧
        Expects o.language m' := by
    intro m hm
    have hskip := constant_skip_name (o := o) hstyle hname
    cases arguments? with
    | none => exact ⟨_, .taken hm (.taken hskip (.nil _)), Or.inr ⟨hstyle, Or.inl rfl⟩⟩
    | some b =>
        have hb := constant_skip_block (o := o) hstyle (hblock b rfl)
        exact ⟨_, .taken hm (.taken hskip (.taken hb (.nil _))), Or.inl rfl⟩
  rcases hm with rfl | ⟨-, rfl | ⟨d, rfl⟩⟩
  · exact hfresh _ hsign
  · obtain ⟨m', hrest, hm'⟩ := constant_lost_lead (o := o) hstyle hname hblock
    have hbrace : start.value.isBlock '\x7b' = false :=
      Token.isBlock_eq_false (by rw [Token.kind_of_isSeparator hstart]; decide) '\x7b'
    exact ⟨m', .cons (constant_sign_lost hstyle hstart) (Or.inr hbrace) hrest, hm'⟩
  · refine hfresh _ (Eq.trans ?_ hsign)
    exact constant_renews (Or.inr (Token.kind_of_isSeparator hstart))
      (Token.isSeparator_ne hstart (by decide)) (Token.isSeparator_ne hstart (by decide))

/-- Annotations in square brackets. -/
theorem constant_brackets (hstyle : o.language.annotationStyle = .bracketed)
    (h : t.value.isBlock '[' = true) :
    respond o t (enumMember {}) = ⟨enumMember {}, [], true⟩ := by
  refine constant_takes ?_ rfl rfl
  rw [show ({} : EnumMemberMachine) = ⟨.head none, false⟩ from rfl,
    EnumMemberMachine.accept_head (kind_ne_of_isBlock h)]
  simp only [AnnotationSkip.step, hstyle, h]

/-- What stands in front of a constant. -/
theorem constant_lead (hm : Expects o.language m) (lead : WrittenLead o.language) :
    ∃ m', Keeps o (enumMember m) lead.tokens (enumMember m') ∧ Expects o.language m' := by
  cases lead with
  | comment token isComment =>
      have hbrace : token.value.isBlock '\x7b' = false :=
        Token.isBlock_eq_false (by show token.kind ≠ _; rw [isComment]; decide) '\x7b'
      have hstep := constant_comment (o := o) isComment hm.going.1 hm.going.2
      exact ⟨m, .cons hstep (Or.inr hbrace) (.nil _), hm⟩
  | mark mark =>
      cases mark with
      | sign start name arguments? hstyle hstart hname hblock =>
          exact constant_mark_lead hm hstyle hstart hname hblock
      | brackets block hstyle isBlock found =>
          rcases hm with rfl | ⟨hsign, -⟩
          · exact ⟨{}, .taken (constant_brackets hstyle isBlock) (.nil _), Or.inl rfl⟩
          · exact absurd (hstyle.symm.trans hsign) (by decide)

theorem constant_leads (hm : Expects o.language m) (leads : List (WrittenLead o.language)) :
    ∃ m', Keeps o (enumMember m) (leads.flatMap (·.tokens)) (enumMember m') ∧
      Expects o.language m' := by
  induction leads generalizing m with
  | nil => exact ⟨m, .nil _, hm⟩
  | cons lead leads ih =>
      obtain ⟨m', hkeeps, hm'⟩ := constant_lead hm lead
      obtain ⟨last, hrest, hlast⟩ := ih hm'
      exact ⟨last, hkeeps.append hrest, hlast⟩

/-! ## Behind the name -/

/-- The machine has read a constant, of which it knows `d`, up to the token behind it. -/
def ReadTo (d : EnumMemberDraft) (m : EnumMemberMachine) : Prop :=
  m = ⟨.afterName d, false⟩ ∨ m = ⟨.value d, false⟩

/-- A comma or a semicolon ends the constant; behind a semicolon, nothing more is read. -/
theorem constant_stop {d : EnumMemberDraft} (ended : Bool) (hm : ReadTo d m)
    (h : t.value.isSeparator (if ended then ";" else ",") = true) :
    respond o t (enumMember m) =
      ⟨enumMember ⟨.head none, ended⟩, [enumMember ⟨.complete d, ended⟩], true⟩ := by
  have ht := kind_ne_of_isSeparator h
  refine constant_ends ?_
  cases ended with
  | false => rcases hm with rfl | rfl <;>
      simp_all [EnumMemberMachine.accept_afterName, EnumMemberMachine.accept_value]
  | true =>
      have hcomma : t.value.isSeparator "," = false := Token.isSeparator_ne h (by decide)
      rcases hm with rfl | rfl <;>
        simp_all [EnumMemberMachine.accept_afterName, EnumMemberMachine.accept_value]

/-- So does the end of the body. -/
theorem constant_close {d : EnumMemberDraft} (hm : ReadTo d m) (h : Harvest) :
    close o h (enumMember m) = h.addEnumMember o d := by
  rcases hm with rfl | rfl <;> rfl

/-- The tokens of a value. -/
theorem constant_value (h : ∀ t ∈ ts, InValue t) (d : EnumMemberDraft) :
    Keeps o (enumMember ⟨.value d, false⟩) ts
      (enumMember ⟨.value { d with value := d.value ++ ts }, false⟩) := by
  induction ts generalizing d with
  | nil =>
      rw [List.append_nil]
      exact .nil _
  | cons t ts ih =>
      have ht := h t List.mem_cons_self
      have hstep : respond o t (enumMember ⟨.value d, false⟩) =
          ⟨enumMember ⟨.value { d with value := d.value ++ [t] }, false⟩, [], true⟩ := by
        refine constant_takes ?_ rfl rfl
        rw [EnumMemberMachine.accept_value ht.notComment, ht.notComma, ht.notSemicolon]
        rfl
      have hrest := ih (fun t ht => h t (List.mem_cons_of_mem _ ht)) { d with
        value := d.value ++ [t] }
      rw [List.append_assoc] at hrest
      exact .taken hstep hrest

theorem constant_equals {d : EnumMemberDraft} (h : t.value.isOperator "=" = true) :
    respond o t (enumMember ⟨.afterName d, false⟩) =
      ⟨enumMember ⟨.value d, false⟩, [], true⟩ := by
  have hkind := Token.kind_of_isOperator h
  have hsep : ∀ sep, t.value.isSeparator sep = false :=
    Token.isSeparator_eq_false (by rw [hkind]; decide)
  refine constant_takes ?_ rfl rfl
  rw [EnumMemberMachine.accept_afterName (by show t.value.kind ≠ _; rw [hkind]; decide), hsep,
    hsep, h]
  rfl

/-- A body. -/
theorem constant_body {d : EnumMemberDraft} (h : t.value.isBlock '\x7b' = true) :
    respond o t (enumMember ⟨.afterName d, false⟩) =
      ⟨enumMember ⟨.afterName d, false⟩, [], true⟩ := by
  refine constant_takes ?_ rfl rfl
  rw [EnumMemberMachine.accept_block h, Token.isBlock_ne h (by decide : '\x7b' ≠ '('), h]
  rfl

/-- Arguments, if there are any. -/
theorem constant_arguments? {arguments? : Option TokenTree} {d : EnumMemberDraft}
    (h : ∀ b ∈ arguments?, b.value.isBlock '(' = true) (hd : d.arguments? = none) :
    Keeps o (enumMember ⟨.afterName d, false⟩) arguments?.toList
      (enumMember ⟨.afterName { d with arguments? }, false⟩) := by
  cases arguments? with
  | none =>
      rw [show ({ d with arguments? := none } : EnumMemberDraft) = d by rw [← hd]]
      exact .nil _
  | some b => exact .taken (constant_arguments (h b rfl) hd) (.nil _)

/-- What stands behind the name. -/
theorem constant_tail (name : String) (tail : ConstantTail o.language) :
    ∃ m, Keeps o (enumMember ⟨.afterName { name }, false⟩) tail.tokens (enumMember m) ∧
      ReadTo { name, arguments? := tail.arguments?, value := tail.assigned } m := by
  cases tail with
  | value assigned? style isEquals isValue =>
      cases assigned? with
      | none => exact ⟨_, .nil _, Or.inl rfl⟩
      | some a =>
          have hvalue := constant_value (o := o) (isValue a rfl).2 { name }
          exact ⟨_, .taken (constant_equals (isEquals a rfl)) hvalue, Or.inr rfl⟩
  | parts arguments? body? style isArguments isBody =>
      have hfront := constant_arguments? (o := o) (d := { name }) isArguments rfl
      cases body? with
      | none => exact ⟨_, hfront.append (.nil _), Or.inl rfl⟩
      | some b =>
          exact ⟨_, hfront.append (.taken (constant_body (isBody b rfl)) (.nil _)), Or.inl rfl⟩

/-- A written constant, up to its name. -/
theorem constant_named (c : WrittenConstant o) :
    Keeps o (enumMember {}) c.named (enumMember ⟨.afterName { name := c.name.text }, false⟩) := by
  obtain ⟨m, hleads, hm⟩ := constant_leads (o := o) (Or.inl rfl) c.leads
  exact hleads.append (.taken (constant_name hm c.isName) (.nil _))

/-- A written constant is read up to the token behind it. -/
theorem constant_keeps (c : WrittenConstant o) :
    ∃ m, Keeps o (enumMember {}) c.tokens (enumMember m) ∧ ReadTo c.draft m := by
  obtain ⟨last, htail, hlast⟩ := constant_tail c.name.text c.tail
  exact ⟨last, (constant_named c).append htail, hlast⟩

end Extractor

end Outline
