import Outline.Proofs.Written.FieldSteps
import Outline.Proofs.Written.Grammar

/-!
# Reading written parameters

* `TokenTree.commaGroups_separated` — groups with commas between them are found again.
* `WrittenParams.ofParens` — the parameters in parentheses are read as they are written.
-/

namespace Outline

/-! ## Groups between commas -/

namespace TokenTree

/-- Whether a token may stand inside a group. -/
def Inside (t : TokenTree) : Prop := t.value.isSeparator "," = false ∧ t.kind ≠ .comment

theorem commaGroupsFrom_append (group rest : List TokenTree) {ts : List TokenTree}
    (h : ∀ t ∈ ts, Inside t) :
    commaGroupsFrom group (ts ++ rest) = commaGroupsFrom (group ++ ts) rest := by
  induction ts generalizing group with
  | nil => rw [List.nil_append, List.append_nil]
  | cons t ts ih =>
      obtain ⟨hcomma, hcomment⟩ := h t List.mem_cons_self
      have hcomment : (t.kind == .comment) = false := beq_eq_false_iff_ne.2 hcomment
      rw [List.cons_append, commaGroupsFrom, hcomma, hcomment]
      simp only [Bool.false_eq_true, if_false]
      rw [ih _ fun t ht => h t (List.mem_cons_of_mem _ ht), List.append_assoc]
      rfl

theorem commaGroupsFrom_separated {group : List TokenTree} {groups : List (List TokenTree)}
    {ts : List TokenTree} (h : Separated (group :: groups) ts)
    (hin : ∀ g ∈ group :: groups, ∀ t ∈ g, Inside t) :
    commaGroupsFrom [] ts = group :: groups := by
  induction groups generalizing group ts with
  | nil =>
      cases h
      have := commaGroupsFrom_append [] [] (hin group List.mem_cons_self)
      rw [List.append_nil, List.nil_append] at this
      rw [this, commaGroupsFrom]
  | cons next groups ih =>
      cases h with
      | cons hcomma hrest =>
          rw [commaGroupsFrom_append [] _ (hin group List.mem_cons_self), List.nil_append,
            commaGroupsFrom, hcomma, if_pos rfl,
            ih hrest fun g hg => hin g (List.mem_cons_of_mem _ hg)]

/-- Groups with commas between them are found again. -/
theorem commaGroups_separated {groups : List (List TokenTree)} {ts : List TokenTree}
    (h : Separated groups ts) (hne : ∀ g ∈ groups, g ≠ [])
    (hin : ∀ g ∈ groups, ∀ t ∈ g, Inside t) : commaGroups ts = groups := by
  cases groups with
  | nil =>
      cases h
      rfl
  | cons group groups =>
      rw [commaGroups, commaGroupsFrom_separated h hin, List.filter_eq_self]
      intro g hg
      simpa using hne g hg

theorem inside_of_kind {t : TokenTree} (hsep : t.kind ≠ .separator) (hcomment : t.kind ≠ .comment) :
    Inside t :=
  ⟨Token.isSeparator_eq_false hsep ",", hcomment⟩

end TokenTree

open TokenTree (Inside inside_of_kind)

variable {l : Language}

/-! ## Types -/

/-- A written type is read from the front of other tokens. -/
theorem WrittenType.read (hl : l.memberOrder = .typeFirst) (t : WrittenType l false)
    {name : TokenTree} (hname : name.kind = .identifier) (rest : List TokenTree) :
    TypeMachine.read l (t.tokens ++ name :: rest) = (some (t.ref, name :: rest), []) := by
  have hfind : TypeMachine.accept l false .idle t.word.value = .take (.found t.named) := by
    rw [TypeMachine.accept_start hl t.starts, TypeMachine.find, t.parsed]
  have hop : ∀ op, name.value.isOperator op = false :=
    Token.isOperator_eq_false (by show name.kind ≠ _; rw [hname]; decide)
  unfold TypeMachine.read WrittenType.tokens WrittenType.ref
  cases hmark : t.mark? with
  | none =>
      have hleft : TypeMachine.accept l false (.found t.named) name.value =
          .leave (.complete t.named) :=
        TypeMachine.accept_behind hl (hop "?") (hop "...")
      simp [TypeMachine.readFrom, hfind, hleft, Step.take, Step.leave, TypeMachine.isComplete,
        TypeMachine.isFailed, TypeMachine.finish, TypeMachine.type?]
  | some q =>
      have hmarked := t.marked q (by rw [hmark]; rfl)
      have htaken : TypeMachine.accept l false (.found t.named) q.value =
          .take (.complete { t.named with nullable := true }) :=
        TypeMachine.accept_mark hl hmarked.2
      simp [TypeMachine.readFrom, hfind, htaken, Step.take, TypeMachine.isComplete,
        TypeMachine.isFailed, TypeMachine.finish, TypeMachine.type?]

/-! ## Annotations and modifiers -/

/-- Whether the tokens start with a block in parentheses. -/
def startsParen (ts : List TokenTree) : Bool := ts.head?.any (·.value.isBlock '(')

theorem Parameter.dropArguments_eq_self {ts : List TokenTree} (h : startsParen ts = false) :
    dropArguments ts = ts ∧ Annotation.argumentsAfter ts = [] := by
  cases ts with
  | nil => exact ⟨rfl, rfl⟩
  | cons t ts =>
      have h : t.value.isBlock '(' = false := h
      simp [dropArguments, Annotation.argumentsAfter, h]

theorem startsParen_mark (m : WrittenMark l) (ts : List TokenTree) :
    startsParen (m.tokens ++ ts) = false := by
  cases m with
  | brackets block style isBlock found => exact Token.isBlock_ne isBlock (by decide)
  | sign start name arguments? style isSign isName isBlock =>
      exact Token.isBlock_eq_false (by rw [Token.kind_of_isSeparator isSign]; decide) '('

theorem startsParen_marks (ms : List (WrittenMark l)) {ts : List TokenTree}
    (h : startsParen ts = false) : startsParen (ms.flatMap (·.tokens) ++ ts) = false := by
  cases ms with
  | nil => exact h
  | cons m ms =>
      rw [List.flatMap_cons, List.append_assoc]
      exact startsParen_mark m _

/-- The definition, in the form in which the proofs unfold it. -/
theorem Parameter.lead_cons (place : Nat) (t : TokenTree) (ts : List TokenTree) :
    lead l place (t :: ts) =
      if t.value.isBlock '[' && l.memberOrder == .typeFirst && 2 ≤ ts.length then
        { lead l place ts with
          annotations := Annotation.ofBrackets t ++ (lead l place ts).annotations }
      else if t.value.isSeparator "@" then
        match ts with
        | [] => { rest := [t] }
        | name :: ts =>
          { lead l place (dropArguments ts) with
            annotations := ⟨name.text, Annotation.argumentsAfter ts⟩ ::
              (lead l place (dropArguments ts)).annotations }
      else if t.kind == .keyword && l.isParameterModifier t.text place then
        { lead l place ts with modifiers := t.text :: (lead l place ts).modifiers }
      else { rest := t :: ts } := by
  refine (lead.eq_def ..).trans ?_
  cases ts <;> rfl

/-- The annotations in front of a parameter are read one after the other. -/
theorem Parameter.lead_mark (hl : l.memberOrder = .typeFirst) (place : Nat) (m : WrittenMark l)
    {ts : List TokenTree} (hlength : 2 ≤ ts.length) (hparen : startsParen ts = false) :
    lead l place (m.tokens ++ ts) =
      { lead l place ts with annotations := m.annotations ++ (lead l place ts).annotations } := by
  cases m with
  | brackets block style isBlock found =>
      rw [WrittenMark.tokens, List.singleton_append, lead_cons]
      simp [isBlock, hl, hlength, WrittenMark.annotations]
  | sign start name arguments? style isSign isName isBlock =>
      have hbracket : start.value.isBlock '[' = false :=
        Token.isBlock_eq_false (by rw [Token.kind_of_isSeparator isSign]; decide) '['
      rw [WrittenMark.tokens, List.cons_append, lead_cons]
      simp only [hbracket, isSign, Bool.false_and, Bool.false_eq_true, if_false, if_true,
        List.cons_append]
      cases arguments? with
      | none =>
          obtain ⟨hdrop, hafter⟩ := dropArguments_eq_self hparen
          simp [hdrop, hafter, WrittenMark.annotations]
      | some b =>
          have hb := isBlock b rfl
          simp [dropArguments, Annotation.argumentsAfter, hb, WrittenMark.annotations]

theorem Parameter.lead_marks (hl : l.memberOrder = .typeFirst) (place : Nat)
    (ms : List (WrittenMark l)) {ts : List TokenTree} (hlength : 2 ≤ ts.length)
    (hparen : startsParen ts = false) :
    lead l place (ms.flatMap (·.tokens) ++ ts) =
      { lead l place ts with
        annotations := ms.flatMap (·.annotations) ++ (lead l place ts).annotations } := by
  induction ms with
  | nil => rfl
  | cons m ms ih =>
      have hrest : 2 ≤ (ms.flatMap (·.tokens) ++ ts).length := by
        rw [List.length_append]
        omega
      rw [List.flatMap_cons, List.append_assoc,
        lead_mark hl place m hrest (startsParen_marks ms hparen), ih, List.flatMap_cons,
        List.append_assoc]

/-- So are the modifiers. -/
theorem Parameter.lead_modifiers (place : Nat) {ms : List TokenTree} (ts : List TokenTree)
    (h : ∀ m ∈ ms, m.kind = .keyword ∧ l.isParameterModifier m.text place = true) :
    lead l place (ms ++ ts) =
      { lead l place ts with modifiers := ms.map (·.text) ++ (lead l place ts).modifiers } := by
  induction ms with
  | nil => rfl
  | cons m ms ih =>
      obtain ⟨hkind, hmark⟩ := h m List.mem_cons_self
      have hblock : m.value.isBlock '[' = false :=
        Token.isBlock_eq_false (by show m.kind ≠ _; rw [hkind]; decide) '['
      have hat : m.value.isSeparator "@" = false :=
        Token.isSeparator_eq_false (by show m.kind ≠ _; rw [hkind]; decide) "@"
      rw [List.cons_append, lead_cons]
      simp only [hblock, hat, hkind, hmark, Bool.false_and, Bool.false_eq_true, if_false,
        beq_self_eq_true, Bool.and_self, if_true]
      rw [ih fun m hm => h m (List.mem_cons_of_mem _ hm)]
      rfl

/-- The word of a type is no modifier of a parameter. -/
theorem Language.not_parameterModifier_of_starts (hl : l.memberOrder = .typeFirst) {t : Token}
    (h : TypeMachine.starts l false t = true) (place : Nat) :
    (t.kind == .keyword && l.isParameterModifier t.text place) = false := by
  rcases TypeMachine.word_of_starts hl h with hkind | hkind
  · have htype : l.has .type t.text = true := by
      rw [TypeMachine.starts, hkind] at h
      simpa using h
    have hthis : (l == .csharp && t.text == "this") = false := by
      rw [Bool.and_eq_false_iff]
      by_cases hlanguage : l = .csharp
      · right
        rw [beq_eq_false_iff_ne]
        intro htext
        rw [htext, hlanguage] at htype
        revert htype
        decide +kernel
      · left
        exact beq_eq_false_iff_ne.2 hlanguage
    have hmark : l.has .parameterModifier t.text = false := by
      have := not_marks_of_starts hl (by decide : Capability.parameterModifier ∈ outerRoles) h
      rwa [marks, hkind, beq_self_eq_true, Bool.true_and] at this
    rw [isParameterModifier, hthis, if_neg Bool.false_ne_true, hmark, Bool.and_false]
  · rw [hkind]
    rfl

/-- The type ends the annotations and modifiers. -/
theorem Parameter.lead_type (hl : l.memberOrder = .typeFirst) (place : Nat)
    (t : WrittenType l false) (ts : List TokenTree) :
    lead l place (t.tokens ++ ts) = { rest := t.tokens ++ ts } := by
  have hword := TypeMachine.word_of_starts hl t.starts
  have hblock : t.word.value.isBlock '[' = false := TypeMachine.isBlock_of_starts t.starts hl '['
  have hat : t.word.value.isSeparator "@" = false := TypeMachine.isSeparator_of_starts t.starts "@"
  have hmark := Language.not_parameterModifier_of_starts hl t.starts place
  rw [WrittenType.tokens, List.cons_append, lead_cons]
  simp only [hblock, hat, hmark, Bool.false_and, Bool.false_eq_true, if_false]

/-! ## Parameters -/

/-- A parameter is read as it is written. -/
theorem WrittenParam.read (hl : l.memberOrder = .typeFirst) (p : WrittenParam l) (place : Nat)
    (h : ∀ m ∈ p.modifiers, m.kind = .keyword ∧ l.isParameterModifier m.text place = true) :
    (Parameter.read l place p.tokens).1 = some p.param := by
  have hword := TypeMachine.word_of_starts hl p.type.starts
  let back := p.type.tokens ++ p.name :: p.default?.elim [] fun d => d.1 :: d.2
  have hback : Parameter.lead l place back = { rest := back } :=
    Parameter.lead_type hl place p.type _
  have hparen : startsParen (p.modifiers ++ back) = false := by
    cases hm : p.modifiers with
    | nil =>
        exact Token.isBlock_eq_false (by rcases hword with h | h <;> rw [h] <;> decide) '('
    | cons m ms =>
        have hkind := (h m (by rw [hm]; exact List.mem_cons_self)).1
        exact Token.isBlock_eq_false (by show m.kind ≠ _; rw [hkind]; decide) '('
  have hlength : 2 ≤ (p.modifiers ++ back).length := by
    simp only [back, WrittenType.tokens, List.length_append, List.length_cons]
    omega
  have hlead : Parameter.lead l place p.tokens =
      { annotations := p.marks.flatMap (·.annotations), modifiers := p.modifiers.map (·.text),
        rest := back } := by
    have htokens : p.tokens = p.marks.flatMap (·.tokens) ++ (p.modifiers ++ back) := by
      simp only [tokens, back, List.append_assoc]
    rw [htokens, Parameter.lead_marks hl place p.marks hlength hparen,
      Parameter.lead_modifiers place _ h, hback, List.append_nil, List.append_nil]
  have hdefault : Parameter.defaultValue? (p.default?.elim [] fun d => d.1 :: d.2) =
      p.default?.map fun d => TokenTree.joined d.2 := by
    cases hd : p.default? with
    | none => rfl
    | some d =>
        have := p.isEquals d (by rw [hd]; rfl)
        simp [Parameter.defaultValue?, this]
  simp only [Parameter.read, hl, Parameter.readTypeFirst, hlead, back,
    WrittenType.read hl p.type p.isName, p.isName, beq_self_eq_true, if_true, hdefault,
    Option.isSome_map]
  rfl

theorem WrittenMark.inside (m : WrittenMark l) {t : TokenTree} (ht : t ∈ m.tokens) :
    Inside t := by
  cases m with
  | brackets block style isBlock found =>
      obtain rfl := List.mem_singleton.1 ht
      have hkind := Token.kind_of_isBlock isBlock
      exact inside_of_kind (by show t.value.kind ≠ _; rw [hkind]; decide)
        (by show t.value.kind ≠ _; rw [hkind]; decide)
  | sign start name arguments? style isSign isName isBlock =>
      simp only [tokens, List.mem_cons, Option.mem_toList] at ht
      rcases ht with rfl | rfl | ht
      · refine ⟨Token.isSeparator_ne isSign (by decide), ?_⟩
        show t.value.kind ≠ _
        rw [Token.kind_of_isSeparator isSign]
        decide
      · exact inside_of_kind (by rw [isName]; decide) (by rw [isName]; decide)
      · have hkind := Token.kind_of_isBlock (isBlock t ht)
        exact inside_of_kind (by show t.value.kind ≠ _; rw [hkind]; decide)
          (by show t.value.kind ≠ _; rw [hkind]; decide)

theorem WrittenType.inside (hl : l.memberOrder = .typeFirst) {allowVoid : Bool}
    (r : WrittenType l allowVoid) {t : TokenTree} (ht : t ∈ r.tokens) : Inside t := by
  rcases List.mem_cons.1 ht with rfl | ht
  · have hword := TypeMachine.word_of_starts hl r.starts
    exact inside_of_kind (by rcases hword with h | h <;> simp [TokenTree.kind, h])
      (by rcases hword with h | h <;> simp [TokenTree.kind, h])
  · have hkind := Token.kind_of_isOperator (r.marked t (Option.mem_toList.1 ht)).2
    exact inside_of_kind (by show t.value.kind ≠ _; rw [hkind]; decide)
      (by show t.value.kind ≠ _; rw [hkind]; decide)

/-- A parameter has no comma and no comment of its own. -/
theorem WrittenParam.inside (hl : l.memberOrder = .typeFirst) (p : WrittenParam l)
    (h : ∀ m ∈ p.modifiers, m.kind = .keyword) {t : TokenTree} (ht : t ∈ p.tokens) :
    Inside t := by
  simp only [tokens, List.mem_append, List.mem_flatMap, List.mem_cons] at ht
  rcases ht with ((⟨m, -, ht⟩ | ht) | ht) | rfl | ht
  · exact m.inside ht
  · exact inside_of_kind (by rw [h t ht]; decide) (by rw [h t ht]; decide)
  · exact p.type.inside hl ht
  · exact inside_of_kind (by rw [p.isName]; decide) (by rw [p.isName]; decide)
  · cases hd : p.default? with
    | none => simp [hd] at ht
    | some d =>
        rw [hd, Option.elim_some] at ht
        rcases List.mem_cons.1 ht with rfl | ht
        · have hkind := Token.kind_of_isOperator (p.isEquals d (by rw [hd]; rfl))
          exact inside_of_kind (by show d.1.value.kind ≠ _; rw [hkind]; decide)
            (by show d.1.value.kind ≠ _; rw [hkind]; decide)
        · exact p.isValue d (by rw [hd]; rfl) t ht

theorem readGroups_written (hl : l.memberOrder = .typeFirst) (place : Nat)
    {ps : List (WrittenParam l)} (h : ModifiedFrom place ps) :
    (Parameter.readGroups l place (ps.map (·.tokens))).1 = some (ps.map (·.param)) := by
  induction ps generalizing place with
  | nil => rfl
  | cons p ps ih =>
      obtain ⟨hp, hps⟩ := h
      have hfirst := p.read hl place hp
      have hrest := ih (place + 1) hps
      rw [List.map_cons, Parameter.readGroups]
      cases hread : Parameter.read l place p.tokens with
      | mk p? malformed =>
          rw [hread] at hfirst
          obtain rfl : p? = some p.param := hfirst
          show Option.map _ _ = _
          rw [hrest]
          rfl

theorem keyword_of_modifiedFrom {place : Nat} {ps : List (WrittenParam l)}
    (h : ModifiedFrom place ps) : ∀ p ∈ ps, ∀ m ∈ p.modifiers, m.kind = .keyword := by
  induction ps generalizing place with
  | nil => intro p hp; exact absurd hp List.not_mem_nil
  | cons p ps ih =>
      intro q hq m hm
      rcases List.mem_cons.1 hq with rfl | hq
      · exact (h.1 m hm).1
      · exact ih h.2 q hq m hm

/-- The parameters in parentheses are read as they are written. -/
theorem WrittenParams.ofParens (hl : l.memberOrder = .typeFirst) (ps : WrittenParams l) :
    (Parameter.ofParens l ps.block).1 = some (ps.list.map (·.param)) := by
  have hgroups : TokenTree.commaGroups ps.block.children = ps.list.map (·.tokens) := by
    refine TokenTree.commaGroups_separated ps.holds ?_ ?_
    · intro g hg
      obtain ⟨p, -, rfl⟩ := List.mem_map.1 hg
      simp [WrittenParam.tokens]
    · intro g hg t ht
      obtain ⟨p, hp, rfl⟩ := List.mem_map.1 hg
      exact p.inside hl (keyword_of_modifiedFrom ps.modified p hp) ht
  rw [Parameter.ofParens, hgroups]
  exact readGroups_written hl 0 ps.modified

end Outline
