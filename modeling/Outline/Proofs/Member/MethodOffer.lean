import Outline.Proofs.Member.FieldOffer

/-!
# What a token does to a method that is being read

* `MethodMachine.accepts_accept` — what the machine makes of a token.
* `Extractor.methodOffer_of_offer` — what an offer makes of the machine and of the tokens that it
  has used.
* `Extractor.method_offer_at`, `Extractor.method_offer_name` — the machine follows the annotations
  in front of a member.
-/

namespace Outline

/-! ## Stages -/

/-- How much of a method is read, without what is known of it. -/
inductive MethodStage where
  /-- The annotations, modifiers and type parameters are read. -/
  | head (skip : Option AnnotationSkip)
  /-- The type parameters are being read. -/
  | typeParamList (list : TypeParamList)
  /-- The type in front of the name is being read. -/
  | type (machine : TypeMachine)
  /-- The type is read. -/
  | name
  /-- The name is read. -/
  | afterName
  /-- The parameters are read. -/
  | afterParams
  /-- The type after the parameters is being read. -/
  | returnType (machine : TypeMachine)
  /-- The parameters and the type after them are read. -/
  | afterReturn
  /-- A clause in front of the body is being read. -/
  | clause
  /-- The expression after an arrow is being read. -/
  | expression
  /-- The method has ended. -/
  | complete
  /-- There is no method. -/
  | failed

namespace MethodStage

/-- Whether the tokens are those of a list of type parameters, or stand behind the parameters. -/
def isLoose : MethodStage → Bool
  | typeParamList _ | afterParams | returnType _ | afterReturn | clause | expression => true
  | _ => false

/-- Whether tokens are read without regard to what they are. -/
def isOpen : MethodStage → Bool
  | typeParamList _ | clause | expression => true
  | _ => false

end MethodStage

namespace MethodMachine

/-- The stage of the machine. -/
def stage : MethodMachine → MethodStage
  | head _ skip _ _ => .head skip
  | typeParamList _ list => .typeParamList list
  | type _ machine => .type machine
  | name _ => .name
  | afterName _ => .afterName
  | afterParams _ => .afterParams
  | returnType _ machine => .returnType machine
  | afterReturn _ => .afterReturn
  | clause _ => .clause
  | expression _ => .expression
  | complete _ => .complete
  | failed => .failed

@[simp] theorem stage_mapDraft (f : MethodDraft → MethodDraft) (m : MethodMachine) :
    (m.mapDraft f).stage = m.stage := by
  cases m <;> rfl

theorem stage_of_isIdle {m : MethodMachine} (h : m.isIdle = true) : m.stage = .head none := by
  unfold isIdle at h
  split at h
  · rfl
  · exact absurd h Bool.false_ne_true

end MethodMachine

namespace MethodStage

/-- What holds of the stage between two tokens. -/
structure Waits (l : Language) (a : MethodStage) : Prop where
  /-- The method has not ended. -/
  notEnded : a ≠ complete
  /-- There may be a method. -/
  notFailed : a ≠ failed
  /-- A token inside an annotation is awaited only where annotations are written with at signs. -/
  skip : ∀ s, a = head (some s) → l.annotationStyle = .atSign
  /-- The list of type parameters goes on. -/
  listed : ∀ list, a = typeParamList list → list.isClosed = false
  /-- A type in front of the name is a word. -/
  typed : ∀ machine, a = type machine → ∃ r, machine = .found r
  /-- Only where the type comes first one of these is read. -/
  typeFirst : a = name ∨ (∃ machine, a = type machine) ∨ a.isOpen = true →
    l.memberOrder = .typeFirst
  /-- Only where the name comes first a type is read behind the parameters. -/
  nameFirst : a = afterReturn ∨ (∃ machine, a = returnType machine) → l.memberOrder = .nameFirst

/-- What a token that belongs to a method says about the stages around it. -/
structure Goes (l : Language) (t : Token) (a b : MethodStage) : Prop where
  /-- The next token is awaited. -/
  waits : Waits l b
  /-- A list of type parameters starts with an angle bracket, and the parameters stand in
  parentheses behind a name. -/
  loose : b.isLoose = true → a.isLoose = true ∨ t.isOperator "<" = true ∨
    t.isBlock '(' = true ∧ (∀ skip, a ≠ head skip) ∧ (l.memberOrder = .nameFirst → a = afterName)
  /-- No end of a field and no initializer is read in front of the parameters. -/
  token : a.isLoose = false → t.isSeparator ";" = false ∧ t.isSeparator "," = false ∧
    t.isBlock '\x7b' = false ∧ t.isOperator "=" = false ∧ t.isOperator "=>" = false
  /-- The inside of an annotation is reached behind an at sign or a name. -/
  inside : ∀ s, b = head (some s) → t.isSeparator "@" = true ∨ t.kind = .identifier
  /-- A name is a word, and a question mark may stand behind it. -/
  named : b = afterName → t.kind = .identifier ∨ t.kind = .string ∨ t.isOperator "?" = true

/-! ### Stages between two tokens -/

section

variable {l : Language}

theorem waits_head {skip : Option AnnotationSkip}
    (h : ∀ s, skip = some s → l.annotationStyle = .atSign) : Waits l (head skip) :=
  ⟨by simp, by simp, fun s hs => h s (head.inj hs), by simp, by simp, by simp [isOpen], by simp⟩

theorem waits_typeParamList {list : TypeParamList} (hl : l.memberOrder = .typeFirst)
    (h : list.isClosed = false) : Waits l (typeParamList list) :=
  ⟨by simp, by simp, by simp, fun _ hlist => typeParamList.inj hlist ▸ h, by simp, fun _ => hl,
    by simp⟩

theorem waits_type (hl : l.memberOrder = .typeFirst) (r : TypeRef) : Waits l (type (.found r)) :=
  ⟨by simp, by simp, by simp, by simp, fun _ h => ⟨r, (type.inj h).symm⟩, fun _ => hl, by simp⟩

theorem waits_name (hl : l.memberOrder = .typeFirst) : Waits l name :=
  ⟨by simp, by simp, by simp, by simp, by simp, fun _ => hl, by simp⟩

theorem waits_afterName : Waits l afterName :=
  ⟨by simp, by simp, by simp, by simp, by simp, by simp [isOpen], by simp⟩

theorem waits_afterParams : Waits l afterParams :=
  ⟨by simp, by simp, by simp, by simp, by simp, by simp [isOpen], by simp⟩

theorem waits_returnType (hl : l.memberOrder = .nameFirst) (machine : TypeMachine) :
    Waits l (returnType machine) :=
  ⟨by simp, by simp, by simp, by simp, by simp, by simp [isOpen], fun _ => hl⟩

theorem waits_afterReturn (hl : l.memberOrder = .nameFirst) : Waits l afterReturn :=
  ⟨by simp, by simp, by simp, by simp, by simp, by simp [isOpen], fun _ => hl⟩

theorem waits_clause (hl : l.memberOrder = .typeFirst) : Waits l clause :=
  ⟨by simp, by simp, by simp, by simp, by simp, fun _ => hl, by simp⟩

theorem waits_expression (hl : l.memberOrder = .typeFirst) : Waits l expression :=
  ⟨by simp, by simp, by simp, by simp, by simp, fun _ => hl, by simp⟩

end

end MethodStage

namespace MethodMachine

open MethodStage (Goes Waits)

theorem isComplete_of_waits {l : Language} {m : MethodMachine} (h : Waits l m.stage) :
    m.isComplete = false := by
  cases m <;> first | rfl | exact absurd rfl h.notEnded

theorem isFailed_of_waits {l : Language} {m : MethodMachine} (h : Waits l m.stage) :
    m.isFailed = false := by
  cases m <;> first | rfl | exact absurd rfl h.notFailed

/-- What the machine makes of a token. -/
inductive Accepts (l : Language) (t : Token) (m : MethodMachine) : Step MethodMachine → Prop where
  /-- A comment is left for others. -/
  | comment (h : t.kind = .comment) : Accepts l t m ⟨m, false, []⟩
  /-- The token belongs to a method. -/
  | goes {m' : MethodMachine} {malformed : List MalformedType} (h : Goes l t m.stage m'.stage) :
      Accepts l t m ⟨m', true, malformed⟩
  /-- The token ends a method. -/
  | ends {d : MethodDraft} {malformed : List MalformedType} (hm : m.stage.isLoose = true)
      (h : isBody t = true) : Accepts l t m ⟨complete d, true, malformed⟩
  /-- The method has ended in front of the token. -/
  | early {d : MethodDraft} {malformed : List MalformedType} (hm : m.stage.isLoose = true) :
      Accepts l t m ⟨complete d, false, malformed⟩
  /-- There is no method. -/
  | fails {taken : Bool} {malformed : List MalformedType} :
      Accepts l t m ⟨failed, taken, malformed⟩
  /-- Nothing is read in front of the token, nor is it. -/
  | idles {typeParams : List TypeRef} {malformed : List MalformedType} :
      Accepts l t m ⟨head false none [] typeParams, false, malformed⟩

variable {l : Language} {t : Token} {m m' : MethodMachine}

theorem Accepts.after {s : Step MethodMachine} (h : Accepts l t m s) (ht : t.kind ≠ .comment)
    (malformed : List MalformedType) : Accepts l t m (s.after malformed) := by
  cases h with
  | comment hc => exact absurd hc ht
  | goes h => exact .goes h
  | ends hm h => exact .ends hm h
  | early hm => exact .early hm
  | fails => exact .fails
  | idles => exact .idles

theorem Accepts.map {s : Step MethodMachine} (h : Accepts l t m s) (ht : t.kind ≠ .comment)
    (f : MethodDraft → MethodDraft) : Accepts l t m (s.map (mapDraft f)) := by
  cases h with
  | comment hc => exact absurd hc ht
  | goes h =>
      refine .goes ?_
      rw [stage_mapDraft]
      exact h
  | ends hm h => exact .ends hm h
  | early hm => exact .early hm
  | fails => exact .fails
  | idles => exact .idles

/-! ### Stages that are reached -/

/-- A token that is neither an end nor a start of an initializer, by its kind. -/
theorem token_of_kind (h : t.kind ≠ .separator ∨ t.isSeparator "@" = true)
    (hblock : t.kind ≠ .block ∨ t.isBlock '(' = true ∨ t.isBlock '[' = true)
    (hop : t.kind ≠ .operator ∨ t.isOperator "?" = true ∨ t.isOperator "..." = true ∨
      t.isOperator "<" = true) :
    t.isSeparator ";" = false ∧ t.isSeparator "," = false ∧ t.isBlock '\x7b' = false ∧
      t.isOperator "=" = false ∧ t.isOperator "=>" = false := by
  refine ⟨?_, ?_, ?_, ?_, ?_⟩
  · rcases h with h | h
    · exact Token.isSeparator_eq_false h _
    · exact Token.isSeparator_ne h (by decide)
  · rcases h with h | h
    · exact Token.isSeparator_eq_false h _
    · exact Token.isSeparator_ne h (by decide)
  · rcases hblock with h | h | h
    · exact Token.isBlock_eq_false h _
    · exact Token.isBlock_ne h (by decide)
    · exact Token.isBlock_ne h (by decide)
  · rcases hop with h | h | h | h
    · exact Token.isOperator_eq_false h _
    · exact Token.isOperator_ne h (by decide)
    · exact Token.isOperator_ne h (by decide)
    · exact Token.isOperator_ne h (by decide)
  · rcases hop with h | h | h | h
    · exact Token.isOperator_eq_false h _
    · exact Token.isOperator_ne h (by decide)
    · exact Token.isOperator_ne h (by decide)
    · exact Token.isOperator_ne h (by decide)

/-- A token of an annotation or a modifier in front of a method. -/
theorem goes_head {a : MethodStage} {skip : Option AnnotationSkip}
    (hskip : ∀ s, skip = some s → l.annotationStyle = .atSign)
    (hinside : ∀ s, skip = some s → t.isSeparator "@" = true ∨ t.kind = .identifier)
    (htoken : a.isLoose = false → t.isSeparator ";" = false ∧ t.isSeparator "," = false ∧
      t.isBlock '\x7b' = false ∧ t.isOperator "=" = false ∧ t.isOperator "=>" = false) :
    Goes l t a (.head skip) where
  waits := MethodStage.waits_head hskip
  loose := by simp [MethodStage.isLoose]
  token := htoken
  inside := fun s hs => hinside s (MethodStage.head.inj hs)
  named := by simp

theorem goes_skip {a : MethodStage} {skip skip' : Option AnnotationSkip}
    (hw : Waits l (.head skip)) (h : AnnotationSkip.step l skip t = (skip', true)) :
    Goes l t a (.head skip') := by
  refine goes_head ?_ ?_ fun _ => ?_
  · rintro s rfl
    rcases AnnotationSkip.step_taken h with ⟨-, hskip, -⟩ | ⟨hl, -⟩
    · exact hw.skip s (by rw [hskip])
    · exact hl
  · rintro s rfl
    rcases AnnotationSkip.step_taken h with
      ⟨hl, hskip, -⟩ | ⟨-, ⟨-, -, hs⟩ | ⟨-, -, hi⟩ | ⟨-, hs, -⟩⟩
    · have := hw.skip s (by rw [hskip])
      rw [hl] at this
      exact absurd this (by decide)
    · exact Or.inl hs
    · exact Or.inr hi
    · exact absurd hs (by simp)
  · rcases AnnotationSkip.step_taken h with ⟨-, -, hb⟩ | ⟨-, ⟨-, -, hs⟩ | ⟨-, -, hi⟩ | ⟨-, -, hb⟩⟩
    · have hkind := Token.kind_of_isBlock hb
      exact token_of_kind (Or.inl (by rw [hkind]; decide)) (Or.inr (Or.inr hb))
        (Or.inl (by rw [hkind]; decide))
    · have hkind := Token.kind_of_isSeparator hs
      exact token_of_kind (Or.inr hs) (Or.inl (by rw [hkind]; decide))
        (Or.inl (by rw [hkind]; decide))
    · exact token_of_kind (Or.inl (by rw [hi]; decide)) (Or.inl (by rw [hi]; decide))
        (Or.inl (by rw [hi]; decide))
    · have hkind := Token.kind_of_isBlock hb
      exact token_of_kind (Or.inl (by rw [hkind]; decide)) (Or.inr (Or.inl hb))
        (Or.inl (by rw [hkind]; decide))

/-- The name of a method. -/
theorem goes_afterName {a : MethodStage}
    (h : t.kind = .identifier ∨ t.kind = .string ∨ t.isOperator "?" = true) :
    Goes l t a .afterName where
  waits := MethodStage.waits_afterName
  loose := by simp [MethodStage.isLoose]
  token := by
    intro _
    rcases h with h | h | h
    · exact token_of_kind (Or.inl (by rw [h]; decide)) (Or.inl (by rw [h]; decide))
        (Or.inl (by rw [h]; decide))
    · exact token_of_kind (Or.inl (by rw [h]; decide)) (Or.inl (by rw [h]; decide))
        (Or.inl (by rw [h]; decide))
    · have hkind := Token.kind_of_isOperator h
      exact token_of_kind (Or.inl (by rw [hkind]; decide)) (Or.inl (by rw [hkind]; decide))
        (Or.inr (Or.inl h))
  inside := by simp
  named := fun _ => h

theorem accepts_acceptName {d : MethodDraft} (h : t.kind = .identifier) :
    Accepts l t m (acceptName d t.text) := by
  unfold acceptName
  split
  · exact .goes (goes_afterName (Or.inl h))
  · exact .fails

/-- The parameters behind a name or, of a constructor, behind the type. -/
theorem accepts_acceptParams {d : MethodDraft} {tree : TokenTree}
    (h : tree.value.isBlock '(' = true)
    (hm : ∀ skip, m.stage ≠ .head skip)
    (hname : l.memberOrder = .nameFirst → m.stage = .afterName) :
    Accepts l tree.value m (acceptParams l d tree) := by
  have hkind := Token.kind_of_isBlock h
  unfold acceptParams
  split
  · exact .goes {
      waits := MethodStage.waits_afterParams
      loose := fun _ => Or.inr (Or.inr ⟨h, hm, hname⟩)
      token := fun _ => token_of_kind (Or.inl (by rw [hkind]; decide)) (Or.inr (Or.inl h))
        (Or.inl (by rw [hkind]; decide))
      inside := by simp [stage]
      named := by simp [stage] }
  · exact .fails

/-- Any token behind the parameters. -/
theorem goes_loose {a b : MethodStage} (ha : a.isLoose = true) (hb : Waits l b)
    (hhead : ∀ s, b ≠ .head (some s)) (hname : b ≠ .afterName) : Goes l t a b where
  waits := hb
  loose := fun _ => Or.inl ha
  token := by
    intro h
    rw [ha] at h
    exact absurd h.symm Bool.false_ne_true
  inside := fun s hs => absurd hs (hhead s)
  named := fun h => absurd h hname

theorem goes_clause {a : MethodStage} (hl : l.memberOrder = .typeFirst) (ha : a.isLoose = true) :
    Goes l t a .clause :=
  goes_loose ha (MethodStage.waits_clause hl) (by simp) (by simp)

theorem goes_expression {a : MethodStage} (hl : l.memberOrder = .typeFirst)
    (ha : a.isLoose = true) : Goes l t a .expression :=
  goes_loose ha (MethodStage.waits_expression hl) (by simp) (by simp)

/-! ### The type -/

/-- The type in front of the name. -/
theorem accepts_acceptType_first {d : MethodDraft} {tm : TypeMachine}
    {accept : MethodDraft → Step MethodMachine} (ht : t.kind ≠ .comment)
    (hl : l.memberOrder = .typeFirst) (htm : tm = .idle ∨ ∃ r, tm = .found r)
    (haccept : ∀ d, Accepts l t m (accept d)) :
    Accepts l t m (acceptType l d tm t type name accept) := by
  have htype := TypeMachine.accepts_accept l true tm t
  have hgoes : ∀ {tm' : TypeMachine} {b : MethodStage}, TypeMachine.Goes l t tm tm' →
      Waits l b → b.isLoose = false → (∀ s, b ≠ .head (some s)) → b ≠ .afterName →
      Goes l t m.stage b := by
    intro tm' b h hw hb hhead hname
    refine ⟨hw, fun hloose => absurd hloose (by simp [hb]), fun _ => ?_,
      fun s hs => absurd hs (hhead s), fun hn => absurd hn hname⟩
    rcases (h.word hl htm).2 with h | h | h | h
    · exact token_of_kind (Or.inl (by rw [h]; decide)) (Or.inl (by rw [h]; decide))
        (Or.inl (by rw [h]; decide))
    · exact token_of_kind (Or.inl (by rw [h]; decide)) (Or.inl (by rw [h]; decide))
        (Or.inl (by rw [h]; decide))
    · have hkind := Token.kind_of_isOperator h
      exact token_of_kind (Or.inl (by rw [hkind]; decide)) (Or.inl (by rw [hkind]; decide))
        (Or.inr (Or.inl h))
    · have hkind := Token.kind_of_isOperator h
      exact token_of_kind (Or.inl (by rw [hkind]; decide)) (Or.inl (by rw [hkind]; decide))
        (Or.inr (Or.inr (Or.inl h)))
  rw [acceptType]
  generalize tm.accept l true t = s at htype
  cases htype with
  | @goes tm' malformed h hc hf =>
      obtain ⟨r, rfl | rfl⟩ := (h.word hl htm).1
      · exact .goes (hgoes h (MethodStage.waits_type hl r) rfl (by simp [stage]) (by simp [stage]))
      · exact absurd hc (by simp [TypeMachine.isComplete])
  | ends h =>
      exact .goes (hgoes h (MethodStage.waits_name hl) rfl (by simp [stage]) (by simp [stage]))
  | left => exact (haccept _).after ht _
  | fails => exact .fails

/-- The type behind the parameters. -/
theorem accepts_acceptType_return {d : MethodDraft} {tm : TypeMachine}
    {accept : MethodDraft → Step MethodMachine} (ht : t.kind ≠ .comment)
    (hl : l.memberOrder = .nameFirst) (hm : m.stage.isLoose = true)
    (haccept : ∀ d, Accepts l t m (accept d)) :
    Accepts l t m (acceptType l d tm t returnType afterReturn accept) := by
  have htype := TypeMachine.accepts_accept l true tm t
  have hgoes : ∀ {tm' : TypeMachine}, Goes l t m.stage (.returnType tm') :=
    goes_loose hm (MethodStage.waits_returnType hl _) (by simp) (by simp)
  rw [acceptType]
  generalize tm.accept l true t = s at htype
  cases htype with
  | @goes tm' malformed h hc hf =>
      cases tm' with
      | complete r => exact absurd hc (by simp [TypeMachine.isComplete])
      | failed => exact absurd hf (by simp [TypeMachine.isFailed])
      | idle => exact absurd rfl h.notIdle
      | found r => exact .goes hgoes
      | union r => exact .goes hgoes
      | functionParams => exact .goes hgoes
      | functionArrow => exact .goes hgoes
  | ends h =>
      exact .goes (goes_loose hm (MethodStage.waits_afterReturn hl) (by simp [stage])
        (by simp [stage]))
  | left => exact (haccept _).after ht _
  | fails => exact .fails

/-! ### The two orders -/

theorem goes_modifier {a : MethodStage} (h : l.marks .methodModifier t = true) :
    Goes l t a (.head none) := by
  have hkind := Language.kind_of_marks h
  exact goes_head (by simp) (by simp) fun _ => token_of_kind (Or.inl (by rw [hkind]; decide))
    (Or.inl (by rw [hkind]; decide)) (Or.inl (by rw [hkind]; decide))

/-- A token in front of a method. -/
theorem accepts_acceptHead {started : Bool} {skip : Option AnnotationSkip}
    {modifiers : List String} {typeParams : List TypeRef}
    {rest : Option AnnotationSkip → Step MethodMachine} (hw : Waits l (.head skip))
    (hrest : Accepts l t (head started skip modifiers typeParams) (rest none)) :
    Accepts l t (head started skip modifiers typeParams)
      (acceptHead l started skip modifiers typeParams t rest) := by
  have hnone : ∀ skip', AnnotationSkip.step l skip t = (skip', false) → skip' = none :=
    fun _ => AnnotationSkip.eq_none_of_left fun s hs => hw.skip s (by rw [hs])
  refine acceptHead_of_parts (fun skip' hstep => .goes (goes_skip hw hstep)) ?_ ?_
  · intro skip' hstep hmarks
    obtain rfl := hnone skip' hstep
    exact .goes (goes_modifier hmarks)
  · intro skip' hstep hmarks
    obtain rfl := hnone skip' hstep
    exact hrest

theorem accepts_leaveHead {started : Bool} {typeParams : List TypeRef} :
    Accepts l t m (leaveHead started none typeParams) := by
  rw [leaveHead]
  cases started with
  | true => exact .fails
  | false => exact .idles

theorem accepts_acceptAfterType {o : Owner} {tree : TokenTree} {d : MethodDraft}
    (hl : o.language.memberOrder = .typeFirst)
    (hm : tree.value.isBlock '(' = true → ∀ skip, m.stage ≠ .head skip) :
    Accepts o.language tree.value m (acceptAfterType o d tree) := by
  rw [acceptAfterType]
  split
  · exact accepts_acceptName (beq_iff_eq.1 ‹_›)
  · split
    · rename_i h
      have hparen := (Bool.and_eq_true_iff.1 h).1
      refine accepts_acceptParams hparen (hm hparen) ?_
      intro hname
      rw [hl] at hname
      exact absurd hname (by decide)
    · exact .fails

/-- An angle bracket in front of the type. -/
theorem goes_angle {a : MethodStage} (hl : l.memberOrder = .typeFirst)
    (h : t.isOperator "<" = true) : Goes l t a (.typeParamList {}) where
  waits := MethodStage.waits_typeParamList hl rfl
  loose := fun _ => Or.inr (Or.inl h)
  token := by
    have hkind := Token.kind_of_isOperator h
    exact fun _ => token_of_kind (Or.inl (by rw [hkind]; decide)) (Or.inl (by rw [hkind]; decide))
      (Or.inr (Or.inr (Or.inr h)))
  inside := by simp
  named := by simp

theorem accepts_acceptTypeFirst {o : Owner} {tree : TokenTree}
    (hl : o.language.memberOrder = .typeFirst) (hw : Waits o.language m.stage)
    (ht : tree.value.kind ≠ .comment) :
    Accepts o.language tree.value m (acceptTypeFirst o m tree) := by
  cases m with
  | head started skip modifiers typeParams =>
      rw [acceptTypeFirst_head]
      refine accepts_acceptHead hw ?_
      split
      · exact .goes (goes_angle hl (Bool.and_eq_true_iff.1 ‹_›).1)
      · split
        · rename_i h
          refine accepts_acceptType_first ht hl (Or.inl rfl) fun d => ?_
          refine accepts_acceptAfterType hl fun hparen => ?_
          rw [TypeMachine.isBlock_of_starts h hl] at hparen
          exact absurd hparen Bool.false_ne_true
        · exact accepts_leaveHead
  | typeParamList modifiers list =>
      rw [acceptTypeFirst]
      refine .goes ?_
      split
      · exact goes_loose rfl (MethodStage.waits_head (by simp)) (by simp [stage]) (by simp [stage])
      · rename_i h
        exact goes_loose rfl (MethodStage.waits_typeParamList hl (Bool.eq_false_iff.2 h))
          (by simp [stage]) (by simp [stage])
  | type d machine =>
      obtain ⟨r, rfl⟩ := hw.typed machine rfl
      rw [acceptTypeFirst]
      refine accepts_acceptType_first ht hl (Or.inr ⟨r, rfl⟩) fun d => ?_
      exact accepts_acceptAfterType hl fun _ => by simp [stage]
  | name d => exact accepts_acceptAfterType hl fun _ => by simp [stage]
  | afterName d =>
      rw [acceptTypeFirst]
      split
      · exact accepts_acceptParams ‹_› (by simp [stage]) fun _ => rfl
      · exact .fails
  | afterParams d =>
      rw [acceptTypeFirst]
      split
      · exact .ends rfl ‹_›
      · split
        · exact .goes (goes_expression hl rfl)
        · split
          · exact .goes (goes_clause hl rfl)
          · exact .fails
  | clause d =>
      rw [acceptTypeFirst]
      split
      · exact .ends rfl ‹_›
      · exact .goes (goes_clause hl rfl)
  | expression d =>
      rw [acceptTypeFirst]
      split
      · rename_i h
        refine .ends rfl ?_
        rw [isBody, h, Bool.true_or]
      · exact .goes (goes_expression hl rfl)
  | returnType d machine =>
      have := hw.nameFirst (Or.inr ⟨machine, rfl⟩)
      rw [hl] at this
      exact absurd this (by decide)
  | afterReturn d =>
      have := hw.nameFirst (Or.inl rfl)
      rw [hl] at this
      exact absurd this (by decide)
  | complete d => exact absurd rfl hw.notEnded
  | failed => exact absurd rfl hw.notFailed

theorem accepts_acceptTail {d : MethodDraft} (hm : m.stage.isLoose = true) :
    Accepts l t m (acceptTail d t) := by
  rw [acceptTail]
  split
  · exact .ends hm ‹_›
  · split
    · exact .early hm
    · exact .fails

theorem accepts_acceptNameFirst {o : Owner} {tree : TokenTree}
    (hl : o.language.memberOrder = .nameFirst) (hw : Waits o.language m.stage)
    (ht : tree.value.kind ≠ .comment) :
    Accepts o.language tree.value m (acceptNameFirst o m tree) := by
  have hfirst : ∀ {P : Prop}, o.language.memberOrder = .typeFirst → P := by
    intro P h
    rw [hl] at h
    exact absurd h (by decide)
  cases m with
  | head started skip modifiers typeParams =>
      rw [acceptNameFirst_head]
      refine accepts_acceptHead hw ?_
      split
      · exact accepts_acceptName (beq_iff_eq.1 ‹_›)
      · split
        · exact .goes (goes_afterName (Or.inr (Or.inl (beq_iff_eq.1 ‹_›))))
        · exact accepts_leaveHead
  | afterName d =>
      rw [acceptNameFirst]
      split
      · exact .goes (goes_afterName (Or.inr (Or.inr ‹_›)))
      · split
        · exact accepts_acceptParams ‹_› (by simp [stage]) fun _ => rfl
        · exact .fails
  | afterParams d =>
      rw [acceptNameFirst]
      split
      · exact .goes (goes_loose rfl (MethodStage.waits_returnType hl _) (by simp [stage])
          (by simp [stage]))
      · exact accepts_acceptTail rfl
  | returnType d machine =>
      rw [acceptNameFirst]
      exact accepts_acceptType_return ht hl rfl fun d => accepts_acceptTail rfl
  | afterReturn d => exact accepts_acceptTail rfl
  | typeParamList modifiers list => exact hfirst (hw.typeFirst (Or.inr (Or.inr rfl)))
  | type d machine => exact hfirst (hw.typeFirst (Or.inr (Or.inl ⟨machine, rfl⟩)))
  | name d => exact hfirst (hw.typeFirst (Or.inl rfl))
  | clause d => exact hfirst (hw.typeFirst (Or.inr (Or.inr rfl)))
  | expression d => exact hfirst (hw.typeFirst (Or.inr (Or.inr rfl)))
  | complete d => exact absurd rfl hw.notEnded
  | failed => exact absurd rfl hw.notFailed

/-- What the machine makes of a token. -/
theorem accepts_accept {o : Owner} (tree : TokenTree) (hw : Waits o.language m.stage) :
    Accepts o.language tree.value m (m.accept o tree) :=
  accept_of_parts (P := Accepts o.language tree.value m) .comment
    (fun hl => accepts_acceptTypeFirst hl hw) (fun hl => accepts_acceptNameFirst hl hw)
    fun ht _ _ _ hs => hs.map ht _

end MethodMachine

namespace Extractor

open MethodMachine (idle complete)
open MethodStage (Goes Waits)

/-- What an offer of the token `t` at the place `p`, which is no comment, makes of a machine that
reads methods, of the tokens that it has used, and which methods end. -/
inductive MethodOffer (l : Language) (p : Nat) (t : Token) (m : MethodMachine) (uses : List Use) :
    MethodMachine → List Use → List Item → Prop where
  /-- Nothing is read any more. -/
  | idles {m' : MethodMachine} (hm' : m'.isIdle = true) : MethodOffer l p t m uses m' [] []
  /-- The machine starts anew with the token. -/
  | starts {m' : MethodMachine} (h : Goes l t idle.stage m'.stage) :
      MethodOffer l p t m uses m' [⟨p, method idle⟩] []
  /-- The machine goes on with the token. -/
  | goes {m' : MethodMachine} (h : Goes l t m.stage m'.stage) :
      MethodOffer l p t m uses m' (uses ++ [⟨p, method m⟩]) []
  /-- The token ends a method. -/
  | ends {d : MethodDraft} (hm : m.stage.isLoose = true) (h : MethodMachine.isBody t = true) :
      MethodOffer l p t m uses idle [] [⟨method (complete d), uses ++ [⟨p, method m⟩], p, false⟩]
  /-- A method ends in front of the token, which may start another one. -/
  | early {d : MethodDraft} {m' : MethodMachine} {uses' : List Use}
      (hm : m.stage.isLoose = true)
      (rest : m'.isIdle = true ∧ uses' = [] ∨
        Goes l t idle.stage m'.stage ∧ uses' = [⟨p, method idle⟩]) :
      MethodOffer l p t m uses m' uses' [⟨method (complete d), uses, p, true⟩]

variable {o : Owner} {p : Nat} {t : TokenTree} {m : MethodMachine} {uses : List Use}

theorem waits_idle_method (l : Language) : Waits l idle.stage := MethodStage.waits_head (by simp)

/-- The machine starts anew, or nothing is read. -/
theorem restart_method (ht : t.kind ≠ .comment) :
    ((method idle).accept o t).state.isComplete = false ∧
      ∃ m', (Tracked.restart o p t (method idle)).machine = method m' ∧
        (m'.isIdle = true ∧ (Tracked.restart o p t (method idle)).uses = [] ∨
          Goes o.language t.value idle.stage m'.stage ∧
            (Tracked.restart o p t (method idle)).uses = [⟨p, method idle⟩]) := by
  have hs := MethodMachine.accepts_accept t (waits_idle_method o.language)
  have haccept : (method idle).accept o t = (idle.accept o t).map method := rfl
  simp only [Tracked.restart, haccept]
  generalize idle.accept o t = s at hs ⊢
  cases hs with
  | comment h => exact absurd h ht
  | @goes m' malformed h =>
      refine ⟨MethodMachine.isComplete_of_waits h.waits, m', ?_⟩
      simp only [Step.map, isFailed, MethodMachine.isFailed_of_waits h.waits, Bool.false_eq_true,
        if_false, Tracked.going, isIdle, if_true, true_and]
      cases hidle : m'.isIdle with
      | true => exact Or.inl ⟨rfl, rfl⟩
      | false => exact Or.inr ⟨h, rfl⟩
  | ends hm h => exact absurd hm (by decide)
  | early hm => exact absurd hm (by decide)
  | fails => exact ⟨rfl, idle, rfl, Or.inl ⟨rfl, rfl⟩⟩
  | idles => exact ⟨rfl, _, rfl, Or.inl ⟨rfl, rfl⟩⟩

/-- What an offer makes of a machine that reads methods. -/
theorem methodOffer_of_offer (p : Nat) (uses : List Use) (hw : Waits o.language m.stage)
    (ht : t.kind ≠ .comment) :
    ∃ m' uses', ((⟨method m, uses⟩ : Tracked).offer o p t).1 = ⟨method m', uses'⟩ ∧
      MethodOffer o.language p t.value m uses m' uses'
        ((⟨method m, uses⟩ : Tracked).offer o p t).2.1 := by
  have hs := MethodMachine.accepts_accept t hw
  have haccept : (Tracked.mk (method m) uses).machine.accept o t = (m.accept o t).map method := rfl
  obtain ⟨hreset, m', hm', hrest⟩ := restart_method (o := o) (p := p) ht
  have htracked : Tracked.restart o p t (method idle) =
    ⟨method m', (Tracked.restart o p t (method idle)).uses⟩ := by rw [← hm']
  generalize m.accept o t = s at hs haccept
  cases hs with
  | comment h => exact absurd h ht
  | @goes m' malformed h =>
      rw [Tracked.offer_of_going haccept (by exact MethodMachine.isFailed_of_waits h.waits)
        (by exact MethodMachine.isComplete_of_waits h.waits)]
      cases hidle : m'.isIdle with
      | true => exact ⟨m', [], by simp [Step.map, Tracked.going, isIdle, hidle], .idles hidle⟩
      | false =>
          exact ⟨m', uses ++ [⟨p, method m⟩], by simp [Step.map, Tracked.going, isIdle, hidle],
            .goes h⟩
  | ends hm h =>
      rw [Tracked.offer_of_taken_complete haccept rfl rfl rfl]
      exact ⟨idle, [], rfl, .ends hm h⟩
  | early hm =>
      obtain ⟨hw', hitems⟩ :=
        Tracked.offer_of_left_complete (p := p) haccept rfl rfl rfl (by exact hreset)
      rw [hw', hitems]
      exact ⟨m', _, htracked, .early hm hrest⟩
  | @fails taken malformed =>
      cases taken with
      | true =>
          rw [Tracked.offer_of_taken_failed haccept rfl rfl]
          exact ⟨idle, [], rfl, .idles rfl⟩
      | false =>
          obtain ⟨hw', hitems⟩ :=
            Tracked.offer_of_left_failed (p := p) haccept rfl rfl (by exact hreset)
          rw [hw', hitems]
          split
          · exact ⟨idle, [], rfl, .idles rfl⟩
          · refine ⟨m', _, htracked, ?_⟩
            rcases hrest with ⟨hidle, huses⟩ | ⟨hgoes, huses⟩
            · rw [huses]
              exact .idles hidle
            · rw [huses]
              exact .starts hgoes
  | idles =>
      rw [Tracked.offer_of_going haccept rfl rfl]
      exact ⟨_, [], rfl, .idles rfl⟩

/-! ### Annotations in front of a member -/

theorem machine_of_going {m' : MethodMachine} (malformed : List MalformedType)
    (h : m.accept o t = ⟨m', true, malformed⟩) (hw : Waits o.language m'.stage) :
    ((⟨method m, uses⟩ : Tracked).offer o p t).1.machine = method m' := by
  have haccept : (Tracked.mk (method m) uses).machine.accept o t =
      ⟨method m', true, malformed⟩ := by
    show (m.accept o t).map method = _
    rw [h]
    rfl
  rw [Tracked.offer_of_going haccept (by exact MethodMachine.isFailed_of_waits hw)
    (by exact MethodMachine.isComplete_of_waits hw)]
  rfl

/-- Within a list of type parameters, a clause or an expression a word or an at sign is read like
any other token. -/
theorem method_offer_open (p : Nat) (uses : List Use)
    (hw : Waits o.language m.stage) (hm : m.stage.isOpen = true)
    (ht : t.value.kind = .identifier ∨ t.value.isSeparator "@" = true) :
    ∃ m', ((⟨method m, uses⟩ : Tracked).offer o p t).1.machine = method m' ∧
      m'.stage.isOpen = true := by
  have hl := hw.typeFirst (Or.inr (Or.inr hm))
  have htest : t.value.kind ≠ .comment ∧ t.value.kind ≠ .operator ∧ t.value.isSeparator ";" = false ∧
      t.value.isSeparator "," = false ∧ t.value.isBlock '\x7b' = false := by
    rcases ht with ht | ht
    · exact ⟨by rw [ht]; decide, by rw [ht]; decide,
        Token.isSeparator_eq_false (by rw [ht]; decide) _,
        Token.isSeparator_eq_false (by rw [ht]; decide) _,
        Token.isBlock_eq_false (by rw [ht]; decide) _⟩
    · have hkind := Token.kind_of_isSeparator ht
      exact ⟨by rw [hkind]; decide, by rw [hkind]; decide, Token.isSeparator_ne ht (by decide),
        Token.isSeparator_ne ht (by decide), Token.isBlock_eq_false (by rw [hkind]; decide) _⟩
  obtain ⟨hcomment, hop, hsemi, hcomma, hbrace⟩ := htest
  have hbody : MethodMachine.isBody t.value = false := by
    rw [MethodMachine.isBody, hsemi, hbrace]
    rfl
  cases m with
  | typeParamList modifiers list =>
      have hlist : (list.read t.value).isClosed = false := by
        have hdepth : (list.read t.value).depth = list.depth := by
          simp only [TypeParamList.read, TypeParamList.isAngles, hcomma]
          rw [if_neg (by simp [hop])]
          split
          · simp_all
          · split <;> rfl
        rw [TypeParamList.isClosed, hdepth]
        exact hw.listed list rfl
      refine ⟨.typeParamList modifiers (list.read t.value), ?_, rfl⟩
      refine machine_of_going [] ?_ ?_
      · simp [MethodMachine.accept, hcomment, hl, MethodMachine.acceptTypeFirst, hlist, Step.take,
          Step.map, MethodMachine.mapDraft]
      · exact MethodStage.waits_typeParamList hl hlist
  | clause d =>
      refine ⟨.clause { d with line := t.span.last.line }, ?_, rfl⟩
      refine machine_of_going [] ?_ (MethodStage.waits_clause hl)
      simp [MethodMachine.accept, hcomment, hl, MethodMachine.acceptTypeFirst, hbody, Step.take,
        Step.map, MethodMachine.mapDraft]
  | expression d =>
      refine ⟨.expression { d with line := t.span.last.line }, ?_, rfl⟩
      refine machine_of_going [] ?_ (MethodStage.waits_expression hl)
      simp [MethodMachine.accept, hcomment, hl, MethodMachine.acceptTypeFirst, hsemi, Step.take,
        Step.map, MethodMachine.mapDraft]
  | _ => simp [MethodMachine.stage, MethodStage.isOpen] at hm

/-- The name of an annotation. -/
theorem method_offer_name (p : Nat) (uses : List Use)
    (hm : m.stage = .head (some .name))
    (hl : o.language.annotationStyle = .atSign) (ht : t.value.kind = .identifier) :
    ∃ m', ((⟨method m, uses⟩ : Tracked).offer o p t).1.machine = method m' ∧
      m'.stage = .head (some .arguments) := by
  cases m with
  | head started skip modifiers typeParams =>
      obtain rfl := MethodStage.head.inj hm
      refine ⟨.head started (some .arguments) modifiers typeParams, ?_, rfl⟩
      refine machine_of_going [] ?_ ?_
      · cases ho : o.language.memberOrder <;>
          simp [MethodMachine.accept, ht, ho, MethodMachine.acceptTypeFirst,
            MethodMachine.acceptNameFirst, AnnotationSkip.step, hl, Step.take, Step.map,
            MethodMachine.mapDraft]
      · exact MethodStage.waits_head fun _ _ => hl
  | _ => simp [MethodMachine.stage] at hm

/-- The at sign of an annotation behind annotations and modifiers. -/
theorem accept_at {started : Bool} {modifiers : List String} {typeParams : List TypeRef}
    (hl : o.language.annotationStyle = .atSign) (ht : t.value.isSeparator "@" = true) :
    (MethodMachine.head started none modifiers typeParams).accept o t =
      ⟨.head started (some .name) modifiers typeParams, true, []⟩ := by
  have hkind := Token.kind_of_isSeparator ht
  cases ho : o.language.memberOrder <;>
    simp [MethodMachine.accept, hkind, ho, MethodMachine.acceptTypeFirst,
      MethodMachine.acceptNameFirst, AnnotationSkip.step, hl, ht, Step.take, Step.map,
      MethodMachine.mapDraft]

/-- The machine leaves a token and has done with the method: there is none, or it has ended. -/
def LeavesOff (s : Step MethodMachine) : Prop :=
  s.taken = false ∧ (s.state = .failed ∨ ∃ d, s.state = .complete d)

/-- An at sign is none of the tokens that a machine asks for behind the head. -/
structure IsNoPart (l : Language) (t : Token) : Prop where
  /-- It is a separator. -/
  kind : t.kind = .separator
  /-- It is no operator. -/
  operator : ∀ op, t.isOperator op = false
  /-- It is no block. -/
  block : ∀ bracket, t.isBlock bracket = false
  /-- It is no keyword. -/
  keyword : ∀ word, t.isKeyword word = false
  /-- It is no body. -/
  body : MethodMachine.isBody t = false
  /-- It starts no clause. -/
  clause : MethodMachine.startsClause t = false
  /-- It starts no type. -/
  type : ∀ allowVoid, TypeMachine.starts l allowVoid t = false

theorem isNoPart_at (l : Language) {t : Token} (ht : t.isSeparator "@" = true) : IsNoPart l t := by
  have hkind := Token.kind_of_isSeparator ht
  have hop := Token.isOperator_eq_false (t := t) (by rw [hkind]; decide)
  have hblock := Token.isBlock_eq_false (t := t) (by rw [hkind]; decide)
  refine ⟨hkind, hop, hblock, ?_, ?_, ?_, ?_⟩
  · intro word
    simp [Token.isKeyword, hkind]
  · rw [MethodMachine.isBody, Token.isSeparator_ne ht (by decide), hblock]
    rfl
  · simp [MethodMachine.startsClause, Token.isKeyword, hkind, hop]
  · intro allowVoid
    simp [TypeMachine.starts, hkind]

theorem leavesOff_acceptTail {l : Language} {t : Token} (ht : IsNoPart l t) (d : MethodDraft) :
    LeavesOff (MethodMachine.acceptTail d t) := by
  rw [MethodMachine.acceptTail, ht.body, if_neg Bool.false_ne_true]
  split
  · exact ⟨rfl, Or.inr ⟨d, rfl⟩⟩
  · exact ⟨rfl, Or.inl rfl⟩

theorem leavesOff_acceptAfterType (ht : IsNoPart o.language t.value) (d : MethodDraft) :
    LeavesOff (MethodMachine.acceptAfterType o d t) := by
  have hkind : t.kind = .separator := ht.kind
  simp [MethodMachine.acceptAfterType, hkind, MethodMachine.isConstructor, ht.block, LeavesOff,
    Step.leave]

theorem leavesOff_acceptTypeFirst (hl : o.language.memberOrder = .typeFirst)
    (hw : Waits o.language m.stage) (hm : ∀ skip, m.stage ≠ .head skip)
    (hopen : m.stage.isOpen = false) (ht : IsNoPart o.language t.value) :
    LeavesOff (MethodMachine.acceptTypeFirst o m t) := by
  have hname : ∀ {P : Prop}, o.language.memberOrder = .nameFirst → P := fun h => by
    rw [hl] at h
    cases h
  cases m with
  | head started skip modifiers typeParams => exact absurd rfl (hm skip)
  | typeParamList modifiers list => cases hopen
  | clause d => cases hopen
  | expression d => cases hopen
  | complete d => exact absurd rfl hw.notEnded
  | failed => exact absurd rfl hw.notFailed
  | type d machine =>
      obtain ⟨r, rfl⟩ := hw.typed machine rfl
      simp only [MethodMachine.acceptTypeFirst, MethodMachine.acceptType, TypeMachine.accept,
        ht.operator, Bool.and_false, Bool.false_eq_true, if_false, Step.leave]
      exact leavesOff_acceptAfterType ht _
  | name d => exact leavesOff_acceptAfterType ht d
  | afterName d =>
      rw [MethodMachine.acceptTypeFirst, ht.block]
      exact ⟨rfl, Or.inl rfl⟩
  | afterParams d =>
      rw [MethodMachine.acceptTypeFirst, ht.body, ht.operator, ht.clause]
      exact ⟨rfl, Or.inl rfl⟩
  | afterReturn d => exact hname (hw.nameFirst (Or.inl rfl))
  | returnType d machine => exact hname (hw.nameFirst (Or.inr ⟨machine, rfl⟩))

theorem leavesOff_acceptNameFirst (hl : o.language.memberOrder = .nameFirst)
    (hw : Waits o.language m.stage) (hm : ∀ skip, m.stage ≠ .head skip)
    (ht : IsNoPart o.language t.value) : LeavesOff (MethodMachine.acceptNameFirst o m t) := by
  have hfirst : ∀ {P : Prop}, o.language.memberOrder = .typeFirst → P := fun h => by
    rw [hl] at h
    cases h
  cases m with
  | head started skip modifiers typeParams => exact absurd rfl (hm skip)
  | typeParamList modifiers list => exact hfirst (hw.typeFirst (Or.inr (Or.inr rfl)))
  | type d machine => exact hfirst (hw.typeFirst (Or.inr (Or.inl ⟨machine, rfl⟩)))
  | name d => exact hfirst (hw.typeFirst (Or.inl rfl))
  | clause d => exact hfirst (hw.typeFirst (Or.inr (Or.inr rfl)))
  | expression d => exact hfirst (hw.typeFirst (Or.inr (Or.inr rfl)))
  | complete d => exact absurd rfl hw.notEnded
  | failed => exact absurd rfl hw.notFailed
  | afterName d =>
      rw [MethodMachine.acceptNameFirst, ht.operator, ht.block]
      exact ⟨rfl, Or.inl rfl⟩
  | afterParams d =>
      rw [MethodMachine.acceptNameFirst, ht.operator]
      exact leavesOff_acceptTail ht d
  | afterReturn d => exact leavesOff_acceptTail ht d
  | returnType d machine =>
      have htype : machine.accept o.language true t.value = .leave .failed ∨
          ∃ r, machine.accept o.language true t.value = .leave (.complete r) := by
        cases machine <;> simp [TypeMachine.accept, ht.type, ht.operator, ht.keyword, Step.leave]
      rw [MethodMachine.acceptNameFirst, MethodMachine.acceptType]
      rcases htype with htype | ⟨r, htype⟩
      · rw [htype]
        exact ⟨rfl, Or.inl rfl⟩
      · rw [htype]
        exact leavesOff_acceptTail ht { d with returnType? := some r }

/-- Outside annotations, lists, clauses and expressions an at sign is left for others. -/
theorem accept_at_left (hw : Waits o.language m.stage) (hm : ∀ skip, m.stage ≠ .head skip)
    (hopen : m.stage.isOpen = false) (ht : t.value.isSeparator "@" = true) :
    LeavesOff (m.accept o t) := by
  have hnone := isNoPart_at o.language ht
  refine MethodMachine.accept_of_parts (P := LeavesOff)
    (fun h => absurd (hnone.kind.symm.trans h) (by decide))
    (fun hl _ => leavesOff_acceptTypeFirst hl hw hm hopen hnone)
    (fun hl _ => leavesOff_acceptNameFirst hl hw hm hnone) ?_
  intro _ s _ htaken hs
  exact absurd (hs.1.symm.trans htaken) Bool.false_ne_true

/-- A token at which a method is left off is offered again. -/
theorem offer_of_leavesOff (p : Nat) (uses : List Use) (h : LeavesOff (m.accept o t))
    (hidle : m.isIdle = false) (hopen : ((method idle).accept o t).state.isComplete = false) :
    ((⟨method m, uses⟩ : Tracked).offer o p t).1 = Tracked.restart o p t (method idle) := by
  obtain ⟨htaken, hstate⟩ := h
  have haccept : (Tracked.mk (method m) uses).machine.accept o t = (m.accept o t).map method := rfl
  generalize m.accept o t = s at htaken hstate haccept
  obtain ⟨state, taken, malformed⟩ := s
  obtain rfl : taken = false := htaken
  rcases hstate with rfl | ⟨d, rfl⟩
  · rw [(Tracked.offer_of_left_failed (p := p) haccept rfl rfl (by exact hopen)).1,
      if_neg (by simp [isIdle, hidle])]
    rfl
  · rw [(Tracked.offer_of_left_complete (p := p) haccept rfl rfl rfl (by exact hopen)).1]
    rfl

/-- The at sign of an annotation, at the start of which the machine is not inside another one. -/
theorem method_offer_at (p : Nat) (uses : List Use)
    (hw : Waits o.language m.stage) (hm : ∀ s, m.stage ≠ .head (some s))
    (hl : o.language.annotationStyle = .atSign) (ht : t.value.isSeparator "@" = true) :
    ∃ m', ((⟨method m, uses⟩ : Tracked).offer o p t).1.machine = method m' ∧
      (m'.stage = .head (some .name) ∨ m'.stage.isOpen = true) := by
  have hinside : ∀ {started : Bool} {modifiers : List String} {typeParams : List TypeRef},
      Waits o.language
        (MethodMachine.head started (some .name) modifiers typeParams).stage :=
    MethodStage.waits_head fun _ _ => hl
  cases hopen : m.stage.isOpen with
  | true =>
      obtain ⟨m', hm', ho⟩ := method_offer_open p uses hw hopen (Or.inr ht)
      exact ⟨m', hm', Or.inr ho⟩
  | false =>
      by_cases hhead : ∃ skip, m.stage = .head skip
      · -- the at sign stands in front of a method
        obtain ⟨skip, hhead⟩ := hhead
        cases m with
        | head started skip' modifiers typeParams =>
            obtain rfl := MethodStage.head.inj hhead
            cases skip' with
            | some s => exact absurd rfl (hm s)
            | none =>
                exact ⟨_, machine_of_going [] (accept_at hl ht) hinside, Or.inl rfl⟩
        | _ => simp [MethodMachine.stage] at hhead
      · -- the at sign ends what is read, and is offered again
        have hnot : ∀ skip, m.stage ≠ .head skip := fun skip h => hhead ⟨skip, h⟩
        have hidle : m.isIdle = false := by
          cases m <;> first | rfl | exact absurd rfl (hnot _)
        have hagain : (method idle).accept o t =
            ⟨method (.head false (some .name) [] []), true, []⟩ := by
          show (idle.accept o t).map method = _
          rw [idle, accept_at hl ht]
          rfl
        refine ⟨.head false (some .name) [] [], ?_, Or.inl rfl⟩
        rw [offer_of_leavesOff p uses (accept_at_left hw hnot hopen ht) hidle
          (by rw [hagain]; rfl), Tracked.restart, hagain]
        rfl

end Extractor

end Outline
