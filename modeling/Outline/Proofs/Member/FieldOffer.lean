import Outline.Proofs.Member.Offers
import Outline.Proofs.Member.Turns
import Outline.Proofs.Member.TypeSteps

/-!
# What a token does to a field that is being read

* `AnnotationSkip.step_taken` — the tokens of annotations that are passed over.
* `FieldMachine.accepts_accept` — what the machine makes of a token.
* `Extractor.fieldOffer_of_offer` — what an offer makes of the machine and of the tokens that it
  has used.
-/

namespace Outline

/-! ## Annotations in front of a member -/

namespace AnnotationSkip

variable {l : Language} {t : Token} {skip skip' : Option AnnotationSkip}

/-- A token that is passed over. -/
theorem step_taken (h : step l skip t = (skip', true)) :
    (l.annotationStyle = .bracketed ∧ skip' = skip ∧ t.isBlock '[' = true) ∨
      l.annotationStyle = .atSign ∧
        ((skip = none ∧ skip' = some name ∧ t.isSeparator "@" = true) ∨
          (skip = some name ∧ skip' = some arguments ∧ t.kind = .identifier) ∨
            (skip = some arguments ∧ skip' = none ∧ t.isBlock '(' = true)) := by
  unfold step at h
  split at h
  · rename_i hl
    exact Or.inl ⟨hl, (Prod.mk.inj h).1.symm, (Prod.mk.inj h).2⟩
  · rename_i hl
    split at h
    · exact Or.inr ⟨hl, Or.inl ⟨rfl, (Prod.mk.inj h).1.symm, ‹_›⟩⟩
    · exact absurd (Prod.mk.inj h).2 (by decide)
  · rename_i hl
    split at h
    · rename_i hk
      exact Or.inr ⟨hl, Or.inr (Or.inl ⟨rfl, (Prod.mk.inj h).1.symm, beq_iff_eq.1 hk⟩)⟩
    · exact absurd (Prod.mk.inj h).2 (by decide)
  · rename_i hl
    exact Or.inr ⟨hl, Or.inr (Or.inr ⟨rfl, (Prod.mk.inj h).1.symm, (Prod.mk.inj h).2⟩)⟩

/-- A token that is not passed over ends the annotations. -/
theorem step_left (h : step l skip t = (skip', false)) :
    (l.annotationStyle = .bracketed ∧ skip' = skip) ∨
      l.annotationStyle = .atSign ∧ skip' = none ∧
        (skip = none → t.isSeparator "@" = false) ∧
          (skip = some name → t.kind ≠ .identifier) := by
  unfold step at h
  split at h
  · rename_i hl
    exact Or.inl ⟨hl, (Prod.mk.inj h).1.symm⟩
  · rename_i hl
    split at h
    · exact absurd (Prod.mk.inj h).2 (by decide)
    · rename_i hat
      refine Or.inr ⟨hl, (Prod.mk.inj h).1.symm, fun _ => ?_, by simp⟩
      rwa [Bool.not_eq_true] at hat
  · rename_i hl
    split at h
    · exact absurd (Prod.mk.inj h).2 (by decide)
    · rename_i hk
      exact Or.inr ⟨hl, (Prod.mk.inj h).1.symm, by simp, fun _ => by simpa using hk⟩
  · rename_i hl
    exact Or.inr ⟨hl, (Prod.mk.inj h).1.symm, by simp, by simp⟩

/-- A token that is not passed over ends the annotations in front of it. -/
theorem eq_none_of_left (hskip : ∀ s, skip = some s → l.annotationStyle = .atSign)
    (h : step l skip t = (skip', false)) : skip' = none := by
  rcases step_left h with ⟨hl, rfl⟩ | ⟨-, hnone, -⟩
  · cases skip' with
    | none => rfl
    | some s =>
        rw [hskip s rfl] at hl
        exact absurd hl (by decide)
  · exact hnone

end AnnotationSkip

/-! ## Stages -/

/-- How much of a field is read, without what is known of it. -/
inductive FieldStage where
  /-- The annotations and modifiers are read. -/
  | head (skip : Option AnnotationSkip) (modifiers : List String)
  /-- The type is being read. -/
  | type (machine : TypeMachine)
  /-- The type is read. -/
  | name
  /-- The name is read. -/
  | afterName
  /-- The name and the mark after it are read. -/
  | afterMark
  /-- The name and the type after it are read. -/
  | afterType
  /-- The initializer is being read. -/
  | initializer
  /-- The field has ended. -/
  | complete
  /-- There is no field. -/
  | failed
  deriving DecidableEq

namespace FieldMachine

/-- The stage of the machine. -/
def stage : FieldMachine → FieldStage
  | head skip modifiers => .head skip modifiers
  | type _ machine => .type machine
  | name _ => .name
  | afterName _ => .afterName
  | afterMark _ => .afterMark
  | afterType _ => .afterType
  | initializer _ => .initializer
  | complete _ => .complete
  | failed => .failed

@[simp] theorem stage_mapDraft (f : FieldDraft → FieldDraft) (m : FieldMachine) :
    (m.mapDraft f).stage = m.stage := by
  cases m <;> rfl

theorem eq_idle_of_isIdle {m : FieldMachine} (h : m.isIdle = true) : m = idle := by
  unfold isIdle at h
  split at h
  · rfl
  · exact absurd h Bool.false_ne_true

end FieldMachine

namespace FieldStage

/-- What holds of the stage between two tokens. -/
structure Waits (l : Language) (a : FieldStage) : Prop where
  /-- The field has not ended. -/
  notEnded : a ≠ complete
  /-- There may be a field. -/
  notFailed : a ≠ failed
  /-- A token inside an annotation is awaited only where annotations are written with at signs. -/
  skip : ∀ s modifiers, a = head (some s) modifiers → l.annotationStyle = .atSign
  /-- Only where the type comes first a name is awaited behind it. -/
  typeFirst : a = name → l.memberOrder = .typeFirst
  /-- Only where the name comes first a mark or a type is read behind it. -/
  nameFirst : a = afterMark ∨ a = afterType → l.memberOrder = .nameFirst

/-! ### Stages between two tokens -/

section

variable {l : Language}

theorem waits_head {skip : Option AnnotationSkip} {modifiers : List String}
    (h : ∀ s, skip = some s → l.annotationStyle = .atSign) : Waits l (head skip modifiers) :=
  ⟨by simp, by simp, fun s _ hs => h s (head.inj hs).1, by simp, by simp⟩

theorem waits_type (machine : TypeMachine) : Waits l (type machine) :=
  ⟨by simp, by simp, by simp, by simp, by simp⟩

theorem waits_name (hl : l.memberOrder = .typeFirst) : Waits l name :=
  ⟨by simp, by simp, by simp, fun _ => hl, by simp⟩

theorem waits_afterName : Waits l afterName :=
  ⟨by simp, by simp, by simp, by simp, by simp⟩

theorem waits_afterMark (hl : l.memberOrder = .nameFirst) : Waits l afterMark :=
  ⟨by simp, by simp, by simp, by simp, fun _ => hl⟩

theorem waits_afterType (hl : l.memberOrder = .nameFirst) : Waits l afterType :=
  ⟨by simp, by simp, by simp, by simp, fun _ => hl⟩

theorem waits_initializer : Waits l initializer :=
  ⟨by simp, by simp, by simp, by simp, by simp⟩

theorem waits_idle (l : Language) : Waits l FieldMachine.idle.stage := waits_head (by simp)

end

/-- What a token that belongs to a field says about the stages around it. -/
structure Goes (l : Language) (t : Token) (a b : FieldStage) : Prop where
  /-- The next token is awaited. -/
  waits : Waits l b
  /-- An initializer starts behind an equals sign or an arrow. -/
  initial : b = initializer →
    a = initializer ∨ t.isOperator "=" = true ∨ t.isOperator "=>" = true
  /-- A block in parentheses is read as the arguments of an annotation, as a type or in an
  initializer. -/
  paren : t.isBlock '(' = true → a = initializer ∨
    (∃ modifiers, a = head (some .arguments) modifiers ∧ b = head none modifiers) ∨
      l.memberOrder = .nameFirst ∧ (a = type .idle ∨ a = type .functionArrow)
  /-- An angle bracket is read in an initializer only. -/
  angle : t.isOperator "<" = true → a = initializer
  /-- The inside of an annotation is reached behind an at sign or a name. -/
  inside : ∀ s modifiers, b = head (some s) modifiers →
    (t.isSeparator "@" = true ∧ s = .name ∧ a = head none modifiers) ∨
      (t.kind = .identifier ∧ s = .arguments ∧ a = head (some .name) modifiers)
  /-- The place between annotations and modifiers is reached behind a block or a keyword. -/
  between : ∀ modifiers, b = head none modifiers → t.kind = .keyword ∨ t.kind = .block
  /-- A type may start behind a colon. -/
  colon : b = type .idle → t.isOperator ":" = true
  /-- A type may start behind an arrow. -/
  arrow : b = type .functionArrow → t.isOperator "=>" = true

end FieldStage

namespace FieldMachine

open FieldStage (Goes Waits)

theorem isComplete_of_waits {l : Language} {m : FieldMachine} (h : Waits l m.stage) :
    m.isComplete = false := by
  cases m <;> first | rfl | exact absurd rfl h.notEnded

theorem isFailed_of_waits {l : Language} {m : FieldMachine} (h : Waits l m.stage) :
    m.isFailed = false := by
  cases m <;> first | rfl | exact absurd rfl h.notFailed

/-- What the machine makes of a token. -/
inductive Accepts (l : Language) (t : Token) (m : FieldMachine) : Step FieldMachine → Prop where
  /-- A comment is left for others. -/
  | comment (h : t.kind = .comment) : Accepts l t m ⟨m, false, []⟩
  /-- The token belongs to a field. -/
  | goes {m' : FieldMachine} {malformed : List MalformedType} (h : Goes l t m.stage m'.stage) :
      Accepts l t m ⟨m', true, malformed⟩
  /-- The token ends a field. -/
  | ends {d : FieldDraft} {malformed : List MalformedType}
      (hm : ∀ skip modifiers, m ≠ head skip modifiers)
      (h : isEnd t = true ∨ t.isBlock '\x7b' = true) : Accepts l t m ⟨complete d, true, malformed⟩
  /-- The field has ended in front of the token. -/
  | early {d : FieldDraft} {malformed : List MalformedType}
      (hm : ∀ skip modifiers, m ≠ head skip modifiers) (hl : l.memberOrder = .nameFirst) :
      Accepts l t m ⟨complete d, false, malformed⟩
  /-- There is no field. -/
  | fails {taken : Bool} {malformed : List MalformedType} : Accepts l t m ⟨failed, taken, malformed⟩
  /-- Nothing is read in front of the token, nor is it. -/
  | idles {malformed : List MalformedType} : Accepts l t m ⟨idle, false, malformed⟩

variable {l : Language} {t : Token} {m m' : FieldMachine}

theorem Accepts.after {s : Step FieldMachine} (h : Accepts l t m s) (ht : t.kind ≠ .comment)
    (malformed : List MalformedType) : Accepts l t m (s.after malformed) := by
  cases h with
  | comment hc => exact absurd hc ht
  | goes h => exact .goes h
  | ends hm h => exact .ends hm h
  | early hm hl => exact .early hm hl
  | fails => exact .fails
  | idles => exact .idles

/-! ### The head -/

/-- A token of an annotation in front of a field. -/
theorem goes_skip {skip skip' : Option AnnotationSkip} {modifiers : List String}
    (hw : Waits l (.head skip modifiers)) (h : AnnotationSkip.step l skip t = (skip', true)) :
    Goes l t (.head skip modifiers) (.head skip' modifiers) := by
  have hkind : t.kind ≠ .operator := by
    rcases AnnotationSkip.step_taken h with ⟨-, -, hb⟩ | ⟨-, ⟨-, -, hs⟩ | ⟨-, -, hi⟩ | ⟨-, -, hb⟩⟩
    · rw [Token.kind_of_isBlock hb]; decide
    · rw [Token.kind_of_isSeparator hs]; decide
    · rw [hi]; decide
    · rw [Token.kind_of_isBlock hb]; decide
  refine ⟨FieldStage.waits_head ?_, by simp, ?_, ?_, ?_, ?_, by simp, by simp⟩
  · rintro s rfl
    rcases AnnotationSkip.step_taken h with ⟨-, hskip, -⟩ | ⟨hl, -⟩
    · exact hw.skip s modifiers (by rw [hskip])
    · exact hl
  · intro hp
    rcases AnnotationSkip.step_taken h with ⟨-, -, hb⟩ | ⟨-, ⟨-, -, hs⟩ | ⟨-, -, hi⟩ | ⟨hs, hs', -⟩⟩
    · rw [Token.isBlock_ne hb (by decide)] at hp
      exact absurd hp Bool.false_ne_true
    · have := Token.kind_of_isSeparator hs
      rw [Token.kind_of_isBlock hp] at this
      exact absurd this (by decide)
    · rw [Token.kind_of_isBlock hp] at hi
      exact absurd hi (by decide)
    · exact Or.inr (Or.inl ⟨modifiers, by rw [hs], by rw [hs']⟩)
  · intro ha
    exact absurd (Token.kind_of_isOperator ha) hkind
  · intro s mods hs
    obtain ⟨rfl, rfl⟩ := FieldStage.head.inj hs
    rcases AnnotationSkip.step_taken h with
      ⟨hl, hskip, -⟩ | ⟨-, ⟨h0, h1, hs⟩ | ⟨h0, h1, hi⟩ | ⟨h0, h1, -⟩⟩
    · have := hw.skip s modifiers (by rw [hskip])
      rw [hl] at this
      exact absurd this (by decide)
    · exact Or.inl ⟨hs, Option.some.inj h1, by rw [h0]⟩
    · exact Or.inr ⟨hi, Option.some.inj h1, by rw [h0]⟩
    · exact absurd h1 (by simp)
  · intro mods hs
    obtain ⟨rfl, rfl⟩ := FieldStage.head.inj hs
    rcases AnnotationSkip.step_taken h with ⟨-, -, hb⟩ | ⟨-, ⟨-, h1, -⟩ | ⟨-, h1, -⟩ | ⟨-, -, hb⟩⟩
    · exact Or.inr (Token.kind_of_isBlock hb)
    · exact absurd h1 (by simp)
    · exact absurd h1 (by simp)
    · exact Or.inr (Token.kind_of_isBlock hb)

/-- A token in front of the type or the name. -/
theorem accepts_acceptHead {skip : Option AnnotationSkip} {modifiers : List String}
    {start : Option (Step FieldMachine)} (hw : Waits l (.head skip modifiers))
    (hstart : ∀ s ∈ start, Accepts l t (head skip modifiers) s) :
    Accepts l t (head skip modifiers) (acceptHead l skip modifiers t start) := by
  rw [acceptHead]
  split
  · rename_i skip' hstep
    exact .goes (goes_skip hw hstep)
  · rename_i skip' hstep
    obtain rfl := AnnotationSkip.eq_none_of_left (fun s hs => hw.skip s modifiers (by rw [hs])) hstep
    split
    · rename_i hmarks
      have hkind := Language.kind_of_marks hmarks
      refine .goes ⟨FieldStage.waits_head (by simp), by simp [stage], ?_, ?_,
        by simp [stage], fun _ _ => Or.inl hkind, by simp [stage], by simp [stage]⟩
      · intro hp
        rw [Token.kind_of_isBlock hp] at hkind
        exact absurd hkind (by decide)
      · intro ha
        rw [Token.kind_of_isOperator ha] at hkind
        exact absurd hkind (by decide)
    · cases start with
      | some s => exact hstart s rfl
      | none =>
          cases modifiers with
          | nil => exact .idles
          | cons word modifiers => exact .fails

/-! ### The type -/

/-- A token of the type. -/
theorem goes_type {tm tm' : TypeMachine} {b : FieldStage}
    (hm : m.stage = .type tm ∨ l.memberOrder = .typeFirst) (h : TypeMachine.Goes l t tm tm')
    (hb : b = .type tm' ∨ b = .name ∧ l.memberOrder = .typeFirst ∨
      b = .afterType ∧ l.memberOrder = .nameFirst) : Goes l t m.stage b := by
  have hwaits : Waits l b := by
    rcases hb with rfl | ⟨rfl, hl⟩ | ⟨rfl, hl⟩
    · exact FieldStage.waits_type tm'
    · exact FieldStage.waits_name hl
    · exact FieldStage.waits_afterType hl
  have hhead : ∀ skip modifiers, b ≠ .head skip modifiers := by
    rcases hb with rfl | ⟨rfl, -⟩ | ⟨rfl, -⟩ <;> simp
  refine ⟨hwaits, ?_, ?_, ?_, fun s mods hb' => absurd hb' (hhead _ _),
    fun mods hb' => absurd hb' (hhead _ _), ?_, ?_⟩
  · rcases hb with rfl | ⟨rfl, -⟩ | ⟨rfl, -⟩ <;> simp
  · intro hp
    obtain ⟨hl, hidle⟩ := h.paren hp
    rcases hm with hm | hm
    · rw [hm]
      exact Or.inr (Or.inr ⟨hl, hidle.imp (congrArg _) (congrArg _)⟩)
    · rw [hl] at hm
      exact absurd hm (by decide)
  · intro ha
    rw [h.angle] at ha
    exact absurd ha Bool.false_ne_true
  · rcases hb with rfl | ⟨rfl, -⟩ | ⟨rfl, -⟩
    · intro hb
      exact absurd (FieldStage.type.inj hb) h.notIdle
    · simp
    · simp
  · rcases hb with rfl | ⟨rfl, -⟩ | ⟨rfl, -⟩
    · intro hb
      exact h.arrow (FieldStage.type.inj hb)
    · simp
    · simp

theorem accepts_acceptType {d : FieldDraft} {tm : TypeMachine} {next : FieldDraft → FieldMachine}
    {accept : FieldDraft → Step FieldMachine} (ht : t.kind ≠ .comment)
    (hm : m.stage = .type tm ∨ l.memberOrder = .typeFirst)
    (hnext : ∀ d, (next d).stage = .name ∧ l.memberOrder = .typeFirst ∨
      (next d).stage = .afterType ∧ l.memberOrder = .nameFirst)
    (haccept : ∀ d, Accepts l t m (accept d)) :
    Accepts l t m (acceptType l d tm t next accept) := by
  have htype := TypeMachine.accepts_accept l false tm t
  rw [acceptType]
  generalize tm.accept l false t = s at htype
  cases htype with
  | @goes tm' malformed h hc hf =>
      cases tm' with
      | complete r => exact absurd hc (by simp [TypeMachine.isComplete])
      | failed => exact absurd hf (by simp [TypeMachine.isFailed])
      | idle => exact absurd rfl h.notIdle
      | found r => exact .goes (goes_type hm h (Or.inl rfl))
      | union r => exact .goes (goes_type hm h (Or.inl rfl))
      | functionParams => exact .goes (goes_type hm h (Or.inl rfl))
      | functionArrow => exact .goes (goes_type hm h (Or.inl rfl))
  | ends h => exact .goes (goes_type hm h (Or.inr (hnext _)))
  | left => exact (haccept _).after ht _
  | fails => exact .fails

/-! ### The two orders -/

/-- A word or an operator other than an angle bracket, behind the head. -/
theorem goes_behind {b : FieldStage} (hparen : t.isBlock '(' = false)
    (hangle : t.isOperator "<" = false)
    (hb : b = .afterName ∨ b = .afterMark ∧ l.memberOrder = .nameFirst ∨
      b = .type .idle ∧ t.isOperator ":" = true ∨
      b = .initializer ∧ (t.isOperator "=" = true ∨ t.isOperator "=>" = true)) :
    Goes l t m.stage b := by
  rcases hb with rfl | ⟨rfl, hl⟩ | ⟨rfl, hcolon⟩ | ⟨rfl, hequals⟩
  · exact ⟨FieldStage.waits_afterName, by simp, by simp [hparen], by simp [hangle], by simp,
      by simp, by simp, by simp⟩
  · exact ⟨FieldStage.waits_afterMark hl, by simp, by simp [hparen], by simp [hangle], by simp,
      by simp, by simp, by simp⟩
  · exact ⟨FieldStage.waits_type _, by simp, by simp [hparen], by simp [hangle], by simp, by simp,
      fun _ => hcolon, by simp⟩
  · exact ⟨FieldStage.waits_initializer, fun _ => Or.inr hequals, by simp [hparen],
      by simp [hangle], by simp, by simp, by simp, by simp⟩

/-- Any token of an initializer. -/
theorem goes_initializer : Goes l t .initializer .initializer :=
  ⟨FieldStage.waits_initializer, fun _ => Or.inl rfl, fun _ => Or.inl rfl, fun _ => rfl, by simp,
    by simp, by simp, by simp⟩

theorem accepts_acceptName (d : FieldDraft) : Accepts l t m (acceptName d t) := by
  rw [acceptName]
  split
  · rename_i h
    have hkind : t.kind = .identifier := beq_iff_eq.1 (Bool.and_eq_true_iff.1 h).1
    exact .goes (goes_behind (Token.isBlock_eq_false (by rw [hkind]; decide) _)
      (Token.isOperator_eq_false (by rw [hkind]; decide) _) (Or.inl rfl))
  · exact .fails

/-- An operator other than an angle bracket behind the head. -/
theorem goes_operator {op : String} {b : FieldStage} (h : t.isOperator op = true) (hop : op ≠ "<")
    (hb : b = .afterMark ∧ l.memberOrder = .nameFirst ∨ b = .type .idle ∧ op = ":" ∨
      b = .initializer ∧ (op = "=" ∨ op = "=>")) : Goes l t m.stage b := by
  have hkind := Token.kind_of_isOperator h
  refine goes_behind (Token.isBlock_eq_false (by rw [hkind]; decide) _)
    (Token.isOperator_ne h hop) ?_
  rcases hb with hb | ⟨rfl, rfl⟩ | ⟨rfl, rfl | rfl⟩
  · exact Or.inr (Or.inl hb)
  · exact Or.inr (Or.inr (Or.inl ⟨rfl, h⟩))
  · exact Or.inr (Or.inr (Or.inr ⟨rfl, Or.inl h⟩))
  · exact Or.inr (Or.inr (Or.inr ⟨rfl, Or.inr h⟩))

theorem accepts_acceptTypeFirst (hl : l.memberOrder = .typeFirst) (hw : Waits l m.stage)
    (ht : t.kind ≠ .comment) : Accepts l t m (acceptTypeFirst l m t) := by
  cases m with
  | head skip modifiers =>
      refine accepts_acceptHead hw ?_
      intro s hs
      split at hs
      · obtain rfl := Option.some.inj hs
        exact accepts_acceptType ht (Or.inr hl) (fun _ => Or.inl ⟨rfl, hl⟩)
          (fun d => accepts_acceptName d)
      · exact absurd hs (by simp)
  | type d machine =>
      exact accepts_acceptType ht (Or.inl rfl) (fun _ => Or.inl ⟨rfl, hl⟩)
        (fun d => accepts_acceptName d)
  | name d => exact accepts_acceptName d
  | afterName d =>
      rw [acceptTypeFirst]
      split
      · exact .ends (by simp) (Or.inl ‹_›)
      · split
        · rename_i h
          rcases Bool.or_eq_true_iff.1 h with h | h
          · exact .goes (goes_operator h (by decide) (Or.inr (Or.inr ⟨rfl, Or.inl rfl⟩)))
          · exact .goes (goes_operator h (by decide) (Or.inr (Or.inr ⟨rfl, Or.inr rfl⟩)))
        · split
          · rename_i h
            exact .ends (by simp) (Or.inr (Bool.and_eq_true_iff.1 h).1)
          · exact .fails
  | initializer d =>
      rw [acceptTypeFirst]
      split
      · rename_i h
        refine .ends (by simp) (Or.inl ?_)
        rw [isEnd, h, Bool.true_or]
      · exact .goes goes_initializer
  | afterMark d =>
      have := hw.nameFirst (Or.inl rfl)
      rw [hl] at this
      exact absurd this (by decide)
  | afterType d =>
      have := hw.nameFirst (Or.inr rfl)
      rw [hl] at this
      exact absurd this (by decide)
  | complete d => exact absurd rfl hw.notEnded
  | failed => exact absurd rfl hw.notFailed

theorem accepts_acceptTail (hl : l.memberOrder = .nameFirst)
    (hm : ∀ skip modifiers, m ≠ head skip modifiers) (d : FieldDraft) :
    Accepts l t m (acceptTail d t) := by
  rw [acceptTail]
  split
  · rename_i h
    exact .goes (goes_operator h (by decide) (Or.inr (Or.inr ⟨rfl, Or.inl rfl⟩)))
  · split
    · exact .ends hm (Or.inl ‹_›)
    · split
      · exact .early hm hl
      · exact .fails

theorem accepts_acceptNameFirst (hl : l.memberOrder = .nameFirst) (hw : Waits l m.stage)
    (ht : t.kind ≠ .comment) : Accepts l t m (acceptNameFirst l m t) := by
  cases m with
  | head skip modifiers =>
      refine accepts_acceptHead hw ?_
      intro s hs
      split at hs
      · rename_i hname
        obtain rfl := Option.some.inj hs
        rw [isFieldName, Bool.and_eq_true, Bool.or_eq_true, beq_iff_eq, beq_iff_eq] at hname
        have hkind : t.kind ≠ .operator ∧ t.kind ≠ .block := by
          rcases hname.1 with h | h <;> rw [h] <;> decide
        exact .goes (goes_behind (Token.isBlock_eq_false hkind.2 _)
          (Token.isOperator_eq_false hkind.1 _) (Or.inl rfl))
      · exact absurd hs (by simp)
  | type d machine =>
      exact accepts_acceptType ht (Or.inl rfl) (fun _ => Or.inr ⟨rfl, hl⟩)
        (fun d => accepts_acceptTail hl (by simp) d)
  | name d =>
      have := hw.typeFirst rfl
      rw [hl] at this
      exact absurd this (by decide)
  | afterName d =>
      rw [acceptNameFirst]
      split
      · rename_i h
        exact .goes (goes_operator h (by decide) (Or.inr (Or.inl ⟨rfl, rfl⟩)))
      · split
        · rename_i h
          exact .goes (goes_operator h (by decide) (Or.inl ⟨rfl, hl⟩))
        · split
          · rename_i h
            exact .goes (goes_operator h (by decide) (Or.inl ⟨rfl, hl⟩))
          · exact accepts_acceptTail hl (by simp) d
  | afterMark d =>
      rw [acceptNameFirst]
      split
      · rename_i h
        exact .goes (goes_operator h (by decide) (Or.inr (Or.inl ⟨rfl, rfl⟩)))
      · exact accepts_acceptTail hl (by simp) d
  | afterType d => exact accepts_acceptTail hl (by simp) d
  | initializer d =>
      rw [acceptNameFirst]
      split
      · rename_i h
        refine .ends (by simp) (Or.inl ?_)
        rw [isEnd, h, Bool.true_or]
      · split
        · exact .early (by simp) hl
        · exact .goes goes_initializer
  | complete d => exact absurd rfl hw.notEnded
  | failed => exact absurd rfl hw.notFailed

/-! ## Offers -/

theorem Accepts.map {s : Step FieldMachine} (h : Accepts l t m s) (ht : t.kind ≠ .comment)
    (f : FieldDraft → FieldDraft) : Accepts l t m (s.map (mapDraft f)) := by
  cases h with
  | comment hc => exact absurd hc ht
  | goes h =>
      refine .goes ?_
      rw [stage_mapDraft]
      exact h
  | ends hm h => exact .ends hm h
  | early hm hl => exact .early hm hl
  | fails => exact .fails
  | idles => exact .idles

/-- What the machine makes of a token. -/
theorem accepts_accept {o : Owner} (hw : Waits o.language m.stage) (t : Token) :
    Accepts o.language t m (m.accept o t) :=
  accept_of_parts (P := Accepts o.language t m) .comment
    (fun hl => accepts_acceptTypeFirst hl hw) (fun hl => accepts_acceptNameFirst hl hw)
    fun ht _ _ _ hs => hs.map ht _

end FieldMachine

namespace Extractor

open FieldMachine (idle complete)
open FieldStage (Goes Waits)

/-- What an offer of the token `t` at the place `p`, which is no comment, makes of a machine that
reads fields, of the tokens that it has used, and which fields end. -/
inductive FieldOffer (l : Language) (p : Nat) (t : Token) (m : FieldMachine) (uses : List Use) :
    FieldMachine → List Use → List Item → Prop where
  /-- Nothing is read any more. -/
  | idles : FieldOffer l p t m uses idle [] []
  /-- The machine starts anew with the token. -/
  | starts {m' : FieldMachine} (h : Goes l t idle.stage m'.stage) (hm' : m'.isIdle = false) :
      FieldOffer l p t m uses m' [⟨p, field idle⟩] []
  /-- The machine goes on with the token. -/
  | goes {m' : FieldMachine} (h : Goes l t m.stage m'.stage) (hm' : m'.isIdle = false) :
      FieldOffer l p t m uses m' (uses ++ [⟨p, field m⟩]) []
  /-- The token ends a field. -/
  | ends {d : FieldDraft} (hm : ∀ skip modifiers, m ≠ .head skip modifiers)
      (h : FieldMachine.isEnd t = true ∨ t.isBlock '\x7b' = true) :
      FieldOffer l p t m uses idle [] [⟨field (complete d), uses ++ [⟨p, field m⟩], p, false⟩]
  /-- A field ends in front of the token, which may start another one. -/
  | early {d : FieldDraft} {m' : FieldMachine} {uses' : List Use}
      (hm : ∀ skip modifiers, m ≠ .head skip modifiers) (hl : l.memberOrder = .nameFirst)
      (rest : m' = idle ∧ uses' = [] ∨
        Goes l t idle.stage m'.stage ∧ m'.isIdle = false ∧ uses' = [⟨p, field idle⟩]) :
      FieldOffer l p t m uses m' uses' [⟨field (complete d), uses, p, true⟩]

variable {o : Owner} {p : Nat} {t : TokenTree} {m : FieldMachine} {uses : List Use}

/-- The machine starts anew, or nothing is read. -/
theorem restart_field (ht : t.kind ≠ .comment) :
    ((field idle).accept o t).state.isComplete = false ∧
      ∃ m', (Tracked.restart o p t (field idle)).machine = field m' ∧
        (m' = idle ∧ (Tracked.restart o p t (field idle)).uses = [] ∨
          Goes o.language t.value idle.stage m'.stage ∧ m'.isIdle = false ∧
            (Tracked.restart o p t (field idle)).uses = [⟨p, field idle⟩]) := by
  have hs := FieldMachine.accepts_accept (o := o) (FieldStage.waits_idle o.language) t.value
  have haccept : (field idle).accept o t = (idle.accept o t.value).map field := rfl
  simp only [Tracked.restart, haccept]
  generalize idle.accept o t.value = s at hs ⊢
  cases hs with
  | comment h => exact absurd h ht
  | @goes m' malformed h =>
      refine ⟨FieldMachine.isComplete_of_waits h.waits, m', ?_⟩
      simp only [Step.map, isFailed, FieldMachine.isFailed_of_waits h.waits, Bool.false_eq_true,
        if_false, Tracked.going, isIdle,
        if_true, true_and]
      cases hidle : m'.isIdle with
      | true => exact Or.inl ⟨FieldMachine.eq_idle_of_isIdle hidle, rfl⟩
      | false => exact Or.inr ⟨h, rfl, rfl⟩
  | ends hm h => exact absurd rfl (hm none [])
  | early hm hl => exact absurd rfl (hm none [])
  | fails => exact ⟨rfl, idle, rfl, Or.inl ⟨rfl, rfl⟩⟩
  | idles => exact ⟨rfl, idle, rfl, Or.inl ⟨rfl, rfl⟩⟩

/-- What an offer makes of a machine that reads fields. -/
theorem fieldOffer_of_offer (p : Nat) (uses : List Use) (hw : Waits o.language m.stage)
    (ht : t.kind ≠ .comment) :
    ∃ m' uses', ((⟨field m, uses⟩ : Tracked).offer o p t).1 = ⟨field m', uses'⟩ ∧
      FieldOffer o.language p t.value m uses m' uses'
        ((⟨field m, uses⟩ : Tracked).offer o p t).2.1 := by
  have hs := FieldMachine.accepts_accept hw t.value
  have haccept : (Tracked.mk (field m) uses).machine.accept o t =
    (m.accept o t.value).map field := rfl
  obtain ⟨hreset, m', hm', hrest⟩ := restart_field (o := o) (p := p) ht
  have htracked : Tracked.restart o p t (field idle) =
    ⟨field m', (Tracked.restart o p t (field idle)).uses⟩ := by rw [← hm']
  generalize m.accept o t.value = s at hs haccept
  cases hs with
  | comment h => exact absurd h ht
  | @goes m' malformed h =>
      rw [Tracked.offer_of_going haccept (by exact FieldMachine.isFailed_of_waits h.waits)
        (by exact FieldMachine.isComplete_of_waits h.waits)]
      cases hidle : m'.isIdle with
      | true =>
          obtain rfl := FieldMachine.eq_idle_of_isIdle hidle
          exact ⟨idle, [], rfl, .idles⟩
      | false =>
          exact ⟨m', uses ++ [⟨p, field m⟩], by simp [Step.map, Tracked.going, isIdle, hidle],
            .goes h hidle⟩
  | ends hm h =>
      rw [Tracked.offer_of_taken_complete haccept rfl rfl rfl]
      exact ⟨idle, [], rfl, .ends hm h⟩
  | early hm hl =>
      obtain ⟨hw', hitems⟩ :=
        Tracked.offer_of_left_complete (p := p) haccept rfl rfl rfl (by exact hreset)
      rw [hw', hitems]
      exact ⟨m', _, htracked, .early hm hl (by
        rcases hrest with ⟨rfl, huses⟩ | ⟨hgoes, hidle, huses⟩
        · exact Or.inl ⟨rfl, huses⟩
        · exact Or.inr ⟨hgoes, hidle, huses⟩)⟩
  | @fails taken malformed =>
      cases taken with
      | true =>
          rw [Tracked.offer_of_taken_failed haccept rfl rfl]
          exact ⟨idle, [], rfl, .idles⟩
      | false =>
          obtain ⟨hw', hitems⟩ :=
            Tracked.offer_of_left_failed (p := p) haccept rfl rfl (by exact hreset)
          rw [hw', hitems]
          split
          · exact ⟨idle, [], rfl, .idles⟩
          · refine ⟨m', _, htracked, ?_⟩
            rcases hrest with ⟨rfl, huses⟩ | ⟨hgoes, hidle, huses⟩
            · rw [huses]
              exact .idles
            · rw [huses]
              exact .starts hgoes hidle
  | idles =>
      rw [Tracked.offer_of_going haccept rfl rfl]
      exact ⟨idle, [], rfl, .idles⟩

end Extractor

end Outline
