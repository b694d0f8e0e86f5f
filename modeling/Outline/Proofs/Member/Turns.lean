import Outline.Member.Extractor

/-!
# The parts of a step

The machines that read fields and methods share two parts.  Both read a type with the machine for
types and go on where it ends, and both leave comments and note the line of a token that they use.

* `Step.OfType` — the steps of a machine that reads a type, by the steps of the machine for types.
* `FieldMachine.accept_of_parts`, `MethodMachine.accept_of_parts` — what holds of the step of either
  order, and of the same step with another line, holds of the step of the machine.
-/

namespace Outline

/-! ## Types within members -/

/-- The steps of a machine that reads a type, each behind the step of the machine for types that it
comes from. -/
inductive Step.OfType {σ : Type} (failed : σ) (within : TypeMachine → σ) (next : TypeRef → σ)
    (left : TypeRef → Step σ) : Step TypeMachine → Step σ → Prop where
  /-- There is no type. -/
  | fails {taken : Bool} {malformed : List MalformedType} :
      OfType failed within next left ⟨.failed, taken, malformed⟩ ⟨failed, taken, malformed⟩
  /-- The type ends with the token. -/
  | ends {r : TypeRef} {malformed : List MalformedType} :
      OfType failed within next left ⟨.complete r, true, malformed⟩ ⟨next r, true, malformed⟩
  /-- The type has ended in front of the token. -/
  | left {r : TypeRef} {malformed : List MalformedType} :
      OfType failed within next left ⟨.complete r, false, malformed⟩ ((left r).after malformed)
  /-- The type goes on. -/
  | goes {m : TypeMachine} {taken : Bool} {malformed : List MalformedType}
      (hc : m.isComplete = false) (hf : m.isFailed = false) :
      OfType failed within next left ⟨m, taken, malformed⟩ ⟨within m, taken, malformed⟩

namespace Step

variable {σ : Type} {failed : σ} {within : TypeMachine → σ} {next : TypeRef → σ}
  {left : TypeRef → Step σ} {s : Step TypeMachine} {u : Step σ}

/-- A machine that reads a type notes what the machine for types notes, if it notes nothing behind
the type. -/
theorem OfType.malformed_eq (h : OfType failed within next left s u)
    (hleft : ∀ r, (left r).malformed = []) : u.malformed = s.malformed := by
  cases h with
  | left =>
      show _ ++ (left _).malformed = _
      rw [hleft, List.append_nil]
  | _ => rfl

/-- It uses the tokens up that the machine for types uses up. -/
theorem OfType.taken_eq_true (h : OfType failed within next left s u) (hs : s.taken = true) :
    u.taken = true := by
  cases h with
  | left => cases hs
  | ends => rfl
  | _ => exact hs

/-- It uses no others up, if it leaves those behind the type.  If it goes on, so does the machine
for types. -/
theorem OfType.used {isFailed : σ → Bool} (h : OfType failed within next left s u)
    (hfailed : isFailed failed = true) (hleft : ∀ r, (left r).taken = false)
    (htaken : u.taken = true) (hgoing : isFailed u.state = false) :
    s.taken = true ∧ s.state.isFailed = false := by
  cases h with
  | fails => exact absurd (hfailed.symm.trans hgoing) (by decide)
  | ends => exact ⟨rfl, rfl⟩
  | left => exact absurd ((hleft _).symm.trans htaken) (by decide)
  | goes hc hf => exact ⟨htaken, hf⟩

/-- What holds of the states at and behind the type holds of the state that is reached. -/
theorem OfType.of_state {P : σ → Prop} (h : OfType failed within next left s u) (fails : P failed)
    (goes : P (within s.state)) (ends : ∀ r, P (next r)) (behind : ∀ r, P (left r).state) :
    P u.state := by
  cases h with
  | fails => exact fails
  | ends => exact ends _
  | left => exact behind _
  | goes => exact goes

/-- A step whose token may be noted. -/
theorem of_noted {P : Step σ → Prop} {s : Step σ} {f : σ → σ} (h : P s)
    (hf : s.taken = true → P (s.map f)) : P (if s.taken then s.map f else s) := by
  split
  · exact hf ‹_›
  · exact h

end Step

namespace FieldMachine

variable {o : Owner}

theorem ofType_acceptType (l : Language) (d : FieldDraft) (m : TypeMachine) (t : Token)
    (next : FieldDraft → FieldMachine) (accept : FieldDraft → Step FieldMachine) :
    Step.OfType failed (type d) (fun r => next { d with type? := some r })
      (fun r => accept { d with type? := some r }) (m.accept l false t)
      (acceptType l d m t next accept) := by
  rw [acceptType]
  generalize m.accept l false t = s
  obtain ⟨state, taken, malformed⟩ := s
  cases state with
  | failed => exact .fails
  | complete r =>
      cases taken with
      | true => exact .ends
      | false => exact .left
  | _ => exact .goes rfl rfl

/-- What holds of a comment that is left, of the step in the order of the language, and of a step
whenever it holds of the step without its line, holds of the step of the machine. -/
theorem accept_of_parts {P : Step FieldMachine → Prop} {m : FieldMachine} {t : Token}
    (comment : t.kind = .comment → P (.leave m))
    (typeFirst : o.language.memberOrder = .typeFirst → t.kind ≠ .comment →
      P (acceptTypeFirst o.language m t))
    (nameFirst : o.language.memberOrder = .nameFirst → t.kind ≠ .comment →
      P (acceptNameFirst o.language m t))
    (noted : t.kind ≠ .comment → ∀ s line, s.taken = true → P s →
      P (s.map (mapDraft fun d => { d with line }))) :
    P (m.accept o t) := by
  rw [accept]
  split
  · exact comment (beq_iff_eq.1 ‹_›)
  · have ht : t.kind ≠ .comment := fun h => ‹¬_› (beq_iff_eq.2 h)
    cases hl : o.language.memberOrder with
    | typeFirst => exact Step.of_noted (typeFirst hl ht) (noted ht _ _ · (typeFirst hl ht))
    | nameFirst => exact Step.of_noted (nameFirst hl ht) (noted ht _ _ · (nameFirst hl ht))

end FieldMachine

namespace MethodMachine

variable {o : Owner}

theorem ofType_acceptType (l : Language) (d : MethodDraft) (m : TypeMachine) (t : Token)
    (within : MethodDraft → TypeMachine → MethodMachine) (next : MethodDraft → MethodMachine)
    (accept : MethodDraft → Step MethodMachine) :
    Step.OfType failed (within d) (fun r => next { d with returnType? := some r })
      (fun r => accept { d with returnType? := some r }) (m.accept l true t)
      (acceptType l d m t within next accept) := by
  rw [acceptType]
  generalize m.accept l true t = s
  obtain ⟨state, taken, malformed⟩ := s
  cases state with
  | failed => exact .fails
  | complete r =>
      cases taken with
      | true => exact .ends
      | false => exact .left
  | _ => exact .goes rfl rfl

/-- Reads a token in front of a method.  A token that is neither a part of an annotation nor a
modifier is read by `rest`. -/
def acceptHead (l : Language) (started : Bool) (skip : Option AnnotationSkip)
    (modifiers : List String) (typeParams : List TypeRef) (t : Token)
    (rest : Option AnnotationSkip → Step MethodMachine) : Step MethodMachine :=
  match AnnotationSkip.step l skip t with
  | (skip, true) => .take (head started skip modifiers typeParams)
  | (skip, false) =>
    if l.marks .methodModifier t then .take (head true skip (modifiers ++ [t.text]) typeParams)
    else rest skip

section Head

variable {started : Bool} {skip : Option AnnotationSkip} {modifiers : List String}
  {typeParams : List TypeRef}

theorem acceptTypeFirst_head {t : TokenTree} :
    acceptTypeFirst o (head started skip modifiers typeParams) t =
      acceptHead o.language started skip modifiers typeParams t.value fun skip =>
        if t.value.isOperator "<" && typeParams.isEmpty then .take (typeParamList modifiers {})
        else if TypeMachine.starts o.language true t.value then
          acceptType o.language { modifiers, typeParams } .idle t.value type name
            (acceptAfterType o · t)
        else leaveHead started skip typeParams := rfl

theorem acceptNameFirst_head {t : TokenTree} :
    acceptNameFirst o (head started skip modifiers typeParams) t =
      acceptHead o.language started skip modifiers typeParams t.value fun skip =>
        if t.kind == .identifier then acceptName { modifiers, typeParams } t.text
        else if t.kind == .string then
          .take (afterName { modifiers, typeParams, name := Text.unquote t.text })
        else leaveHead started skip typeParams := rfl

/-- What holds of a token of an annotation, of a modifier and of other tokens holds of each token in
front of a method. -/
theorem acceptHead_of_parts {P : Step MethodMachine → Prop} {l : Language} {t : Token}
    {rest : Option AnnotationSkip → Step MethodMachine}
    (skips : ∀ skip', AnnotationSkip.step l skip t = (skip', true) →
      P (.take (head started skip' modifiers typeParams)))
    (marks : ∀ skip', AnnotationSkip.step l skip t = (skip', false) →
      l.marks .methodModifier t = true →
      P (.take (head true skip' (modifiers ++ [t.text]) typeParams)))
    (other : ∀ skip', AnnotationSkip.step l skip t = (skip', false) →
      l.marks .methodModifier t = false → P (rest skip')) :
    P (acceptHead l started skip modifiers typeParams t rest) := by
  rw [acceptHead]
  split
  · exact skips _ ‹_›
  · split
    · exact marks _ ‹_› ‹_›
    · exact other _ ‹_› (Bool.eq_false_iff.2 ‹_›)

end Head

/-- The same of the machine that reads methods. -/
theorem accept_of_parts {P : Step MethodMachine → Prop} {m : MethodMachine} {t : TokenTree}
    (comment : t.kind = .comment → P (.leave m))
    (typeFirst : o.language.memberOrder = .typeFirst → t.kind ≠ .comment →
      P (acceptTypeFirst o m t))
    (nameFirst : o.language.memberOrder = .nameFirst → t.kind ≠ .comment →
      P (acceptNameFirst o m t))
    (noted : t.kind ≠ .comment → ∀ s line, s.taken = true → P s →
      P (s.map (mapDraft fun d => { d with line }))) :
    P (m.accept o t) := by
  rw [accept]
  split
  · exact comment (beq_iff_eq.1 ‹_›)
  · have ht : t.kind ≠ .comment := fun h => ‹¬_› (beq_iff_eq.2 h)
    cases hl : o.language.memberOrder with
    | typeFirst => exact Step.of_noted (typeFirst hl ht) (noted ht _ _ · (typeFirst hl ht))
    | nameFirst => exact Step.of_noted (nameFirst hl ht) (noted ht _ _ · (nameFirst hl ht))

end MethodMachine

end Outline
