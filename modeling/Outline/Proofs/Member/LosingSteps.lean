import Outline.Proofs.Member.Malformed

/-!
# Steps that note a malformed type

A text in the place of a type that is none is noted by one step of one machine, and the step that
notes it is the last one of what the machine reads: the token is used up and the machine gives up.

* `TypeMachine.loses_accept`, `FieldMachine.loses_accept`, `MethodMachine.loses_accept` — the steps
  of the machines.
* `Parameter.malformed_ofParens_of_some` — parameters that are read note nothing.
* `Extractor.loses_accept` — the steps of all machines.
-/

namespace Outline

/-! ## Steps that note a malformed type -/

/-- A step notes nothing, or it uses the token up and gives up. -/
def Step.Loses {σ : Type} (isFailed : σ → Bool) (s : Step σ) : Prop :=
  s.malformed = [] ∨ s.taken = true ∧ isFailed s.state = true

namespace Step

variable {σ τ : Type} {isFailed : σ → Bool}

theorem loses_take (state : σ) : (take state).Loses isFailed := .inl rfl

theorem loses_leave (state : σ) : (leave state).Loses isFailed := .inl rfl

theorem Loses.map {s : Step σ} (h : s.Loses isFailed) {f : σ → τ} {isFailed' : τ → Bool}
    (hf : ∀ state, isFailed state = true → isFailed' (f state) = true) :
    (s.map f).Loses isFailed' :=
  h.imp id fun h => ⟨h.1, hf _ h.2⟩

/-- Where the machine for types notes something, the machine that reads the type gives up. -/
theorem OfType.loses {failed : σ} {within : TypeMachine → σ} {next : TypeRef → σ}
    {left : TypeRef → Step σ} {s : Step TypeMachine} {u : Step σ}
    (h : OfType failed within next left s u) (hfailed : isFailed failed = true)
    (hs : s.Loses TypeMachine.isFailed) (hleft : ∀ r, (left r).Loses isFailed) :
    u.Loses isFailed := by
  cases h with
  | fails => exact hs.imp id fun h => ⟨h.1, hfailed⟩
  | ends => exact .inl (hs.resolve_right fun h => absurd h.2 Bool.false_ne_true)
  | left =>
      obtain rfl := hs.resolve_right fun h => absurd h.2 Bool.false_ne_true
      exact hleft _
  | goes hc hf => exact .inl (hs.resolve_right fun h => absurd (h.2.symm.trans hf) (by decide))

end Step

namespace TypeMachine

variable {l : Language} {t : Token}

theorem loses_find (text : String) : (find text).Loses isFailed := by
  unfold find
  split
  · exact Step.loses_take _
  · exact .inr ⟨rfl, rfl⟩

theorem loses_accept (l : Language) (allowVoid : Bool) (m : TypeMachine) (t : Token) :
    (m.accept l allowVoid t).Loses isFailed := by
  cases m with
  | idle =>
      rw [accept]
      split
      · exact Step.loses_leave _
      · split
        · exact Step.loses_take _
        · exact loses_find _
  | functionArrow =>
      rw [accept]
      split
      · exact loses_find _
      · exact Step.loses_leave _
  | found type => rw [accept]; split_ifs <;> exact .inl rfl
  | union type => rw [accept]; split_ifs <;> exact .inl rfl
  | functionParams => rw [accept]; split_ifs <;> exact .inl rfl
  | complete type => exact .inl rfl
  | failed => exact .inl rfl

/-- The machine notes nothing on its way through a list of tokens, or it has given up. -/
theorem malformed_readFrom_or_failed (ts : List TokenTree) (m : TypeMachine) :
    (readFrom l false m ts).2.2 = [] ∨ (readFrom l false m ts).1 = failed := by
  induction ts generalizing m with
  | nil => exact .inl rfl
  | cons t ts ih =>
      have hstep := loses_accept l false m t.value
      rw [readFrom]
      dsimp only
      split
      · rename_i hleft
        refine hstep.imp id fun h => ?_
        rw [h.1] at hleft
        exact absurd hleft (by decide)
      · split
        · refine hstep.imp id fun h => ?_
          generalize (m.accept l false t.value).state = m' at h
          cases m' <;> first | rfl | exact absurd h.2 Bool.false_ne_true
        · rename_i hgoing
          have hnone : (m.accept l false t.value).malformed = [] := by
            refine hstep.resolve_right fun h => hgoing ?_
            rw [h.2, Bool.or_true]
          rw [hnone]
          exact ih _

/-- A type that is read from a list of tokens notes nothing. -/
theorem malformed_read_of_some {ts : List TokenTree} {found : TypeRef × List TokenTree}
    (h : (read l ts).1 = some found) : (read l ts).2 = [] := by
  have hread := malformed_readFrom_or_failed (l := l) ts idle
  rw [read] at h ⊢
  generalize readFrom l false idle ts = answer at h hread ⊢
  obtain ⟨m, rest, malformed⟩ := answer
  refine hread.resolve_right ?_
  rintro rfl
  cases h

end TypeMachine

namespace Parameter

variable {l : Language}

theorem malformed_readTypeFirst_of_some {place : Nat} {group : List TokenTree}
    {p : Parameter TypeRef}
    (h : (readTypeFirst l place group).1 = some p) : (readTypeFirst l place group).2 = [] := by
  have hread : ∀ found, (TypeMachine.read l (lead l place group).rest).1 = some found →
      (TypeMachine.read l (lead l place group).rest).2 = [] :=
    fun found => TypeMachine.malformed_read_of_some
  unfold readTypeFirst at h ⊢
  dsimp only at h ⊢
  split at h
  · rename_i type name rest malformed heq
    rw [heq] at hread
    have hnone := hread _ rfl
    dsimp only at h hnone ⊢
    split at h
    · rename_i hkind
      rw [if_pos hkind]
      exact hnone
    · cases h
  · cases h

theorem malformed_readAnnotatedType_of_some {ts : List TokenTree}
    {found : TypeRef × List TokenTree} (h : (readAnnotatedType l ts).1 = some found) :
    (readAnnotatedType l ts).2 = [] := by
  unfold readAnnotatedType at h ⊢
  split at h
  · split at h
    · rename_i hcolon
      rw [if_pos hcolon]
      exact TypeMachine.malformed_read_of_some h
    · rename_i hcolon
      rw [if_neg hcolon]
  · rfl

theorem malformed_readNameFirst_of_some {place : Nat} {group : List TokenTree}
    {p : Parameter TypeRef}
    (h : (readNameFirst l place group).1 = some p) : (readNameFirst l place group).2 = [] := by
  unfold readNameFirst at h ⊢
  dsimp only at h ⊢
  generalize takeOperator "..." (lead l place group).rest = taken at h ⊢
  obtain ⟨takesRest, ts⟩ := taken
  cases ts with
  | nil => cases h
  | cons name ts =>
      dsimp only at h ⊢
      split at h
      · cases h
      · rename_i hname
        rw [if_neg hname]
        have hread : ∀ found, (readAnnotatedType l (takeOperator "?" ts).2).1 = some found →
            (readAnnotatedType l (takeOperator "?" ts).2).2 = [] :=
          fun found => malformed_readAnnotatedType_of_some
        generalize readAnnotatedType l (takeOperator "?" ts).2 = found at h hread ⊢
        obtain ⟨_ | found, malformed⟩ := found
        · cases h
        · exact hread _ rfl

theorem malformed_read_of_some {place : Nat} {group : List TokenTree} {p : Parameter TypeRef}
    (h : (read l place group).1 = some p) : (read l place group).2 = [] := by
  unfold read at h ⊢
  split at h
  · exact malformed_readTypeFirst_of_some h
  · exact malformed_readNameFirst_of_some h

theorem malformed_readGroups_of_some {place : Nat} {groups : List (List TokenTree)}
    {ps : List (Parameter TypeRef)} (h : (readGroups l place groups).1 = some ps) :
    (readGroups l place groups).2 = [] := by
  induction groups generalizing place ps with
  | nil => rfl
  | cons group groups ih =>
      have hread : ∀ p, (read l place group).1 = some p → (read l place group).2 = [] :=
        fun p => malformed_read_of_some
      rw [readGroups] at h ⊢
      generalize read l place group = found at h hread ⊢
      obtain ⟨_ | p, malformed⟩ := found
      · cases h
      · dsimp only at h ⊢
        obtain ⟨ps', hps', -⟩ := Option.map_eq_some_iff.1 h
        rw [ih hps', List.append_nil]
        exact hread p rfl

/-- Parameters that are read from a block note nothing. -/
theorem malformed_ofParens_of_some {block : TokenTree} {ps : List (Parameter TypeRef)}
    (h : (ofParens l block).1 = some ps) : (ofParens l block).2 = [] :=
  malformed_readGroups_of_some h

end Parameter

namespace FieldMachine

variable {l : Language} {t : Token}

theorem loses_acceptType {d : FieldDraft} {m : TypeMachine} {next : FieldDraft → FieldMachine}
    {accept : FieldDraft → Step FieldMachine} (haccept : ∀ d, (accept d).Loses isFailed) :
    (acceptType l d m t next accept).Loses isFailed :=
  (ofType_acceptType l d m t next accept).loses rfl (TypeMachine.loses_accept l false m t)
    fun _ => haccept _

theorem loses_acceptHead {skip : Option AnnotationSkip} {modifiers : List String}
    {start : Option (Step FieldMachine)} (hstart : ∀ s ∈ start, s.Loses isFailed) :
    (acceptHead l skip modifiers t start).Loses isFailed := by
  rw [acceptHead]
  split
  · exact .inl rfl
  · split
    · exact .inl rfl
    · cases start with
      | some s => exact hstart s rfl
      | none => exact .inl rfl

theorem loses_acceptName (d : FieldDraft) : (acceptName d t).Loses isFailed := by
  rw [acceptName]
  split <;> exact .inl rfl

theorem loses_acceptTail (d : FieldDraft) : (acceptTail d t).Loses isFailed := by
  rw [acceptTail]
  split_ifs <;> exact .inl rfl

theorem loses_acceptTypeFirst (l : Language) (m : FieldMachine) (t : Token) :
    (acceptTypeFirst l m t).Loses isFailed := by
  cases m with
  | head skip modifiers =>
      refine loses_acceptHead fun s hs => ?_
      split at hs
      · obtain rfl := Option.mem_some.1 hs
        exact loses_acceptType loses_acceptName
      · cases hs
  | type d machine => exact loses_acceptType loses_acceptName
  | name d => exact loses_acceptName d
  | afterName d => rw [acceptTypeFirst]; split_ifs <;> exact .inl rfl
  | _ => exact .inl rfl

theorem loses_acceptNameFirst (l : Language) (m : FieldMachine) (t : Token) :
    (acceptNameFirst l m t).Loses isFailed := by
  cases m with
  | head skip modifiers =>
      refine loses_acceptHead fun s hs => ?_
      split at hs
      · obtain rfl := Option.mem_some.1 hs
        exact .inl rfl
      · cases hs
  | afterName d =>
      rw [acceptNameFirst]
      split_ifs
      · exact .inl rfl
      · exact .inl rfl
      · exact .inl rfl
      · exact loses_acceptTail d
  | afterMark d =>
      rw [acceptNameFirst]
      split
      · exact .inl rfl
      · exact loses_acceptTail d
  | type d machine => exact loses_acceptType loses_acceptTail
  | afterType d => exact loses_acceptTail d
  | initializer d => rw [acceptNameFirst]; split_ifs <;> exact .inl rfl
  | _ => exact .inl rfl

theorem loses_accept (o : Owner) (m : FieldMachine) (t : Token) :
    (m.accept o t).Loses isFailed :=
  accept_of_parts (P := Step.Loses isFailed) (fun _ => .inl rfl)
    (fun _ _ => loses_acceptTypeFirst o.language m t)
    (fun _ _ => loses_acceptNameFirst o.language m t) fun _ _ _ _ hs => hs.map fun m hm => by
      cases m <;> first | rfl | exact absurd hm Bool.false_ne_true

end FieldMachine

namespace MethodMachine

variable {l : Language} {o : Owner} {t : TokenTree}

theorem loses_acceptName (d : MethodDraft) (text : String) :
    (acceptName d text).Loses isFailed := by
  unfold acceptName
  split
  · exact .inl rfl
  · exact .inr ⟨rfl, rfl⟩

theorem loses_acceptParams (d : MethodDraft) : (acceptParams l d t).Loses isFailed := by
  have hparens : ∀ ps, (Parameter.ofParens l t).1 = some ps → (Parameter.ofParens l t).2 = [] :=
    fun _ => Parameter.malformed_ofParens_of_some
  rw [acceptParams]
  generalize Parameter.ofParens l t = found at hparens
  obtain ⟨_ | ps, malformed⟩ := found
  · exact .inr ⟨rfl, rfl⟩
  · exact .inl (hparens ps rfl)

theorem loses_acceptType {t : Token} {d : MethodDraft} {m : TypeMachine}
    {within : MethodDraft → TypeMachine → MethodMachine} {next : MethodDraft → MethodMachine}
    {accept : MethodDraft → Step MethodMachine} (haccept : ∀ d, (accept d).Loses isFailed) :
    (acceptType l d m t within next accept).Loses isFailed :=
  (ofType_acceptType l d m t within next accept).loses rfl (TypeMachine.loses_accept l true m t)
    fun _ => haccept _

theorem loses_acceptAfterType (d : MethodDraft) : (acceptAfterType o d t).Loses isFailed := by
  rw [acceptAfterType]
  split_ifs
  · exact loses_acceptName _ _
  · exact loses_acceptParams _
  · exact .inl rfl

theorem loses_acceptTail {t : Token} (d : MethodDraft) : (acceptTail d t).Loses isFailed := by
  rw [acceptTail]
  split_ifs <;> exact .inl rfl

theorem loses_acceptHead {t : Token} {started : Bool} {skip : Option AnnotationSkip}
    {modifiers : List String} {typeParams : List TypeRef}
    {rest : Option AnnotationSkip → Step MethodMachine}
    (hrest : ∀ skip', (rest skip').Loses isFailed) :
    (acceptHead l started skip modifiers typeParams t rest).Loses isFailed :=
  acceptHead_of_parts (P := Step.Loses isFailed) (fun _ _ => .inl rfl) (fun _ _ _ => .inl rfl)
    fun _ _ _ => hrest _

theorem loses_acceptTypeFirst (o : Owner) (m : MethodMachine) (t : TokenTree) :
    (acceptTypeFirst o m t).Loses isFailed := by
  cases m with
  | head started skip modifiers typeParams =>
      rw [acceptTypeFirst_head]
      refine loses_acceptHead fun skip' => ?_
      split_ifs
      · exact .inl rfl
      · exact loses_acceptType fun d => loses_acceptAfterType d
      · exact .inl rfl
  | typeParamList modifiers list => exact .inl rfl
  | type d machine => exact loses_acceptType fun d => loses_acceptAfterType d
  | name d => exact loses_acceptAfterType d
  | afterName d =>
      rw [acceptTypeFirst]
      split
      · exact loses_acceptParams d
      · exact .inl rfl
  | afterParams d => rw [acceptTypeFirst]; split_ifs <;> exact .inl rfl
  | _ => exact .inl rfl

theorem loses_acceptNameFirst (o : Owner) (m : MethodMachine) (t : TokenTree) :
    (acceptNameFirst o m t).Loses isFailed := by
  cases m with
  | head started skip modifiers typeParams =>
      rw [acceptNameFirst_head]
      refine loses_acceptHead fun skip' => ?_
      split_ifs
      · exact loses_acceptName _ _
      · exact .inl rfl
      · exact .inl rfl
  | afterName d =>
      rw [acceptNameFirst]
      split_ifs
      · exact .inl rfl
      · exact loses_acceptParams d
      · exact .inl rfl
  | afterParams d =>
      rw [acceptNameFirst]
      split
      · exact .inl rfl
      · exact loses_acceptTail d
  | returnType d machine => exact loses_acceptType loses_acceptTail
  | afterReturn d => exact loses_acceptTail d
  | _ => exact .inl rfl

theorem loses_accept (o : Owner) (m : MethodMachine) (t : TokenTree) :
    (m.accept o t).Loses isFailed :=
  accept_of_parts (P := Step.Loses isFailed) (fun _ => .inl rfl)
    (fun _ _ => loses_acceptTypeFirst o m t) (fun _ _ => loses_acceptNameFirst o m t)
    fun _ _ _ _ hs => hs.map fun m hm => by
      cases m <;> first | rfl | exact absurd hm Bool.false_ne_true

end MethodMachine

namespace Extractor

/-- A step that notes a malformed type uses the token up and gives up. -/
theorem loses_accept (o : Owner) (e : Extractor) (t : TokenTree) :
    (e.accept o t).Loses isFailed := by
  cases e with
  | field m => exact (FieldMachine.loses_accept o m t.value).map fun _ h => h
  | method m => exact (MethodMachine.loses_accept o m t).map fun _ h => h
  | enumMember m => exact .inl (EnumMemberMachine.malformed_accept o m t)
  | annotations m => exact .inl (AnnotationMachine.malformed_accept o.language m t)
  | comment found? => rw [accept]; split <;> exact .inl rfl
  | imports m => exact .inl (ImportMachine.malformed_accept o.language m t)

end Extractor

end Outline
