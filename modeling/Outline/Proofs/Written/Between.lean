import Outline.Proofs.Written.Behind
import Outline.Proofs.Written.Marks
import Outline.Proofs.Written.MethodSteps

/-!
# Machines behind any tokens

The machines can be in few states behind a run of tokens of which nothing is known, and one that
reads nothing keeps nothing.  Where the type comes first, the machine that reads methods starts
anew at a semicolon, except inside a list of type parameters; the machine that reads annotations
ends one whose name it has read.

* `Extractor.method_after`, `Extractor.annotations_after` — the states behind a run of tokens.
* `Extractor.method_semicolon`, `Extractor.annotation_semicolon` — a semicolon behind them.
* `Extractor.method_listed` — tokens without operators never end a list of type parameters.
-/

namespace Outline

namespace Extractor

variable {o : Owner} {t : TokenTree}

/-- What holds of a machine and is kept by each step, also anew, is kept by an offer. -/
theorem respond_keeps {P : Extractor → Prop} (haccept : ∀ e, P e → P (e.accept o t).state)
    (hreset : ∀ e, P e → P e.reset) {e : Extractor} (he : P e) :
    P (respond o t e).machine := by
  refine Tracked.offerUpTo_induction (o := o) (p := 0) (t := t)
    (P := fun w r => P w.machine → P r.1.machine) ?_ ?_ ?_ ?_ ?_ 1 ⟨e, []⟩ he
  · exact fun w _ _ hw => haccept _ hw
  · exact fun w hw => hreset _ (haccept _ hw)
  · exact fun w _ hw => hreset _ (haccept _ hw)
  · exact fun w r hr hw => hr (hreset _ (haccept _ hw))
  · exact fun w r _ hr hw => hr (hreset _ (haccept _ hw))

end Extractor

/-! ## The machine that reads methods -/

namespace MethodMachine

/-- Whether more than the head of a method is read, or there is none. -/
def isBehindHead : MethodMachine → Bool
  | head _ _ _ _ | typeParamList _ _ => false
  | _ => true

/-- Nothing is kept of a head in which neither modifiers nor type parameters are read. -/
def Tidy : MethodMachine → Prop
  | head false _ modifiers typeParams => modifiers = [] ∧ typeParams = []
  | _ => True

/-- What may follow a state when a token is offered. -/
inductive Follows (t : Token) : MethodMachine → MethodMachine → Prop where
  /-- A token of an annotation is passed over. -/
  | passed {started : Bool} {skip skip' : Option AnnotationSkip} {modifiers : List String}
      {typeParams : List TypeRef} :
      Follows t (head started skip modifiers typeParams) (head started skip' modifiers typeParams)
  /-- The token is left where nothing is read. -/
  | idles {skip skip' : Option AnnotationSkip} {modifiers : List String}
      {typeParams : List TypeRef} :
      Follows t (head false skip modifiers typeParams) (head false skip' [] typeParams)
  /-- The head starts or goes on. -/
  | starts {m : MethodMachine} {skip : Option AnnotationSkip} {modifiers : List String}
      {typeParams : List TypeRef} : Follows t m (head true skip modifiers typeParams)
  /-- A list of type parameters starts. -/
  | opens {m : MethodMachine} {modifiers : List String} {list : TypeParamList}
      (h : t.isOperator "<" = true) : Follows t m (typeParamList modifiers list)
  /-- The list goes on. -/
  | lists {modifiers : List String} {list list' : TypeParamList} :
      Follows t (typeParamList modifiers list) (typeParamList modifiers list')
  /-- The head is read, or there is no method. -/
  | behind {m m' : MethodMachine} (h : m'.isBehindHead = true) : Follows t m m'

variable {o : Owner} {t : TokenTree} {m m' : MethodMachine}

theorem Follows.mapDraft (h : Follows t.value m m') (f : MethodDraft → MethodDraft) :
    Follows t.value m (m'.mapDraft f) := by
  cases h with
  | passed => exact .passed
  | idles => exact .idles
  | starts => exact .starts
  | opens h => exact .opens h
  | lists => exact .lists
  | behind h =>
      refine .behind ?_
      cases m' <;> exact h

theorem Follows.refl (t : Token) (m : MethodMachine) : Follows t m m := by
  cases m with
  | head started skip modifiers typeParams => exact .passed
  | typeParamList modifiers list => exact .lists
  | _ => exact .behind rfl

theorem Follows.tidy {t : Token} (h : Follows t m m') (hm : m.Tidy) : m'.Tidy := by
  cases h with
  | @passed started => cases started <;> exact hm
  | idles => exact ⟨rfl, hm.2⟩
  | behind h => cases m' <;> first | exact trivial | cases h
  | _ => exact trivial

theorem behind_acceptName (d : MethodDraft) (text : String) :
    (acceptName d text).state.isBehindHead = true := by
  unfold acceptName
  split <;> rfl

theorem behind_acceptParams (l : Language) (d : MethodDraft) (t : TokenTree) :
    (acceptParams l d t).state.isBehindHead = true := by
  unfold acceptParams
  split <;> rfl

theorem behind_acceptAfterType (o : Owner) (d : MethodDraft) (t : TokenTree) :
    (acceptAfterType o d t).state.isBehindHead = true := by
  unfold acceptAfterType
  split
  · exact behind_acceptName _ _
  · split
    · exact behind_acceptParams _ _ _
    · rfl

theorem behind_acceptType (l : Language) (d : MethodDraft) (machine : TypeMachine) (t : Token)
    {within : MethodDraft → TypeMachine → MethodMachine} {next : MethodDraft → MethodMachine}
    {accept : MethodDraft → Step MethodMachine}
    (hwithin : ∀ d machine, (within d machine).isBehindHead = true)
    (hnext : ∀ d, (next d).isBehindHead = true)
    (haccept : ∀ d, (accept d).state.isBehindHead = true) :
    (acceptType l d machine t within next accept).state.isBehindHead = true :=
  (ofType_acceptType l d machine t within next accept).of_state (P := (isBehindHead · = true)) rfl
    (hwithin _ _) (fun _ => hnext _) fun _ => haccept _

theorem behind_acceptTail (d : MethodDraft) (t : Token) :
    (acceptTail d t).state.isBehindHead = true := by
  unfold acceptTail
  split
  · rfl
  · split <;> rfl

theorem follows_leaveHead {t : Token} {started : Bool} {skip skip' : Option AnnotationSkip}
    {modifiers : List String} {typeParams : List TypeRef} :
    Follows t (head started skip modifiers typeParams) (leaveHead started skip' typeParams).state := by
  cases started with
  | true => exact .behind rfl
  | false => exact .idles

/-- A token in front of a method leads to one of these states, if those do that are neither parts of
annotations nor modifiers. -/
theorem follows_acceptHead {l : Language} {t : Token} {started : Bool}
    {skip : Option AnnotationSkip} {modifiers : List String} {typeParams : List TypeRef}
    {rest : Option AnnotationSkip → Step MethodMachine}
    (hrest : ∀ skip', Follows t (head started skip modifiers typeParams) (rest skip').state) :
    Follows t (head started skip modifiers typeParams)
      (acceptHead l started skip modifiers typeParams t rest).state :=
  acceptHead_of_parts (P := fun s => Follows t (head started skip modifiers typeParams) s.state)
    (fun _ _ => .passed) (fun _ _ _ => .starts) fun _ _ _ => hrest _

/-- Where the type comes first, a step leads to one of these states. -/
theorem follows_acceptTypeFirst (o : Owner) (m : MethodMachine) (t : TokenTree) :
    Follows t.value m (acceptTypeFirst o m t).state := by
  cases m with
  | head started skip modifiers typeParams =>
      rw [acceptTypeFirst_head]
      refine follows_acceptHead fun skip' => ?_
      split
      · exact .opens (Bool.and_eq_true_iff.1 ‹_›).1
      · split
        · exact .behind (behind_acceptType _ _ _ _ (fun _ _ => rfl) (fun _ => rfl)
            (behind_acceptAfterType o · t))
        · exact follows_leaveHead
  | typeParamList modifiers list =>
      rw [acceptTypeFirst]
      split
      · exact .starts
      · exact .lists
  | type d machine =>
      exact .behind (behind_acceptType _ _ _ _ (fun _ _ => rfl) (fun _ => rfl)
        (behind_acceptAfterType o · t))
  | name d => exact .behind (behind_acceptAfterType _ _ _)
  | afterName d =>
      rw [acceptTypeFirst]
      split
      · exact .behind (behind_acceptParams _ _ _)
      · exact .behind rfl
  | afterParams d =>
      rw [acceptTypeFirst]
      split
      · exact .behind rfl
      · split
        · exact .behind rfl
        · split <;> exact .behind rfl
  | clause d =>
      rw [acceptTypeFirst]
      split <;> exact .behind rfl
  | expression d =>
      rw [acceptTypeFirst]
      split <;> exact .behind rfl
  | _ => exact .behind rfl

/-- So does a step where the name comes first. -/
theorem follows_acceptNameFirst (o : Owner) (m : MethodMachine) (t : TokenTree) :
    Follows t.value m (acceptNameFirst o m t).state := by
  cases m with
  | head started skip modifiers typeParams =>
      rw [acceptNameFirst_head]
      refine follows_acceptHead fun skip' => ?_
      split
      · exact .behind (behind_acceptName _ _)
      · split
        · exact .behind rfl
        · exact follows_leaveHead
  | typeParamList modifiers list => exact .lists
  | afterName d =>
      rw [acceptNameFirst]
      split
      · exact .behind rfl
      · split
        · exact .behind (behind_acceptParams _ _ _)
        · exact .behind rfl
  | afterParams d =>
      rw [acceptNameFirst]
      split
      · exact .behind rfl
      · exact .behind (behind_acceptTail _ _)
  | returnType d machine =>
      exact .behind (behind_acceptType _ _ _ _ (fun _ _ => rfl) (fun _ => rfl)
        (behind_acceptTail · t.value))
  | afterReturn d => exact .behind (behind_acceptTail _ _)
  | _ => exact .behind rfl

theorem follows_accept (o : Owner) (m : MethodMachine) (t : TokenTree) :
    Follows t.value m (m.accept o t).state :=
  accept_of_parts (P := fun s => Follows t.value m s.state) (fun _ => .refl _ _)
    (fun _ _ => follows_acceptTypeFirst o m t) (fun _ _ => follows_acceptNameFirst o m t)
    fun _ _ _ _ hs => hs.mapDraft _

end MethodMachine

namespace Extractor

open MethodMachine (idle acceptTypeFirst Follows)

variable {o : Owner} {t : TokenTree} {m : MethodMachine}

/-- What holds of the machine that reads methods and is kept by each step is kept by an offer. -/
theorem method_keeps {P : MethodMachine → Prop}
    (hstep : ∀ m m', Follows t.value m m' → P m → P m') (hidle : P idle) {e : Extractor}
    (he : ∀ m, e = method m → P m) : ∀ m, (respond o t e).machine = method m → P m := by
  refine respond_keeps (P := fun e => ∀ m, e = method m → P m) ?_ ?_ he
  · intro e he m' hm'
    cases e with
    | method m =>
        have hstate : (m.accept o t).state = m' := Extractor.method.inj hm'
        exact hstate ▸ hstep _ _ (MethodMachine.follows_accept o m t) (he m rfl)
    | comment found? =>
        rw [accept] at hm'
        split at hm' <;> cases hm'
    | _ => cases hm'
  · intro e he m' hm'
    cases e with
    | method m =>
        cases hm'
        exact hidle
    | _ => cases hm'

/-- The machine that reads methods is between two tokens in one of few states. -/
structure MethodBetween (l : Language) (m : MethodMachine) : Prop where
  /-- It waits for a token. -/
  waits : m.stage.Waits l
  /-- It keeps nothing of a head in which nothing is read. -/
  tidy : m.Tidy

theorem MethodBetween.respond (t : TokenTree) (h : MethodBetween o.language m) :
    ∃ m', (respond o t (method m)).machine = method m' ∧ MethodBetween o.language m' := by
  have htidy := method_keeps (o := o) (t := t) (P := MethodMachine.Tidy) (fun m m' h hm => h.tidy hm)
    ⟨rfl, rfl⟩ (e := method m) fun m' hm' => Extractor.method.inj hm' ▸ h.tidy
  by_cases ht : t.kind = .comment
  · have hleaves := comment_leaves (o := o) ht (Or.inr (Or.inl ⟨m, rfl⟩))
      (MethodMachine.isFailed_of_waits h.waits) (MethodMachine.isComplete_of_waits h.waits)
    exact ⟨m, by rw [hleaves], h⟩
  · obtain ⟨m', uses, hm', hoffer⟩ := methodOffer_of_offer (o := o) (p := 0) [] h.waits ht
    have hmachine : (Extractor.respond o t (method m)).machine = method m' :=
      congrArg Tracked.machine hm'
    exact ⟨m', hmachine, hoffer.waits, htidy m' hmachine⟩

/-- The machine that reads methods behind a run of tokens. -/
theorem method_after (o : Owner) (ts : List TokenTree) :
    ∃ m, after o (method idle) ts = method m ∧ MethodBetween o.language m := by
  refine after_induction (P := fun e => ∃ m, e = method m ∧ MethodBetween o.language m) _ _ ?_ ?_
  · exact ⟨idle, rfl, waits_idle_method _, rfl, rfl⟩
  · rintro t - e ⟨m, rfl, hm⟩
    exact hm.respond t

/-- A list of type parameters starts with an angle bracket. -/
theorem method_after_list {ts : List TokenTree} {modifiers : List String} {list : TypeParamList}
    (h : after o (method idle) ts = method (.typeParamList modifiers list)) :
    ∃ t ∈ ts, t.value.isOperator "<" = true := by
  let P (m : MethodMachine) : Prop := ∀ modifiers list, m = .typeParamList modifiers list →
    ∃ t ∈ ts, t.value.isOperator "<" = true
  have hafter := after_induction (o := o) (P := fun e => ∀ m, e = method m → P m) (method idle) ts
    ?_ ?_
  · exact hafter _ h modifiers list rfl
  · intro m hm modifiers list hlist
    rw [← Extractor.method.inj hm] at hlist
    cases hlist
  · intro t ht e he
    refine method_keeps ?_ (fun _ _ hlist => by cases hlist) he
    intro m m' hfollows hm modifiers list hlist
    subst hlist
    cases hfollows with
    | opens h => exact ⟨t, ht, h⟩
    | lists => exact hm _ _ rfl
    | behind h => cases h

/-- Tokens that are no operators never end a list of type parameters. -/
theorem method_listed (hl : o.language.memberOrder = .typeFirst) {ts : List TokenTree}
    (hts : ∀ t ∈ ts, t.kind ≠ .operator) (modifiers : List String) {list : TypeParamList}
    (hlist : list.isClosed = false) :
    ∃ list', Passes o (method (.typeParamList modifiers list)) ts
      (method (.typeParamList modifiers list')) := by
  induction ts generalizing list with
  | nil => exact ⟨list, .nil _⟩
  | cons t ts ih =>
      have hts' : ∀ t ∈ ts, t.kind ≠ .operator := fun t ht => hts t (List.mem_cons_of_mem _ ht)
      by_cases ht : t.kind = .comment
      · obtain ⟨list', hrest⟩ := ih hts' hlist
        have hleaves := comment_leaves (o := o)
          (e := method (.typeParamList modifiers list)) ht (Or.inr (Or.inl ⟨_, rfl⟩)) rfl rfl
        exact ⟨list', .cons hleaves hrest⟩
      · have hop : (t.value.kind == .operator) = false :=
          beq_eq_false_iff_ne.2 (hts t List.mem_cons_self)
        have hread : (list.read t.value).isClosed = false := by
          have hdepth : (list.read t.value).depth = list.depth := by
            simp only [TypeParamList.read, TypeParamList.isAngles, hop, Bool.false_and,
              Bool.false_eq_true, if_false]
            split
            · rfl
            · split <;> rfl
          rw [TypeParamList.isClosed, hdepth]
          exact hlist
        have haccept : acceptTypeFirst o (.typeParamList modifiers list) t =
            .take (.typeParamList modifiers (list.read t.value)) := by
          simp only [acceptTypeFirst, hread, Bool.false_eq_true, if_false]
        obtain ⟨list', hrest⟩ := ih hts' hread
        exact ⟨list', .cons (method_takes hl ht haccept rfl rfl) hrest⟩

/-- A semicolon is nothing else. -/
structure OnlySemicolon (t : TokenTree) : Prop where
  /-- It is a separator. -/
  kind : t.kind = .separator
  /-- It is no comment. -/
  notComment : t.kind ≠ .comment
  /-- It is no at sign. -/
  notSign : t.value.isSeparator "@" = false
  /-- It is no block. -/
  notBlock : ∀ b, t.value.isBlock b = false
  /-- It is no operator. -/
  notOperator : ∀ op, t.value.isOperator op = false

theorem onlySemicolon (ht : t.value.isSeparator ";" = true) : OnlySemicolon t := by
  have hkind : t.kind = .separator := Token.kind_of_isSeparator ht
  refine ⟨hkind, by rw [hkind]; decide, Token.isSeparator_ne ht (by decide),
    Token.isBlock_eq_false ?_, Token.isOperator_eq_false ?_⟩ <;>
    (show t.kind ≠ _; rw [hkind]; decide)

/-- A semicolon belongs to no annotation. -/
theorem step_semicolon {l : Language} {skip : Option AnnotationSkip}
    (hskip : ∀ s, skip = some s → l.annotationStyle = .atSign)
    (ht : t.value.isSeparator ";" = true) :
    AnnotationSkip.step l skip t.value = (none, false) := by
  obtain ⟨hkind, -, hat, hblock, -⟩ := onlySemicolon ht
  cases skip with
  | none =>
      unfold AnnotationSkip.step
      cases l.annotationStyle <;> simp [hat, hblock]
  | some s =>
      have hstyle := hskip s rfl
      cases s <;> simp [AnnotationSkip.step, hstyle, hkind, hblock]

/-- At a semicolon the machine starts anew, except inside a list of type parameters. -/
theorem method_semicolon (hl : o.language.memberOrder = .typeFirst)
    (hm : MethodBetween o.language m) (ht : t.value.isSeparator ";" = true)
    (hlist : ∀ modifiers list, m ≠ .typeParamList modifiers list) :
    (respond o t (method m)).machine = method idle := by
  obtain ⟨hkind, hcomment, hat, hblock, hop⟩ := onlySemicolon ht
  have hbody : MethodMachine.isBody t.value = true := by rw [MethodMachine.isBody, ht, Bool.true_or]
  have hcalm : ∀ m : MethodMachine, m.rank ≤ 2 → (respond o t (method m)).machine = method idle :=
    fun m hm => by rw [method_calm_leaves hl hm (Or.inl hkind) hat (hblock _) fun _ => hblock _]
  have hends : ∀ d m, acceptTypeFirst o m t = .take (.complete d) →
      (respond o t (method m)).machine = method idle :=
    fun d m haccept => by rw [method_ends hl hcomment haccept]
  cases m with
  | head started skip modifiers typeParams =>
      obtain ⟨hmark, hstarts⟩ := Language.not_head (t := t.value) hl (Or.inl hkind)
        .methodModifier true
      have hskip : ∀ s, skip = some s → o.language.annotationStyle = .atSign := by
        rintro s rfl
        exact hm.waits.skip s rfl
      have haccept : acceptTypeFirst o (.head started skip modifiers typeParams) t =
          MethodMachine.leaveHead started none typeParams := by
        simp only [acceptTypeFirst, step_semicolon hskip ht, hmark, hop, hstarts,
          Bool.false_and, Bool.false_eq_true, if_false]
      cases started with
      | true =>
          rw [method_retries hl hcomment haccept rfl]
          exact hcalm idle (Nat.zero_le 2)
      | false =>
          obtain ⟨rfl, rfl⟩ := hm.tidy
          rw [method_leaves hl hcomment haccept rfl rfl]
          rfl
  | typeParamList modifiers list => exact absurd rfl (hlist modifiers list)
  | type d machine =>
      obtain ⟨r, rfl⟩ := hm.waits.typed machine rfl
      exact hcalm _ (Nat.le_succ 1)
  | name d => exact hcalm _ (Nat.le_succ 1)
  | afterName d => exact hcalm _ (Nat.le_refl 2)
  | afterParams d => exact hends d _ (by simp [acceptTypeFirst, hbody])
  | clause d => exact hends d _ (by simp [acceptTypeFirst, hbody])
  | expression d => exact hends d _ (by simp [acceptTypeFirst, ht])
  | returnType d machine =>
      exact absurd (hl.symm.trans (hm.waits.nameFirst (Or.inr ⟨machine, rfl⟩))) (by decide)
  | afterReturn d => exact absurd (hl.symm.trans (hm.waits.nameFirst (Or.inl rfl))) (by decide)
  | complete d => exact absurd rfl hm.waits.notEnded
  | failed => exact absurd rfl hm.waits.notFailed

/-! ## The machine that reads annotations -/

/-- Whether the at sign of an annotation is read. -/
def isOpen : AnnotationMachine → Bool
  | .name | .arguments _ => true
  | _ => false

/-- An annotation starts with an at sign. -/
theorem open_of_accept {l : Language} {a : AnnotationMachine}
    (h : isOpen (a.accept l t).state = true) :
    isOpen a = true ∨ l.annotationStyle = .atSign ∧ t.value.isSeparator "@" = true := by
  unfold AnnotationMachine.accept at h
  split at h
  · exact Or.inl h
  · split at h
    · dsimp only at h
      split at h <;> split at h <;> cases h
    · split at h
      · exact Or.inr ⟨‹_›, ‹_›⟩
      · cases h
    · exact Or.inl rfl
    · exact Or.inl rfl
    · exact Or.inl h

/-- What the machine that reads annotations has begun behind a run of tokens is behind an at
sign. -/
theorem sign_of_after {ts : List TokenTree} {a : AnnotationMachine}
    (h : after o (annotations .idle) ts = annotations a) (ha : isOpen a = true) :
    o.language.annotationStyle = .atSign ∧ ∃ t ∈ ts, t.value.isSeparator "@" = true := by
  let P (e : Extractor) : Prop := ∀ a, e = annotations a → isOpen a = true →
    o.language.annotationStyle = .atSign ∧ ∃ t ∈ ts, t.value.isSeparator "@" = true
  have hafter := after_induction (o := o) (P := P) (annotations .idle) ts ?_ ?_
  · exact hafter a h ha
  · intro a h ha
    rw [← Extractor.annotations.inj h] at ha
    cases ha
  · intro t ht e he
    refine respond_keeps (P := P) ?_ ?_ he
    · intro e he a' ha' hopen
      cases e with
      | annotations a =>
          rw [← Extractor.annotations.inj ha'] at hopen
          rcases open_of_accept hopen with hopen | ⟨hstyle, hsign⟩
          · exact he a rfl hopen
          · exact ⟨hstyle, t, ht, hsign⟩
      | comment found? =>
          rw [accept] at ha'
          split at ha' <;> cases ha'
      | _ => cases ha'
    · intro e he a' ha' hopen
      cases e with
      | annotations a =>
          rw [← Extractor.annotations.inj ha'] at hopen
          cases hopen
      | _ => cases ha'

/-- The machine that reads annotations behind a run of tokens. -/
theorem annotations_after (o : Owner) (ts : List TokenTree) :
    ∃ a, after o (annotations .idle) ts = annotations a ∧
      (a = .idle ∨ o.language.annotationStyle = .atSign ∧ isOpen a = true) := by
  have hafter := after_induction (o := o)
    (P := fun e => e.name = "annotation" ∧ e.isComplete = false ∧ e.isFailed = false)
    (annotations .idle) ts ⟨rfl, rfl, rfl⟩
    fun t _ e he => ⟨(name_respond o t e).1.trans he.1, settled_respond o t e⟩
  cases he : after o (annotations .idle) ts with
  | annotations a =>
      refine ⟨a, rfl, ?_⟩
      rw [he] at hafter
      cases a with
      | idle => exact Or.inl rfl
      | name => exact Or.inr ⟨(sign_of_after he rfl).1, rfl⟩
      | arguments n => exact Or.inr ⟨(sign_of_after he rfl).1, rfl⟩
      | complete found => cases hafter.2.1
      | failed => cases hafter.2.2
  | _ =>
      rw [he] at hafter
      exact absurd hafter.1 (by simp [name])

/-- The annotation that ends with the tokens in front of the next one. -/
def unfinished : AnnotationMachine → List Annotation
  | .arguments n => [⟨n, []⟩]
  | _ => []

/-- At a semicolon an annotation whose name is read ends. -/
theorem annotation_semicolon {a : AnnotationMachine}
    (ha : a = .idle ∨ o.language.annotationStyle = .atSign ∧ isOpen a = true)
    (ht : t.value.isSeparator ";" = true) :
    ∃ ended taken, respond o t (annotations a) = ⟨annotations .idle, ended, taken⟩ ∧
      ∀ h, ended.foldl (deliver o) h = h.wait (unfinished a) [] := by
  obtain ⟨hkind, hcomment, hat, hblock, -⟩ := onlySemicolon ht
  have hsilent := annotation_silent (o := o) ⟨hcomment, hat, hblock '['⟩
  have hnothing : ∀ h : Harvest, ([] : List Extractor).foldl (deliver o) h = h.wait [] [] :=
    fun h => (Harvest.wait_nil h).symm
  rcases ha with rfl | ⟨hstyle, hopen⟩
  · exact ⟨[], false, hsilent, hnothing⟩
  · cases a with
    | name =>
        have hs : AnnotationMachine.accept o.language .name t = .leave .failed := by
          simp [AnnotationMachine.accept, hstyle, hkind]
        have hidle : ((annotations .idle).accept o t).state.isComplete = false := by
          simp [accept, AnnotationMachine.accept, hkind, hstyle, hat, Step.leave, Step.map,
            isComplete]
        have hretries := respond_of_left_failed (annotation_accept hs) rfl rfl rfl rfl hidle
        exact ⟨[], false, hretries.trans hsilent, hnothing⟩
    | arguments n =>
        have hbehind := annotation_behind (n := n) hstyle hcomment (hblock '(')
        rw [hsilent] at hbehind
        exact ⟨_, false, hbehind, deliver_annotations _⟩
    | _ => cases hopen

/-! ## The machine that reads comments -/

theorem comment_after (o : Owner) (ts : List TokenTree) :
    after o (comment none) ts = comment none := by
  refine after_induction (P := (· = comment none)) _ _ rfl ?_
  rintro t - e rfl
  by_cases ht : t.kind = .comment
  · rw [comment_reads ht]
  · rw [comment_passes ht]

end Extractor

end Outline
