import Outline.Proofs.TypeParams.Lists
import Outline.Proofs.Written.Behind
import Outline.Proofs.Written.MethodBodies

/-!
# Type parameters of methods

Where the type comes first, a method has its list of type parameters in front of the type.

* `Extractor.hasMethod_run` — a method that ends at a token is among the members of the body.
* `ListedMethod` — a method with a list of type parameters in front of its type.
* `ListedMethod.hasMethod` — it is among the members of the body with these type parameters.
-/

namespace Outline

/-- The method is among the members, with annotations and comments in front of it. -/
def Members.HasMethod (ms : Members) (m : Method TypeRef) : Prop :=
  ∃ annotations comments, { m with annotations, comments } ∈ ms.methods

theorem Members.HasMethod.mono {ms ms' : Members} {m : Method TypeRef} (h : ms.HasMethod m)
    (hkept : ms.methods <+: ms'.methods) : ms'.HasMethod m := by
  obtain ⟨annotations, comments, hmem⟩ := h
  exact ⟨annotations, comments, hkept.subset hmem⟩

namespace Extractor

variable {o : Owner} {es : List Extractor} {m : Method TypeRef} {t : TokenTree}

/-! ## Methods among the members -/

/-- No method is lost. -/
theorem methods_prefix_deliver (o : Owner) (e : Extractor) (h : Harvest) :
    h.members.methods <+: (e.deliver o h).members.methods := by
  unfold deliver
  split <;> first | exact List.prefix_rfl | exact List.prefix_append _ _

theorem methods_prefix_foldl (o : Owner) (es : List Extractor) (h : Harvest) :
    h.members.methods <+: (es.foldl (deliver o) h).members.methods := by
  induction es generalizing h with
  | nil => exact List.prefix_rfl
  | cons e es ih => exact (methods_prefix_deliver o e h).trans (ih _)

theorem methods_prefix_close (o : Owner) (es : List Extractor) (h : Harvest) :
    h.members.methods <+: (es.foldl (close o) h).members.methods := by
  induction es generalizing h with
  | nil => exact List.prefix_rfl
  | cons e es ih => exact (methods_prefix_deliver o (e.bodyEnd o) h).trans (ih _)

/-- The members behind a token are those that the machines have ended by then. -/
theorem members_of_read (o : Owner) (t : TokenTree) (es : List Extractor) (h : Harvest) :
    (read o es h t).2.members =
      ((es.flatMap fun e => (respond o t e).ended).foldl (deliver o) h.bare).members := by
  have hbare := congrArg Harvest.members (read_respond o t es h).2
  refine hbare.trans ?_
  dsimp only
  split
  · rfl
  · rfl

theorem methods_prefix_readAll (o : Owner) (es : List Extractor) (h : Harvest)
    (ts : List TokenTree) : h.members.methods <+: (readAll o es h ts).2.members.methods := by
  induction ts generalizing es h with
  | nil => exact List.prefix_rfl
  | cons t ts ih =>
      have hfirst : h.members.methods <+: (read o es h t).2.members.methods := by
        rw [members_of_read]
        exact methods_prefix_foldl o _ h.bare
      exact hfirst.trans (ih _ _)

/-- The method is delivered by one of the machines. -/
def Delivers (o : Owner) (es : List Extractor) (m : Method TypeRef) : Prop :=
  ∀ h, (es.foldl (deliver o) h).members.HasMethod m

theorem delivers_of_takeMethod
    (h : ∀ h, es.foldl (deliver o) h = h.takeMethod (some m)) : Delivers o es m := by
  intro harvest
  rw [h]
  exact ⟨harvest.annotations, harvest.comments, List.mem_append_right _ List.mem_cons_self⟩

theorem delivers_complete {d : MethodDraft} (o : Owner) (rest : List Extractor) :
    Delivers o (method (.complete d) :: rest) (d.method o [] []) := by
  intro h
  have hfirst : (deliver o h (method (.complete d))).members.HasMethod (d.method o [] []) :=
    ⟨h.annotations, h.comments, List.mem_append_right _ List.mem_cons_self⟩
  exact hfirst.mono (methods_prefix_foldl o rest _)

theorem Delivers.flatMap {f : Extractor → List Extractor} {e : Extractor} (he : e ∈ es)
    (h : Delivers o (f e) m) : Delivers o (es.flatMap f) m := by
  intro harvest
  obtain ⟨front, back, rfl⟩ := List.append_of_mem he
  rw [List.flatMap_append, List.flatMap_cons, List.foldl_append, List.foldl_append]
  exact (h _).mono (methods_prefix_foldl o _ _)

/-- A method that ends at a token is among the members, whatever comes before and behind it. -/
theorem hasMethod_run {e : Extractor} (he : e ∈ es) {front : List TokenTree} {t : TokenTree}
    (h : Delivers o (respond o t (after o e front)).ended m) (rest : List TokenTree) :
    (run o es (front ++ t :: rest)).members.HasMethod m := by
  have hmachine : after o e front ∈ (readAll o es {} front).1 := by
    rw [readAll_after]
    exact List.mem_map_of_mem he
  have hread :
      (read o (readAll o es {} front).1 (readAll o es {} front).2 t).2.members.HasMethod m := by
    rw [members_of_read]
    exact h.flatMap hmachine _
  unfold run
  simp only [readAll_append]
  exact (hread.mono (methods_prefix_readAll o _ _ rest)).mono (methods_prefix_close o _ _)

/-- So is a method that ends with the body. -/
theorem hasMethod_close {e : Extractor} (he : e ∈ es) {ts : List TokenTree} {d : MethodDraft}
    (h : (after o e ts).bodyEnd o = method (.complete d)) :
    (run o es ts).members.HasMethod (d.method o [] []) := by
  have hmachine : after o e ts ∈ (readAll o es {} ts).1 := by
    rw [readAll_after]
    exact List.mem_map_of_mem he
  obtain ⟨front, back, hes⟩ := List.append_of_mem hmachine
  unfold run
  simp only [hes, List.foldl_append, List.foldl_cons]
  refine Members.HasMethod.mono ?_ (methods_prefix_close o back _)
  rw [close, h]
  exact ⟨_, _, List.mem_append_right _ List.mem_cons_self⟩

/-! ## Where a method begins -/

/-- Behind some tokens, a token is read as at the start of a body. -/
def Fresh (o : Owner) (front : List TokenTree) (t : TokenTree) : Prop :=
  respond o t (after o (method .idle) front) = respond o t (method .idle)

/-- A machine that reads methods goes on doing so. -/
theorem method_after_idle (o : Owner) (front : List TokenTree) :
    ∃ m, after o (method .idle) front = method m := by
  have hname := name_after o (method .idle) front
  cases hafter : after o (method .idle) front with
  | method m => exact ⟨m, rfl⟩
  | _ =>
      rw [hafter] at hname
      exact absurd hname (by simp [Extractor.name])

/-- A written method that begins afresh is among the members. -/
theorem Reads.hasMethod {front ts : List TokenTree} {stop : TokenTree} {taken : Bool}
    (hes : method .idle ∈ es) (hfresh : Fresh o front t)
    (h : Reads o (method .idle) (t :: ts) stop (·.takeMethod (some m)) taken)
    (rest : List TokenTree) :
    (run o es (front ++ (t :: ts) ++ stop :: rest)).members.HasMethod m := by
  obtain ⟨e, hbefore⟩ := method_after_idle o front
  rw [Fresh, hbefore] at hfresh
  obtain ⟨e', ended, hpasses, hstop, hended⟩ := h.congr_first (e := method e) hfresh rfl
  refine hasMethod_run hes ?_ rest
  rw [after_append, hbefore, after_of_feeds hpasses, hstop]
  exact delivers_of_takeMethod hended

end Extractor

/-! ## The list in front of the type -/

open Extractor (method after Fresh Reads Passes respond)

/-- A method with a list of type parameters in front of the type of its result. -/
structure ListedMethod (o : Owner) where
  /-- The method without the list. -/
  plain : WrittenMethod o
  /-- The type of its result. -/
  result : WrittenType o.language true
  /-- The bracket that opens the list. -/
  opening : TokenTree
  /-- The tokens of the list behind it. -/
  list : List TokenTree
  /-- The names of the type parameters. -/
  params : List String
  /-- The method is no constructor. -/
  typed : plain.result? = some result
  /-- The bracket opens the list. -/
  opens : opening.value.isOperator "<" = true
  /-- The tokens are such a list. -/
  listed : TypeParamList.Listed params list

namespace ListedMethod

variable {o : Owner}

/-- The tokens in front of the last one. -/
def front (w : ListedMethod o) : List TokenTree :=
  w.plain.modifiers ++ w.opening ::
    (w.list ++ (w.result.tokens ++ w.plain.name :: w.plain.params.block :: w.plain.clause))

/-- The first token. -/
def first (w : ListedMethod o) : TokenTree := w.plain.modifiers.headD w.opening

/-- The method, without annotations and comments. -/
def method (w : ListedMethod o) : Method TypeRef :=
  { w.plain.method with typeParams := w.params.map .simple }

theorem exists_front (w : ListedMethod o) : ∃ rest, w.front = w.first :: rest := by
  rw [front, first]
  cases w.plain.modifiers with
  | nil => exact ⟨_, rfl⟩
  | cons t ts => exact ⟨_, rfl⟩

/-- The bracket that opens the list. -/
theorem respond_opening (hl : o.language.memberOrder = .typeFirst) (w : ListedMethod o)
    (started : Bool) (modifiers : List String) :
    respond o w.opening (.method (.head started none modifiers [])) =
      ⟨.method (.typeParamList modifiers {}), [], true⟩ := by
  have hkind : w.opening.kind = .operator := Token.kind_of_isOperator w.opens
  have hskip : AnnotationSkip.step o.language none w.opening.value = (none, false) := by
    refine FieldMachine.step_plain ?_ ?_
    · show w.opening.kind ≠ _
      rw [hkind]
      decide
    · show w.opening.kind ≠ _
      rw [hkind]
      decide
  have hmark : o.language.marks .methodModifier w.opening.value = false := by
    rw [Language.marks, show w.opening.value.kind = _ from hkind]
    rfl
  have haccept : MethodMachine.acceptTypeFirst o (.head started none modifiers []) w.opening =
      .take (.typeParamList modifiers {}) := by
    simp [MethodMachine.acceptTypeFirst, hskip, hmark, w.opens]
  exact Extractor.method_takes hl (by rw [hkind]; decide) haccept rfl rfl

/-- The method is read with its type parameters. -/
theorem reads (hl : o.language.memberOrder = .typeFirst) (w : ListedMethod o) :
    Reads o (.method .idle) w.front w.plain.stop (·.takeMethod (some w.method)) true := by
  obtain ⟨started, hmodifiers⟩ := Extractor.method_modifiers w.plain.modified false []
  have hopening := w.respond_opening hl started ([] ++ w.plain.modifiers.map (·.text))
  have hlist := Extractor.method_steps hl ([] ++ w.plain.modifiers.map (·.text))
    (TypeParamList.steps_listed [] w.listed) rfl rfl
  obtain ⟨m, htype, hm⟩ := Extractor.method_written_type hl w.result true
    ([] ++ w.plain.modifiers.map (·.text)) ([] ++ w.params.map .simple)
  obtain ⟨line, hname⟩ := Extractor.method_name hl hm w.plain.isName.identifier
    (TypeRef.parse_word w.plain.isName.word)
  have hlast : Text.lastPart (TypeRef.simple w.plain.name.text).name = w.plain.name.text :=
    Text.lastPart_word w.plain.isName.word
  have hparams : [] ++ w.params.map .simple ++ (TypeRef.simple w.plain.name.text).params =
      w.params.map .simple := List.append_nil _
  have hmethod : w.method = {
      name := w.plain.name.text, fullName := o.memberName w.plain.name.text
      returnType := w.result.ref, typeParams := w.params.map .simple
      params := w.plain.params.list.map (·.param), modifiers := w.plain.modifiers.map (·.text)
      annotations := [], comments := [] } := by
    rw [method, WrittenMethod.method, w.typed]
    rfl
  rw [hmethod, front]
  refine Reads.of_append hmodifiers rfl ?_
  refine Reads.of_step hopening rfl ?_
  refine Reads.of_append hlist rfl ?_
  refine Reads.of_append htype rfl ?_
  refine Reads.of_step hname rfl ?_
  rw [hlast, hparams]
  exact Extractor.method_named_reads hl w.plain

/-- The method is among the members if its first token is read as at the start of a body. -/
theorem hasMethod (hl : o.language.memberOrder = .typeFirst) (w : ListedMethod o)
    {es : List Extractor} (hes : .method .idle ∈ es) {front : List TokenTree}
    (hfresh : Fresh o front w.first) (rest : List TokenTree) :
    (Extractor.run o es (front ++ w.front ++ w.plain.stop :: rest)).members.HasMethod w.method := by
  have hreads := w.reads hl
  obtain ⟨ts, hfront⟩ := w.exists_front
  rw [hfront] at hreads ⊢
  exact hreads.hasMethod hes hfresh rest

end ListedMethod

end Outline
