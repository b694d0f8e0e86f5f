import Outline.Member.Extractor
import Outline.Proofs.Token.Layout
import Outline.Proofs.TypeRef.SpelledReading
import Outline.Proofs.Written.FieldSteps

/-!
# Members without malformed types

Where every word of a run of tokens spells a type, no reader of members meets a text in the place
of a type that is none.  Each machine hands only identifiers and keywords to the reader of types,
if the type comes first.

* `Token.Spelled` — the text of a word spells a type.
* `TypeMachine.malformed_accept`, `FieldMachine.malformed_accept`, `MethodMachine.malformed_accept`
  — no step notes a malformed type.
* `Members.malformed_ofBody` — neither does the reader of a body.
-/

namespace Outline

/-! ## Spelled tokens -/

/-- The text of the token spells a type, if the token is a word. -/
def Token.Spelled (t : Token) : Prop :=
  t.kind = .identifier ∨ t.kind = .keyword → ∃ type, TypeRef.parse t.text = .ok type

/-- The words that name a type of the language spell one. -/
theorem Language.parse_of_has {l : Language} {w : String} (h : l.has .type w = true) :
    ∃ type, TypeRef.parse w = .ok type := by
  have hword : (l.keywords.all fun entry => !entry.2.contains .type ||
      (CSharp.identifiers 0).scanName entry.1.toList == some entry.1.toList.length) = true := by
    cases l <;> decide +kernel
  rw [Language.has, KeywordTable.has, KeywordTable.capabilities?] at h
  obtain ⟨roles, hlookup, hrole⟩ := (Option.any_eq_true _ _).1 h
  have hmem : (w, roles) ∈ l.keywords := by
    obtain ⟨before, after, heq, -⟩ := List.lookup_eq_some_iff.1 hlookup
    rw [heq]
    exact List.mem_append_right _ List.mem_cons_self
  have hentry := List.all_eq_true.1 hword _ hmem
  rw [hrole, Bool.not_true, Bool.false_or, beq_iff_eq] at hentry
  exact ⟨_, (CSharp.tame_identifiers 0).parse_word hentry
    (IdentifierStyle.unmarked_of_starts rfl _)⟩

namespace TokenTree

open Rose (subtreesAll)

/-- Every word among the trees and below them spells a type. -/
def AllSpelled (ts : List TokenTree) : Prop := ∀ u ∈ subtreesAll ts, u.value.Spelled

variable {t : TokenTree} {ts : List TokenTree}

theorem AllSpelled.of_mem (h : AllSpelled ts) (ht : t ∈ ts) : t.value.Spelled :=
  h t (Rose.mem_subtreesAll_of_mem ht)

theorem AllSpelled.children (h : AllSpelled ts) (ht : t ∈ ts) : AllSpelled t.children := by
  intro u hu
  have hsub : (subtreesAll t.children).Sublist (subtreesAll ts) := by
    have hwhole := Rose.subtrees_sublist_subtreesAll (Rose.mem_subtreesAll_of_mem ht)
    obtain ⟨token, children⟩ := t
    rw [Rose.subtrees_node] at hwhole
    exact (List.sublist_cons_self _ _).trans hwhole
  exact h u (hsub.subset hu)

theorem AllSpelled.tail (h : AllSpelled (t :: ts)) : AllSpelled ts := fun u hu =>
  h u (by rw [Rose.subtreesAll_cons]; exact List.mem_append_right _ hu)

theorem AllSpelled.subset {us : List TokenTree} (h : AllSpelled ts) (hus : ∀ u ∈ us, u ∈ ts) :
    ∀ u ∈ us, u.value.Spelled := fun u hu => h.of_mem (hus u hu)

theorem mem_of_mem_commaGroupsFrom {front group : List TokenTree}
    (hgroup : group ∈ commaGroupsFrom front ts) (ht : t ∈ group) : t ∈ front ∨ t ∈ ts := by
  fun_induction commaGroupsFrom front ts with
  | case1 front =>
      rw [List.mem_singleton.1 hgroup] at ht
      exact .inl ht
  | case2 front u ts hcomma ih =>
      rcases List.mem_cons.1 hgroup with rfl | hgroup
      · exact .inl ht
      · rcases ih hgroup with hnil | ht
        · cases hnil
        · exact .inr (List.mem_cons_of_mem _ ht)
  | case3 front u ts hcomma hcomment ih =>
      exact (ih hgroup).imp_right (List.mem_cons_of_mem _)
  | case4 front u ts hcomma hcomment ih =>
      rcases ih hgroup with ht | ht
      · rcases List.mem_append.1 ht with ht | ht
        · exact .inl ht
        · exact .inr (List.mem_cons.2 (.inl (List.mem_singleton.1 ht)))
      · exact .inr (List.mem_cons_of_mem _ ht)

/-- The tokens of the groups between commas are tokens of the run. -/
theorem mem_of_mem_commaGroups {group : List TokenTree} (hgroup : group ∈ commaGroups ts)
    (ht : t ∈ group) : t ∈ ts :=
  (mem_of_mem_commaGroupsFrom (List.mem_filter.1 hgroup).1 ht).resolve_left List.not_mem_nil

end TokenTree

/-! ## Steps -/

namespace Step

variable {σ τ : Type}

@[simp] theorem malformed_take (state : σ) : (take state).malformed = [] := rfl

@[simp] theorem malformed_leave (state : σ) : (leave state).malformed = [] := rfl

@[simp] theorem malformed_map (f : σ → τ) (s : Step σ) : (s.map f).malformed = s.malformed := rfl

@[simp] theorem malformed_after (malformed : List MalformedType) (s : Step σ) :
    (s.after malformed).malformed = malformed ++ s.malformed := rfl

end Step

/-! ## Types -/

namespace TypeMachine

variable {l : Language} {t : Token}

theorem malformed_find {text : String} (h : ∃ type, TypeRef.parse text = .ok type) :
    (find text).malformed = [] := by
  obtain ⟨type, htype⟩ := h
  rw [find, htype]
  rfl

theorem malformed_accept (hl : l.memberOrder = .typeFirst) (ht : t.Spelled) (allowVoid : Bool)
    (m : TypeMachine) : (m.accept l allowVoid t).malformed = [] := by
  have hfunction : ∃ type, TypeRef.parse "Function" = .ok type :=
    ⟨_, (CSharp.tame_identifiers 0).parse_word (by decide +kernel)
      (IdentifierStyle.unmarked_of_starts rfl _)⟩
  cases m with
  | idle =>
      by_cases hstarts : starts l allowVoid t = true
      · rw [accept_start hl hstarts]
        exact malformed_find (ht (word_of_starts hl hstarts).symm)
      · rw [accept]
        split
        · rfl
        · rename_i hnot
          exact absurd (by simpa using hnot) hstarts
  | functionArrow =>
      rw [accept]
      split
      · exact malformed_find hfunction
      · rfl
  | found type => rw [accept]; split_ifs <;> rfl
  | union type => rw [accept]; split_ifs <;> rfl
  | functionParams => rw [accept]; split_ifs <;> rfl
  | complete type => rfl
  | failed => rfl

theorem malformed_readFrom (hl : l.memberOrder = .typeFirst) (allowVoid : Bool) (m : TypeMachine)
    {ts : List TokenTree} (hts : ∀ t ∈ ts, t.value.Spelled) :
    (readFrom l allowVoid m ts).2.2 = [] := by
  induction ts generalizing m with
  | nil => rfl
  | cons t ts ih =>
      have hstep := malformed_accept hl (hts t (by simp)) allowVoid m
      have ih := ih (m.accept l allowVoid t.value).state fun u hu => hts u (by simp [hu])
      rw [readFrom]
      split
      · exact hstep
      · split
        · exact hstep
        · simp only [hstep, List.nil_append]
          exact ih

theorem malformed_read (hl : l.memberOrder = .typeFirst) {ts : List TokenTree}
    (hts : ∀ t ∈ ts, t.value.Spelled) : (read l ts).2 = [] :=
  malformed_readFrom hl false idle hts

end TypeMachine

/-! ## Parameters -/

namespace Parameter

variable {l : Language}

theorem mem_of_mem_dropArguments {ts : List TokenTree} {t : TokenTree}
    (h : t ∈ dropArguments ts) : t ∈ ts := by
  unfold dropArguments at h
  split at h
  · split at h
    · exact List.mem_cons_of_mem _ h
    · exact h
  · exact h

theorem mem_of_mem_lead {place : Nat} {ts : List TokenTree} {t : TokenTree}
    (h : t ∈ (lead l place ts).rest) : t ∈ ts := by
  fun_induction lead l place ts with
  | case1 => exact h
  | case2 u ts hbracket after ih => exact List.mem_cons_of_mem _ (ih h)
  | case3 => exact h
  | case4 u hbracket hat name ts after a ih =>
      exact List.mem_cons_of_mem _ (List.mem_cons_of_mem _ (mem_of_mem_dropArguments (ih h)))
  | case5 u ts hbracket hat hmodifier after ih => exact List.mem_cons_of_mem _ (ih h)
  | case6 => exact h

theorem malformed_readTypeFirst (hl : l.memberOrder = .typeFirst) (place : Nat)
    {group : List TokenTree} (h : ∀ t ∈ group, t.value.Spelled) :
    (readTypeFirst l place group).2 = [] := by
  have hread : (TypeMachine.read l (lead l place group).rest).2 = [] :=
    TypeMachine.malformed_read hl fun t ht => h t (mem_of_mem_lead ht)
  unfold readTypeFirst
  dsimp only
  split
  · rename_i heq
    rw [heq] at hread
    split <;> exact hread
  · rename_i heq
    rw [heq] at hread
    exact hread

theorem malformed_readGroups (hl : l.memberOrder = .typeFirst) (place : Nat)
    {groups : List (List TokenTree)} (h : ∀ group ∈ groups, ∀ t ∈ group, t.value.Spelled) :
    (readGroups l place groups).2 = [] := by
  induction groups generalizing place with
  | nil => rfl
  | cons group groups ih =>
      have hread : (read l place group).2 = [] := by
        rw [read, hl]
        exact malformed_readTypeFirst hl place (h group (by simp))
      have ih := ih (place + 1) fun other hother => h other (by simp [hother])
      rw [readGroups]
      split
      · rename_i heq
        rw [heq] at hread
        exact hread
      · rename_i heq
        rw [heq] at hread
        simp only [ih, List.append_nil]
        exact hread

theorem malformed_ofParens (hl : l.memberOrder = .typeFirst) {block : TokenTree}
    (h : TokenTree.AllSpelled block.children) : (ofParens l block).2 = [] :=
  malformed_readGroups hl 0 fun _ hgroup _ ht =>
    h.of_mem (TokenTree.mem_of_mem_commaGroups hgroup ht)

end Parameter

/-! ## Fields -/

namespace FieldMachine

variable {o : Owner} {t : Token}

theorem malformed_acceptType (hl : o.language.memberOrder = .typeFirst) (ht : t.Spelled)
    (d : FieldDraft) (m : TypeMachine) {next : FieldDraft → FieldMachine}
    {accept : FieldDraft → Step FieldMachine} (haccept : ∀ d, (accept d).malformed = []) :
    (acceptType o.language d m t next accept).malformed = [] :=
  ((ofType_acceptType o.language d m t next accept).malformed_eq fun _ => haccept _).trans
    (TypeMachine.malformed_accept hl ht false m)

theorem malformed_acceptName (d : FieldDraft) (t : Token) : (acceptName d t).malformed = [] := by
  rw [acceptName]
  split <;> rfl

theorem malformed_acceptTypeFirst (hl : o.language.memberOrder = .typeFirst) (ht : t.Spelled)
    (m : FieldMachine) : (acceptTypeFirst o.language m t).malformed = [] := by
  have htype : ∀ d machine, (acceptType o.language d machine t name (acceptName · t)).malformed =
      [] := fun d machine => malformed_acceptType hl ht d machine fun d => malformed_acceptName d t
  cases m with
  | head skip modifiers =>
      rw [acceptTypeFirst, acceptHead]
      split
      · rfl
      · split
        · rfl
        · split
          · rename_i step hstep
            split at hstep
            · cases hstep
              exact htype _ _
            · cases hstep
          · rfl
  | type d machine => exact htype d machine
  | name d => exact malformed_acceptName d t
  | afterName d => rw [acceptTypeFirst]; split_ifs <;> rfl
  | _ => rfl

theorem malformed_accept (hl : o.language.memberOrder = .typeFirst) (ht : t.Spelled)
    (m : FieldMachine) : (m.accept o t).malformed = [] :=
  accept_of_parts (P := fun s => s.malformed = []) (fun _ => rfl)
    (fun _ _ => malformed_acceptTypeFirst hl ht m) (fun hname => by rw [hl] at hname; cases hname)
    fun _ _ _ _ hs => hs

end FieldMachine

/-! ## Methods -/

namespace MethodMachine

variable {o : Owner} {t : TokenTree}

theorem malformed_acceptType (hl : o.language.memberOrder = .typeFirst) (ht : t.value.Spelled)
    (d : MethodDraft) (m : TypeMachine) {within : MethodDraft → TypeMachine → MethodMachine}
    {next : MethodDraft → MethodMachine} {accept : MethodDraft → Step MethodMachine}
    (haccept : ∀ d, (accept d).malformed = []) :
    (acceptType o.language d m t.value within next accept).malformed = [] :=
  ((ofType_acceptType o.language d m t.value within next accept).malformed_eq
    fun _ => haccept _).trans (TypeMachine.malformed_accept hl ht true m)

theorem malformed_acceptName (d : MethodDraft) {text : String}
    (h : ∃ type, TypeRef.parse text = .ok type) : (acceptName d text).malformed = [] := by
  obtain ⟨type, htype⟩ := h
  rw [acceptName, htype]
  rfl

theorem malformed_acceptParams (hl : o.language.memberOrder = .typeFirst)
    (ht : TokenTree.AllSpelled t.children) (d : MethodDraft) :
    (acceptParams o.language d t).malformed = [] := by
  have hparens := Parameter.malformed_ofParens hl ht
  rw [acceptParams]
  split
  · rename_i heq
    rw [heq] at hparens
    exact hparens
  · rename_i heq
    rw [heq] at hparens
    exact hparens

theorem malformed_acceptAfterType (hl : o.language.memberOrder = .typeFirst)
    (ht : t.value.Spelled) (hchildren : TokenTree.AllSpelled t.children) (d : MethodDraft) :
    (acceptAfterType o d t).malformed = [] := by
  rw [acceptAfterType]
  split
  · rename_i hid
    exact malformed_acceptName d (ht (.inl (beq_iff_eq.1 hid)))
  · split
    · exact malformed_acceptParams hl hchildren _
    · rfl

theorem malformed_acceptTypeFirst (hl : o.language.memberOrder = .typeFirst)
    (ht : t.value.Spelled) (hchildren : TokenTree.AllSpelled t.children) (m : MethodMachine) :
    (acceptTypeFirst o m t).malformed = [] := by
  have htype : ∀ d machine, (acceptType o.language d machine t.value type name
      (acceptAfterType o · t)).malformed = [] :=
    fun d machine => malformed_acceptType hl ht d machine
      fun d => malformed_acceptAfterType hl ht hchildren d
  cases m with
  | head started skip modifiers typeParams =>
      rw [acceptTypeFirst_head]
      refine acceptHead_of_parts (P := fun s => s.malformed = []) (fun _ _ => rfl)
        (fun _ _ _ => rfl) fun skip' _ _ => ?_
      split_ifs
      · rfl
      · exact htype _ _
      · rfl
  | typeParamList modifiers list => rfl
  | type d machine => exact htype d machine
  | name d => exact malformed_acceptAfterType hl ht hchildren d
  | afterName d =>
      rw [acceptTypeFirst]
      split
      · exact malformed_acceptParams hl hchildren d
      · rfl
  | afterParams d => rw [acceptTypeFirst]; split_ifs <;> rfl
  | _ => rfl

theorem malformed_accept (hl : o.language.memberOrder = .typeFirst) (ht : t.value.Spelled)
    (hchildren : TokenTree.AllSpelled t.children) (m : MethodMachine) :
    (m.accept o t).malformed = [] :=
  accept_of_parts (P := fun s => s.malformed = []) (fun _ => rfl)
    (fun _ _ => malformed_acceptTypeFirst hl ht hchildren m)
    (fun hname => by rw [hl] at hname; cases hname) fun _ _ _ _ hs => hs

end MethodMachine

/-! ## The other machines -/

theorem EnumMemberMachine.malformed_accept (o : Owner) (m : EnumMemberMachine) (t : TokenTree) :
    (m.accept o t).malformed = [] := by
  unfold accept
  repeat' split
  all_goals rfl

theorem AnnotationMachine.malformed_accept (l : Language) (m : AnnotationMachine) (t : TokenTree) :
    (m.accept l t).malformed = [] := by
  unfold accept
  dsimp only
  repeat' split
  all_goals rfl

theorem ImportMachine.malformed_accept (l : Language) (m : ImportMachine) (t : TokenTree) :
    (m.accept l t).malformed = [] := by
  have hnamespace : ∀ l, (acceptNamespace l m t.value).malformed = [] := by
    intro l
    unfold acceptNamespace
    repeat' split
    all_goals rfl
  have hmodule : (acceptModule m t).malformed = [] := by
    unfold acceptModule
    repeat' split
    all_goals rfl
  unfold accept
  repeat' split
  · rfl
  · exact hmodule
  · exact hnamespace _
  · exact hnamespace _

/-! ## Runs -/

namespace Extractor

variable {o : Owner} {t : TokenTree} {h : Harvest}

theorem malformed_accept (hl : o.language.memberOrder = .typeFirst) (ht : t.value.Spelled)
    (hchildren : TokenTree.AllSpelled t.children) (e : Extractor) :
    (e.accept o t).malformed = [] := by
  cases e with
  | field m => exact FieldMachine.malformed_accept hl ht m
  | method m => exact MethodMachine.malformed_accept hl ht hchildren m
  | enumMember m => exact EnumMemberMachine.malformed_accept o m t
  | annotations m => exact AnnotationMachine.malformed_accept o.language m t
  | comment found? => rw [accept]; split <;> rfl
  | imports m => exact ImportMachine.malformed_accept o.language m t

@[simp] theorem malformed_deliver (o : Owner) (h : Harvest) (e : Extractor) :
    (e.deliver o h).malformed = h.malformed := by
  unfold deliver
  split <;> rfl

theorem malformed_offerUpTo (ht : ∀ e : Extractor, (e.accept o t).malformed = []) (again : Nat)
    (e : Extractor) (hh : h.malformed = []) :
    (e.offerUpTo o t again h).2.1.malformed = [] := by
  have hcount : ∀ {e : Extractor} {h : Harvest}, h.malformed = [] →
      (h.countOffer (e.accept o t).malformed).malformed = [] := by
    intro e h hh
    rw [Harvest.countOffer, ht e, hh]
    rfl
  induction again generalizing e h with
  | zero =>
      unfold offerUpTo
      dsimp only
      cases (e.accept o t).state.isFailed <;> cases (e.accept o t).state.isComplete <;>
        cases e.isIdle <;> cases (e.accept o t).taken <;>
        simp only [Bool.false_eq_true, if_true, if_false, malformed_deliver]
      all_goals exact hcount hh
  | succ again ih =>
      unfold offerUpTo
      dsimp only
      cases (e.accept o t).state.isFailed <;> cases (e.accept o t).state.isComplete <;>
        cases e.isIdle <;> cases (e.accept o t).taken <;>
        simp only [Bool.false_eq_true, if_true, if_false, malformed_deliver]
      all_goals first
        | exact hcount hh
        | exact ih _ (hcount hh)
        | exact ih _ ((malformed_deliver o _ _).trans (hcount hh))

/-- The end of a run notes nothing. -/
theorem malformed_foldl_close (es : List Extractor) (h : Harvest) :
    (es.foldl (close o) h).malformed = h.malformed := by
  induction es generalizing h with
  | nil => rfl
  | cons e es ih => exact (ih _).trans (malformed_deliver o h _)

theorem malformed_offerAll (ht : ∀ e : Extractor, (e.accept o t).malformed = [])
    (es : List Extractor) (hh : h.malformed = []) :
    (offerAll o t es h).2.1.malformed = [] := by
  induction es generalizing h with
  | nil => exact hh
  | cons e es ih => exact ih (malformed_offerUpTo ht 1 e hh)

theorem malformed_readAll (hl : o.language.memberOrder = .typeFirst) {ts : List TokenTree}
    (hts : TokenTree.AllSpelled ts) (es : List Extractor) (hh : h.malformed = []) :
    (readAll o es h ts).2.malformed = [] := by
  induction ts generalizing es h with
  | nil => exact hh
  | cons t ts ih =>
      have hstep := malformed_offerAll (malformed_accept hl (hts.of_mem List.mem_cons_self)
        (hts.children List.mem_cons_self)) es hh
      refine ih hts.tail _ ?_
      split
      · exact hstep
      · exact hstep

theorem malformed_run (hl : o.language.memberOrder = .typeFirst) {ts : List TokenTree}
    (hts : TokenTree.AllSpelled ts) (es : List Extractor) : (run o es ts).malformed = [] :=
  (malformed_foldl_close _ _).trans (malformed_readAll hl hts es rfl)

end Extractor

/-- The reader of a body notes no malformed type, if every word in the body spells one. -/
theorem Members.malformed_ofBody {o : Owner} (hl : o.language.memberOrder = .typeFirst)
    (kind : DeclarationKind) {body : List TokenTree} (h : TokenTree.AllSpelled body) :
    (Members.ofBody o kind body).malformed = [] :=
  Extractor.malformed_run hl h _

end Outline
