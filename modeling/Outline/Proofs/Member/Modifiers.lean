import Outline.Proofs.Member.Alone
import Outline.Proofs.Member.Comments
import Outline.Proofs.Member.RunSteps

/-!
# The modifiers of members

Each field or method has the modifiers that its own machine has taken from the run in front of it.

* `Members.modifiers_of_run` — which modifiers of the run the members of a declaration have.
* `Members.not_modifiers_of_run_virtual` — a word that marks methods only ends the modifiers of a
  property.
-/

namespace Outline

namespace Extractor

variable {o : Owner} {role : Capability} {body : List TokenTree} {items : List Item} {p : Nat}
  {e : Extractor} {t : TokenTree} {uses : List Use}

/-! ## Runs -/

/-- What holds of a machine with the role in front of the place `p`, and of its items so far. -/
structure InStep (o : Owner) (role : Capability) (body : List TokenTree) (p : Nat) (w : Tracked)
    (items : List Item) : Prop where
  /-- The machine stands between two tokens. -/
  poised : Poised o.language body p w
  /-- It reads members of the kind. -/
  reader : w.machine.role? = some role
  /-- Its modifiers are in step with the run. -/
  keepsUp : KeepsUp o.language role body items p w.machine.stance w.uses
  /-- The items have ended. -/
  ended : ∀ i ∈ items, Ended o.language role body items p i

theorem InStep.step {w : Tracked} (h : InStep o role body p w items) (hp : body[p]? = some t) :
    InStep o role body (p + 1) (w.offer o p t).1 (items ++ (w.offer o p t).2.1) := by
  obtain ⟨hfollows, hnew⟩ :=
    h.keepsUp.step h.reader h.poised.ready.waits h.poised.steady.below h.ended hp
  have hnamed := Tracked.named_offer o p t w h.poised.steady.named
  refine ⟨(h.poised.step hp).1, ?_, hfollows, ?_⟩
  · rw [role?_of_name hnamed.machine]
    exact h.reader
  · intro i hi
    rcases List.mem_append.1 hi with hi | hi
    · refine (h.ended i hi).later fun j hj => ?_
      exact ((Tracked.spends_offer o t w h.poised.steady.below).items j hj).1
    · exact hnew i hi

/-- The end of the tokens changes no modifiers. -/
theorem modifiers_bodyEnd (o : Owner) (e : Extractor) :
    (e.bodyEnd o).stance.modifiers = e.stance.modifiers := by
  cases e with
  | field m =>
      show (m.bodyEnd o).stance.modifiers = m.stance.modifiers
      unfold FieldMachine.bodyEnd
      split <;> try rfl
      split <;> rfl
  | method m =>
      show (m.bodyEnd o).stance.modifiers = m.stance.modifiers
      unfold MethodMachine.bodyEnd
      split <;> try rfl
      split <;> rfl
  | _ => rfl

/-- A machine in front of a member is not ended by the end of the tokens. -/
theorem not_isLead_of_bodyEnd (he : e.role? = some role)
    (hc : (e.bodyEnd o).isComplete = true) : e.isLead = false := by
  cases e with
  | field m =>
      have hc : (m.bodyEnd o).isComplete = true := hc
      cases m with
      | head skip modifiers =>
          unfold FieldMachine.bodyEnd at hc
          cases hl : o.language.memberOrder <;> rw [hl] at hc <;>
            exact absurd hc (by simp [FieldMachine.isComplete])
      | _ => rfl
  | method m =>
      have hc : (m.bodyEnd o).isComplete = true := hc
      cases m with
      | head started skip modifiers typeParams =>
          unfold MethodMachine.bodyEnd at hc
          cases hl : o.language.memberOrder <;> rw [hl] at hc <;>
            exact absurd hc (by simp [MethodMachine.isComplete])
      | _ => rfl
  | _ => exact absurd he (by simp [role?])

/-- A machine that is not in front of a member has begun it. -/
theorem Fits.begun_of_not_lead {a : Stance} (h : Fits l role body items p a uses)
    (ha : a.phase.isLead = false) : Begun l role body items uses := by
  cases h with
  | front => exact absurd ha (by simp [Phase.isLead])
  | behind => exact absurd ha (by simp [Phase.isLead])
  | middle begun => exact begun
  | initializer begun => exact begun
  | sealed begun => exact begun

/-- The items of a machine that reads members of the kind have begun, and their modifiers are those
among their tokens. -/
theorem ended_of_itemsAlone {e : Extractor} (he : e.role? = some role)
    (hidle : e.stance = .idle) (hpoised : Poised o.language body 0 ⟨e, []⟩) {i : Item}
    (hi : i ∈ Tracked.itemsAlone o ⟨e, []⟩ body) :
    i.machine.stance.modifiers = (marks o.language role body i.uses).map (·.2) ∧
      Begun o.language role body (Tracked.itemsAlone o ⟨e, []⟩ body) i.uses := by
  have hstart : InStep o role body 0 ⟨e, []⟩ [] := by
    refine ⟨hpoised, he, ?_, by simp⟩
    rw [hidle]
    exact keepsUp_idle fun _ => rfl
  have hrun := Tracked.alone_induction body (P := InStep o role body) hstart
    fun p t w items hp h => h.step hp
  rw [Tracked.itemsAlone] at hi ⊢
  generalize (Tracked.alone o 0 ⟨e, []⟩ body).2 = items at hrun hi ⊢
  generalize (Tracked.alone o 0 ⟨e, []⟩ body).1 = w at hrun hi ⊢
  have hstop : ∀ j ∈ (w.close? o body.length).toList, j.stop = body.length := by
    intro j hj
    rw [Option.mem_toList, Tracked.close?] at hj
    split at hj
    · rw [← Option.some.inj hj]
    · exact absurd hj (by simp)
  rcases List.mem_append.1 hi with hi | hi
  · have hended := (hrun.ended i hi).later hstop
    exact ⟨hended.texts, hended.begun⟩
  · rw [Option.mem_toList, Tracked.close?] at hi
    split at hi
    · rename_i hcomplete
      obtain rfl := Option.some.inj hi
      have htexts := hrun.keepsUp.texts
      rw [← modifiers_bodyEnd o] at htexts
      refine ⟨htexts, Begun.append_items ?_ fun j hj u hu => ?_⟩
      · exact hrun.keepsUp.fits.begun_of_not_lead (not_isLead_of_bodyEnd hrun.reader hcomplete)
      · rw [hstop j hj]
        exact hrun.poised.steady.below u hu
    · exact absurd hi (by simp)

/-! ## What is extracted -/

/-- The modifiers of the items with the role. -/
def modifiersOf (role : Capability) (items : List Item) : List (List String) :=
  (items.filter (·.machine.role? == some role)).map (·.machine.stance.modifiers)

theorem modifiersOf_append (role : Capability) (items later : List Item) :
    modifiersOf role (items ++ later) = modifiersOf role items ++ modifiersOf role later := by
  rw [modifiersOf, List.filter_append, List.map_append]
  rfl

/-- An event adds the modifiers of the field or the method that ends. -/
theorem modifiers_replay (h : Harvest) {x : Event}
    (hx : ∀ i ∈ members [x], i.machine.isComplete = true) :
    (replay o h x).members.fields.map (·.modifiers) =
        h.members.fields.map (·.modifiers) ++ modifiersOf .fieldModifier (members [x]) ∧
      (replay o h x).members.methods.map (·.modifiers) =
        h.members.methods.map (·.modifiers) ++ modifiersOf .methodModifier (members [x]) := by
  cases x with
  | dropped => exact ⟨(List.append_nil _).symm, (List.append_nil _).symm⟩
  | ended i =>
      obtain ⟨machine, uses, stop, early⟩ := i
      cases machine with
      | field m =>
          have hcomplete := hx ⟨field m, uses, stop, early⟩ List.mem_cons_self
          cases m with
          | complete d =>
              simp [replay, deliver, Harvest.addField, Harvest.dropPending, FieldDraft.field,
                members, Event.member?, Item.isMember, modifiersOf, role?, stance,
                FieldMachine.stance]
          | _ => exact absurd hcomplete Bool.false_ne_true
      | method m =>
          have hcomplete := hx ⟨method m, uses, stop, early⟩ List.mem_cons_self
          cases m with
          | complete d =>
              simp [replay, deliver, Harvest.addMethod, Harvest.dropPending, MethodDraft.method,
                members, Event.member?, Item.isMember, modifiersOf, role?, stance,
                MethodMachine.stance]
          | _ => exact absurd hcomplete Bool.false_ne_true
      | enumMember m =>
          have hcomplete := hx ⟨enumMember m, uses, stop, early⟩ List.mem_cons_self
          obtain ⟨stage, ended⟩ := m
          cases stage with
          | complete d =>
              simp [replay, deliver, Harvest.addEnumMember, Harvest.dropPending, members,
                Event.member?, Item.isMember, modifiersOf, role?]
          | _ => exact absurd hcomplete Bool.false_ne_true
      | annotations m =>
          cases m <;> simp [replay, deliver, members, Event.member?, Item.isMember, modifiersOf]
      | comment found? =>
          cases found? <;>
            simp [replay, deliver, members, Event.member?, Item.isMember, modifiersOf]
      | imports m =>
          cases m <;> simp [replay, deliver, Harvest.addImport, members, Event.member?,
            Item.isMember, modifiersOf]

/-- The fields and methods that are read have the modifiers of their items. -/
theorem modifiers_foldl_replay {events : List Event} (h : Harvest)
    (hevents : ∀ i ∈ members events, i.machine.isComplete = true) :
    (events.foldl (replay o) h).members.fields.map (·.modifiers) =
        h.members.fields.map (·.modifiers) ++ modifiersOf .fieldModifier (members events) ∧
      (events.foldl (replay o) h).members.methods.map (·.modifiers) =
        h.members.methods.map (·.modifiers) ++ modifiersOf .methodModifier (members events) := by
  induction events generalizing h with
  | nil => exact ⟨(List.append_nil _).symm, (List.append_nil _).symm⟩
  | cons x events ih =>
      have hcons : members (x :: events) = members [x] ++ members events :=
        members_append [x] events
      rw [hcons] at hevents ⊢
      obtain ⟨hfield, hmethod⟩ := modifiers_replay (o := o) h
        fun i hi => hevents i (List.mem_append_left _ hi)
      obtain ⟨hfields, hmethods⟩ := ih (replay o h x)
        fun i hi => hevents i (List.mem_append_right _ hi)
      rw [List.foldl_cons, hfields, hmethods, hfield, hmethod, modifiersOf_append,
        modifiersOf_append, List.append_assoc, List.append_assoc]
      exact ⟨rfl, rfl⟩

/-- The items of a machine have ended. -/
theorem isComplete_of_itemsAlone {e : Extractor} {i : Item}
    (hi : i ∈ Tracked.itemsAlone o ⟨e, []⟩ body) : i.machine.isComplete = true := by
  have hrun := Tracked.alone_induction body (o := o) (w := ⟨e, []⟩)
    (P := fun _ _ items => ∀ i ∈ items, i.machine.isComplete = true) (by simp) ?_
  · rcases List.mem_append.1 hi with hi | hi
    · exact hrun i hi
    · rw [Option.mem_toList, Tracked.close?] at hi
      split at hi
      · obtain rfl := Option.some.inj hi
        assumption
      · exact absurd hi (by simp)
  · intro p t w items _ h i hi
    rcases List.mem_append.1 hi with hi | hi
    · exact h i hi
    · exact (Tracked.settled_offerUpTo o p t 1 w).items i hi

end Extractor

namespace Members

open Extractor

/-- The fields of a declaration, or its methods, as they are read from its tokens. -/
def itemsOf (role : Capability) (o : Owner) (kind : DeclarationKind) (body : List TokenTree) :
    List Item :=
  (items o kind body).filter (·.machine.role? == some role)

variable {o : Owner} {kind : DeclarationKind} {body : List TokenTree} {role : Capability}
  {i : Item}

/-- There is one machine for each of the two kinds. -/
theorem extractor_of_role {e : Extractor} (he : e ∈ extractors o.language kind)
    (hrole : e.role? = some role) :
    e = .field .idle ∧ role = .fieldModifier ∨ e = .method .idle ∧ role = .methodModifier := by
  rw [extractors] at he
  rcases List.mem_append.1 he with he | he
  · rcases List.mem_append.1 he with he | he
    · split at he
      · rcases List.mem_cons.1 he with rfl | he
        · exact Or.inl ⟨rfl, (Option.some.inj hrole).symm⟩
        · obtain rfl := List.mem_singleton.1 he
          exact Or.inr ⟨rfl, (Option.some.inj hrole).symm⟩
      · exact absurd he List.not_mem_nil
    · split at he
      · obtain rfl := List.mem_singleton.1 he
        exact absurd hrole (by simp [role?])
      · exact absurd he List.not_mem_nil
  · rcases List.mem_cons.1 he with rfl | he
    · exact absurd hrole (by simp [role?])
    · obtain rfl := List.mem_singleton.1 he
      exact absurd hrole (by simp [role?])

theorem mem_itemsOf : i ∈ itemsOf role o kind body ↔ ∃ e ∈ extractors o.language kind,
    e.role? = some role ∧ i ∈ Tracked.itemsAlone o ⟨e, []⟩ body := by
  rw [itemsOf, List.mem_filter, mem_items, beq_iff_eq]
  constructor
  · rintro ⟨⟨e, he, hi, -⟩, hrole⟩
    refine ⟨e, he, ?_, hi⟩
    rw [← role?_of_name (Tracked.name_of_mem_itemsAlone hi)]
    exact hrole
  · rintro ⟨e, he, hrole, hi⟩
    have hitem : i.machine.role? = some role := by
      rw [role?_of_name (Tracked.name_of_mem_itemsAlone hi)]
      exact hrole
    refine ⟨⟨e, he, hi, ?_⟩, hitem⟩
    rw [Item.isMember_eq]
    exact readsMembers_of_role hitem

/-- A field or method has begun behind a run of modifiers, and its modifiers are those among its
tokens. -/
theorem begun_of_mem_itemsOf (hi : i ∈ itemsOf role o kind body) :
    i.machine.stance.modifiers = (marks o.language role body i.uses).map (·.2) ∧
      Begun o.language role body (itemsOf role o kind body) i.uses := by
  obtain ⟨e, he, hrole, hi⟩ := mem_itemsOf.1 hi
  have hitems : ∀ j, j ∈ itemsOf role o kind body ↔ j ∈ Tracked.itemsAlone o ⟨e, []⟩ body := by
    intro j
    rw [mem_itemsOf]
    constructor
    · rintro ⟨e', he', hrole', hj⟩
      rcases extractor_of_role he hrole with ⟨rfl, rfl⟩ | ⟨rfl, rfl⟩ <;>
        rcases extractor_of_role he' hrole' with ⟨rfl, h⟩ | ⟨rfl, h⟩ <;>
        first | exact hj | exact absurd h (by decide)
    · exact fun hj => ⟨e, he, hrole, hj⟩
  have hidle : e.stance = .idle := by
    rcases extractor_of_role he hrole with ⟨rfl, -⟩ | ⟨rfl, -⟩ <;> rfl
  obtain ⟨htexts, p, hbegins⟩ := ended_of_itemsAlone hrole hidle
    (poised_extractors o.language kind body _ (List.mem_map.2 ⟨e, he, rfl⟩)) hi
  have htaken : TakenBefore (Tracked.itemsAlone o ⟨e, []⟩ body) p =
      TakenBefore (itemsOf role o kind body) p := by
    funext q
    exact propext ⟨fun ⟨j, hj, h⟩ => ⟨j, (hitems j).2 hj, h⟩,
      fun ⟨j, hj, h⟩ => ⟨j, (hitems j).1 hj, h⟩⟩
  refine ⟨htexts, p, hbegins.start, hbegins.token, hbegins.suffix, ?_, ?_⟩
  · rw [← htaken]
    exact hbegins.free
  · rw [← htaken]
    exact hbegins.whole

/-- The fields and methods that are read have the modifiers of their items. -/
theorem modifiers_ofBody (o : Owner) (kind : DeclarationKind) (body : List TokenTree) :
    (ofBody o kind body).members.fields.map (·.modifiers) =
        (itemsOf .fieldModifier o kind body).map (·.machine.stance.modifiers) ∧
      (ofBody o kind body).members.methods.map (·.modifiers) =
        (itemsOf .methodModifier o kind body).map (·.machine.stance.modifiers) := by
  rw [ofBody_members]
  refine modifiers_foldl_replay {} fun i hi => ?_
  obtain ⟨e, -, hi, -⟩ := mem_items.1 hi
  exact isComplete_of_itemsAlone hi

/-- The modifiers of a field or method are the last ones of the run in front of its type or name, or
of the list of type parameters in front of the type, and those behind that list.  They are all of
the run exactly if each word of it is a modifier of such members that no earlier one has taken, and
no annotation without arguments is followed by another one behind a modifier, save for a list of
type parameters right behind another one. -/
theorem modifiers_of_run (o : Owner) (kind : DeclarationKind) (body : List TokenTree) :
    ((ofBody o kind body).members.fields.map (·.modifiers) =
        (itemsOf .fieldModifier o kind body).map (·.machine.stance.modifiers) ∧
      (ofBody o kind body).members.methods.map (·.modifiers) =
        (itemsOf .methodModifier o kind body).map (·.machine.stance.modifiers)) ∧
    ∀ role, ∀ i ∈ itemsOf role o kind body,
      i.machine.stance.modifiers = (marks o.language role body (leading i.uses) ++
        marks o.language role body (trailing i.uses)).map (·.2) ∧
      ∃ p, BeginsAt o.language role body (itemsOf role o kind body) i.uses p := by
  refine ⟨modifiers_ofBody o kind body, fun role i hi => ?_⟩
  obtain ⟨htexts, hbegun⟩ := begun_of_mem_itemsOf hi
  rw [← marks_eq_append]
  exact ⟨htexts, hbegun⟩

/-- A property loses its access, since the word behind it is a modifier of methods only. -/
theorem not_modifiers_of_run_virtual :
    (¬ ∀ i ∈ itemsOf .fieldModifier ⟨.csharp, ["A"]⟩ .classLike
        (tokensOf .csharp "public virtual int X \x7b get; set; \x7d"), ∀ p, start? i.uses = some p →
      i.machine.stance.modifiers = (ModifierRun.before .csharp
        (tokensOf .csharp "public virtual int X \x7b get; set; \x7d") p).words.map (·.2)) ∧
    (ofBody ⟨.csharp, ["A"]⟩ .classLike
      (tokensOf .csharp "public virtual int X \x7b get; set; \x7d")).members.fields.map
        (fun f => (f.name, f.modifiers)) = [("X", [])] := by
  have hitems : (itemsOf .fieldModifier ⟨.csharp, ["A"]⟩ .classLike
      (tokensOf .csharp "public virtual int X \x7b get; set; \x7d")).map
        (fun i => (start? i.uses, i.machine.stance.modifiers)) = [(some 2, [])] := by
    decide +kernel
  have hrun : (ModifierRun.before .csharp
      (tokensOf .csharp "public virtual int X \x7b get; set; \x7d") 2).words.map (·.2) =
        ["public", "virtual"] := by
    decide +kernel
  refine ⟨?_, by decide +kernel⟩
  intro h
  obtain ⟨i, hi, heq⟩ := List.mem_map.1 (hitems.symm ▸ List.mem_cons_self :
    ((some 2, []) : Option Nat × List String) ∈ _)
  obtain ⟨hstart, hnone⟩ := Prod.mk.inj heq
  have hall := h i hi 2 hstart
  rw [hrun, hnone] at hall
  exact absurd hall (by decide)

end Members

end Outline
