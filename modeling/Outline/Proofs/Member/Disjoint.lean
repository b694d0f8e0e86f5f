import Outline.Proofs.Member.Overlap
import Outline.Token.Reading

/-!
# Members of a body that share a token

The order that one token keeps holds of a whole run, and at the end of the tokens it holds of the
members that end there as well.

* `Members.items` — the members of a body with the tokens that they are read from.
* `Members.disjoint_iff` — they are disjoint if and only if no token that one of them has used
  loosely belongs to another one.
-/

namespace Outline

namespace Extractor

/-! ## The members of a log -/

/-- The member that ends with an event. -/
def Event.member? : Event → Option Item
  | .ended i => if i.isMember then some i else none
  | .dropped => none

/-- The members that end in a run of events. -/
def members (events : List Event) : List Item := events.filterMap Event.member?

theorem members_append (events later : List Event) :
    members (events ++ later) = members events ++ members later :=
  List.filterMap_append

theorem members_ended (items : List Item) :
    members (items.map .ended) = items.filter (·.isMember) := by
  rw [members, List.filterMap_map, ← List.filterMap_eq_filter]
  rfl

theorem members_read (o : Owner) (p : Nat) (ws : List Tracked) (t : TokenTree) :
    members (Tracked.read o p ws t).2 = ws.flatMap (Tracked.ended o p t) := by
  have hitems : (Tracked.offerAll o p t ws).2.1.filter (·.isMember) =
      ws.flatMap (Tracked.ended o p t) := by
    rw [(offerAll_eq o p t ws).2, List.filter_flatMap]
    rfl
  rw [← hitems, ← members_ended]
  simp only [Tracked.read, members_append]
  split
  · exact List.append_nil _
  · exact List.append_nil _

/-! ## Runs -/

variable {o : Owner} {p : Nat} {ws : List Tracked} {items : List Item}

/-- The machines and members behind a whole run of tokens are in order if they are in front. -/
theorem Orderly.readAll (h : Orderly o.language p ws items) (ts : List TokenTree) :
    Orderly o.language (p + ts.length) (Tracked.readAll o p ws ts).1
      (items ++ members (Tracked.readAll o p ws ts).2) := by
  induction ts generalizing p ws items with
  | nil =>
      rw [Tracked.readAll, members, List.filterMap_nil, List.append_nil]
      exact h
  | cons t ts ih =>
      have hread : (Tracked.read o p ws t).1 = ws.map fun w => (w.offer o p t).1 :=
        (offerAll_eq o p t ws).1
      have hstep := h.step t
      rw [← hread, ← members_read] at hstep
      have hrest := ih hstep
      simp only [Tracked.readAll, members_append, List.length_cons]
      rw [List.append_assoc] at hrest
      rwa [show p + (ts.length + 1) = p + 1 + ts.length by omega]

/-- Machines that have read nothing are in order. -/
theorem orderly_extractors (l : Language) (kind : DeclarationKind) :
    Orderly l 0 ((Members.extractors l kind).map fun e => ⟨e, []⟩) [] := by
  refine ⟨?_, ?_, by simp, List.Pairwise.nil, by simp⟩
  · intro w hw
    obtain ⟨e, -, rfl⟩ := List.mem_map.1 hw
    exact ⟨by simp, by simp⟩
  · have habreast : Abreast l .idle [] .idle [] := by
      refine ⟨FieldStage.waits_idle l, waits_idle_method l, ?_, ?_, ?_, ?_⟩
      · intro s modifiers h
        simp [FieldMachine.idle, FieldMachine.stage] at h
      · intro modifiers h hmodifiers
        simp only [FieldMachine.idle, FieldMachine.stage, FieldStage.head.injEq] at h
        exact absurd h.2.symm hmodifiers
      · rintro (h | h) <;> simp [FieldMachine.idle, FieldMachine.stage] at h
      · rintro ⟨u, hu, -⟩
        exact absurd hu List.not_mem_nil
    have hfirst : Tracked.Beside l ⟨field .idle, []⟩ ⟨method .idle, []⟩ :=
      Or.inl ⟨_, _, rfl, rfl, habreast⟩
    have henum : ∀ w m, Tracked.Beside l w ⟨enumMember m, []⟩ := fun w m => Or.inr (Or.inr rfl)
    have hann : ∀ w m, Tracked.Beside l w ⟨annotations m, []⟩ := fun w m => Or.inr (Or.inr rfl)
    have hcomment : ∀ w s, Tracked.Beside l w ⟨comment s, []⟩ := fun w s => Or.inr (Or.inr rfl)
    rw [List.pairwise_map]
    cases hfm : l.hasFieldsAndMethods kind <;> cases he : kind == .enumLike <;>
      simp [Members.extractors, hfm, he, hfirst, henum, hann, hcomment]

/-! ## The end of the tokens -/

theorem name_bodyEnd (o : Owner) (e : Extractor) : (e.bodyEnd o).name = e.name := by
  cases e <;> rfl

/-- An item that ends with the tokens has the tokens of its machine. -/
theorem of_close? {w : Tracked} {i : Item} (h : w.close? o p = some i) :
    i.uses = w.uses ∧ i.early = true ∧ i.machine.name = w.machine.name := by
  rw [Tracked.close?] at h
  split at h
  · obtain rfl := Option.some.inj h
    exact ⟨rfl, rfl, name_bodyEnd o w.machine⟩
  · exact absurd h (by simp)

theorem method_of_name {e : Extractor} {m : MethodMachine} (h : (method m).name = e.name) :
    ∃ m, e = method m := by
  cases e <;> first | exact ⟨_, rfl⟩ | simp [name] at h

/-- A member that ends with the tokens has used all of them loosely, or it is a method. -/
theorem fine_of_close? {w : Tracked} {i : Item} (hw : w.Steady p) (h : w.close? o p = some i)
    (hmember : i.isMember = true) : (∀ j : Item, i.Fine j) ∨ ∃ m, w.machine = method m := by
  obtain ⟨huses, hearly, hname⟩ := of_close? h
  cases hm : i.machine with
  | field f =>
      refine Or.inl fun j => Item.fine_of_isEarlyField ?_
      rw [Item.isEarlyField, hm]
      exact hearly
  | method m =>
      rw [hm] at hname
      exact Or.inr (method_of_name hname)
  | enumMember m =>
      have hlax : w.machine.isStrict = false := by
        rw [isStrict_of_name hname.symm, hm]
        rfl
      refine Or.inl fun j => Item.fine_of_not_strict hlax hmember hname ?_
      rw [huses]
      exact hw.named
  | _ => simp [Item.isMember, hm] at hmember

/-- A method that ends with the tokens meets others as its machine does. -/
theorem fine_of_close?_method {w : Tracked} {i j : Item} {m : MethodMachine}
    (h : w.close? o p = some i) (hm : w.machine = method m)
    (hj : w.item.isMember = true → j.Fine w.item) : j.Fine i := by
  obtain ⟨huses, -, hname⟩ := of_close? h
  rw [hm] at hname
  obtain ⟨n, hn⟩ := method_of_name hname.symm
  have hmember : w.item.isMember = true := by
    rw [Item.isMember, Tracked.item, hm]
  have hplaces : i.places = w.item.places := by
    rw [Item.places, huses]
    rfl
  have hloose : i.loose = w.item.loose := by
    simp only [Item.loose, Item.isEarlyField, Tracked.item, hn, hm, huses]
    rfl
  have := hj hmember
  rwa [Item.Fine, Item.Meets, Item.MeetsLoosely, ← hplaces, ← hloose] at this

/-- Members that end with the tokens or before them meet loosely. -/
theorem Orderly.closed (h : Orderly o.language p ws items) :
    (items ++ (ws.filterMap (Tracked.close? o p)).filter (·.isMember)).Pairwise Item.Fine := by
  refine List.pairwise_append.2 ⟨h.fine, ?_, ?_⟩
  · rw [List.pairwise_filter, List.pairwise_filterMap]
    refine h.beside.imp_of_mem ?_
    intro w w' hw hw' hbeside i hi j hj hmember hmember'
    rcases fine_of_close? (h.steady w hw) hi hmember with hfine | ⟨m, hm⟩
    · exact hfine j
    rcases fine_of_close? (h.steady w' hw') hj hmember' with hfine | ⟨m', hm'⟩
    · exact (hfine i).symm
    -- two machines for methods do not read side by side
    rcases hbeside with ⟨f, -, hf, -⟩ | hlax | hlax
    · rw [hf] at hm
      exact absurd hm (by simp)
    · rw [hm] at hlax
      exact absurd hlax (by simp [isStrict])
    · rw [hm'] at hlax
      exact absurd hlax (by simp [isStrict])
  · intro i hi j hj
    obtain ⟨hj, hmember⟩ := List.mem_filter.1 hj
    obtain ⟨w, hw, hclose⟩ := List.mem_filterMap.1 hj
    rcases fine_of_close? (h.steady w hw) hclose hmember with hfine | ⟨m, hm⟩
    · exact (hfine i).symm
    · exact fine_of_close?_method hclose hm (h.mixed i hi w hw)

end Extractor

/-! ## Members of a declaration -/

namespace Members

open Extractor (Item Event)

/-- The tokens of a text, none if it has no tokens. -/
def tokensOf (l : Language) (text : String) : List TokenTree :=
  match TokenTree.read ⟨l, 3⟩ text with
  | .ok tree => tree.children
  | .error _ => []

/-- Everything that happens while the members of a declaration are read. -/
def log (o : Owner) (kind : DeclarationKind) (body : List TokenTree) : List Event :=
  Extractor.log o (extractors o.language kind) body

/-- The members of a declaration, each with the tokens that it is read from. -/
def items (o : Owner) (kind : DeclarationKind) (body : List TokenTree) : List Item :=
  Extractor.members (log o kind body)

/-- Members of a declaration that have a token in common have a loose one in common. -/
theorem fine_items (o : Owner) (kind : DeclarationKind) (body : List TokenTree) :
    (items o kind body).Pairwise Item.Fine := by
  have h := ((Extractor.orderly_extractors o.language kind).readAll body).closed
  rw [Nat.zero_add] at h
  rwa [items, log, Extractor.log, Extractor.members_append, Extractor.members_ended]

/-- The log tells the members of a declaration. -/
theorem ofBody_members (o : Owner) (kind : DeclarationKind) (body : List TokenTree) :
    (ofBody o kind body).members = ((log o kind body).foldl (Extractor.replay o) {}).members := by
  rw [log, ← Extractor.run_eq_replay]
  rfl

/-- The members of a declaration are disjoint exactly if no token that one of them has used loosely
belongs to another one. -/
theorem disjoint_iff (o : Owner) (kind : DeclarationKind) (body : List TokenTree) :
    (ofBody o kind body).members = ((log o kind body).foldl (Extractor.replay o) {}).members ∧
      (((items o kind body).map (·.places)).Pairwise List.Disjoint ↔
        (items o kind body).Pairwise fun i j => ¬ i.MeetsLoosely j) := by
  refine ⟨ofBody_members o kind body, ?_⟩
  have hfine := fine_items o kind body
  rw [List.pairwise_map]
  constructor
  · intro h
    refine h.imp ?_
    rintro i j hij ⟨p, hi, hj, -⟩
    exact hij hi hj
  · intro h
    refine (hfine.and h).imp ?_
    rintro i j ⟨hfine, hij⟩ p hi hj
    exact hij (hfine ⟨p, hi, hj⟩)

/-- The initializer of a field is also read as a constructor. -/
theorem not_disjoint_initializer :
    ¬ ((items ⟨.java, ["Foo"]⟩ .classLike (tokensOf .java "Foo x = new Foo();")).map
        (·.places)).Pairwise List.Disjoint ∧
      (ofBody ⟨.java, ["Foo"]⟩ .classLike (tokensOf .java "Foo x = new Foo();")).members.methods.map
        (·.name) = ["Foo"] := by
  have hplaces : (items ⟨.java, ["Foo"]⟩ .classLike (tokensOf .java "Foo x = new Foo();")).map
      (·.places) = [[0, 1, 2, 3, 4, 5, 6], [4, 5, 6]] := by decide +kernel
  refine ⟨?_, by decide +kernel⟩
  rw [hplaces]
  intro h
  have hdisjoint : List.Disjoint [0, 1, 2, 3, 4, 5, 6] [4, 5, 6] :=
    List.rel_of_pairwise_cons h List.mem_cons_self
  exact hdisjoint (a := 4) (by decide) (by decide)

end Members

end Outline
