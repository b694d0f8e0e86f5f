import Outline.Proofs.Member.LastToken

/-!
# One machine by itself

Every machine of a run is offered the same tokens and does not see the others.  So the items of a
run are those that each machine ends by itself.

* `Tracked.alone` — a machine that reads a run of tokens, and the items that it ends.
* `Tracked.alone_induction` — what one token keeps holds of the whole run.
* `Members.mem_items` — the members of a declaration are those of its machines.
-/

namespace Outline

namespace Extractor

namespace Tracked

/-- Offers the tokens of a run to one machine; the first one stands at the place `p`.  Answers also
the items that end. -/
def alone (o : Owner) (p : Nat) (w : Tracked) : List TokenTree → Tracked × List Item
  | [] => (w, [])
  | t :: ts =>
    let r := alone o (p + 1) (w.offer o p t).1 ts
    (r.1, (w.offer o p t).2.1 ++ r.2)

/-- The items that one machine ends in a run and at its end. -/
def itemsAlone (o : Owner) (w : Tracked) (ts : List TokenTree) : List Item :=
  (w.alone o 0 ts).2 ++ ((w.alone o 0 ts).1.close? o ts.length).toList

theorem readAll_eq_alone (o : Owner) (p : Nat) (ws : List Tracked) (ts : List TokenTree) :
    (readAll o p ws ts).1 = ws.map (fun w => (w.alone o p ts).1) ∧
      ∀ i, i ∈ members (readAll o p ws ts).2 ↔
        ∃ w ∈ ws, i ∈ (w.alone o p ts).2 ∧ i.isMember = true := by
  induction ts generalizing p ws with
  | nil => simp [readAll, alone, members]
  | cons t ts ih =>
      obtain ⟨hws, hitems⟩ := ih (p + 1) (read o p ws t).1
      have hread : (read o p ws t).1 = ws.map fun w => (w.offer o p t).1 := (offerAll_eq o p t ws).1
      constructor
      · rw [readAll]
        dsimp only
        rw [hws, hread, List.map_map]
        rfl
      · intro i
        rw [readAll]
        dsimp only
        rw [members_append, List.mem_append, members_read, hitems, hread]
        simp only [List.mem_flatMap, mem_ended, List.mem_map, exists_exists_and_eq_and, alone,
          List.mem_append]
        constructor
        · rintro (⟨w, hw, hi, hmember⟩ | ⟨w, hw, hi, hmember⟩)
          · exact ⟨w, hw, .inl hi, hmember⟩
          · exact ⟨w, hw, .inr hi, hmember⟩
        · rintro ⟨w, hw, hi | hi, hmember⟩
          · exact .inl ⟨w, hw, hi, hmember⟩
          · exact .inr ⟨w, hw, hi, hmember⟩

/-- What one token keeps holds behind a run of tokens. -/
theorem alone_induction {o : Owner} (body : List TokenTree)
    {P : Nat → Tracked → List Item → Prop} {w : Tracked} (start : P 0 w [])
    (step : ∀ p t w items, body[p]? = some t → P p w items →
      P (p + 1) (w.offer o p t).1 (items ++ (w.offer o p t).2.1)) :
    P body.length (w.alone o 0 body).1 (w.alone o 0 body).2 := by
  have hrest : ∀ (ts front : List TokenTree) (w : Tracked) (items : List Item),
      body = front ++ ts → P front.length w items →
      P body.length (w.alone o front.length ts).1 (items ++ (w.alone o front.length ts).2) := by
    intro ts
    induction ts with
    | nil =>
        intro front w items hbody h
        rw [hbody, List.append_nil, alone, List.append_nil]
        exact h
    | cons t ts ih =>
        intro front w items hbody h
        have ht : body[front.length]? = some t := by rw [hbody]; simp
        have hnext := ih (front ++ [t]) _ _ (by simp [hbody])
          (by simpa using step front.length t w items ht h)
        rw [List.length_append, List.length_singleton, List.append_assoc] at hnext
        exact hnext
  simpa using hrest body [] w [] rfl start

/-- The items of a machine are of its kind. -/
theorem name_of_mem_itemsAlone {o : Owner} {e : Extractor} {body : List TokenTree} {i : Item}
    (hi : i ∈ itemsAlone o ⟨e, []⟩ body) : i.machine.name = e.name := by
  have hrun := alone_induction body (o := o) (w := ⟨e, []⟩)
    (P := fun _ w items => (w.machine.name = e.name ∧ ∀ u ∈ w.uses, u.state.name = e.name) ∧
      ∀ i ∈ items, i.machine.name = e.name) ⟨⟨rfl, by simp⟩, by simp⟩ ?_
  · rcases List.mem_append.1 hi with hi | hi
    · exact hrun.2 i hi
    · rw [(of_close? (Option.mem_toList.1 hi)).2.2]
      exact hrun.1.1
  · rintro p t w items - ⟨⟨hmachine, huses⟩, hitems⟩
    have hnamed := named_offer o p t w (by rwa [hmachine])
    rw [hmachine] at hnamed
    refine ⟨⟨hnamed.machine, hnamed.uses⟩, fun i hi => ?_⟩
    rcases List.mem_append.1 hi with hi | hi
    · exact hitems i hi
    · exact (hnamed.items i hi).1

end Tracked

end Extractor

namespace Members

open Extractor (Tracked Item)

/-- The members of a declaration are those that its machines end by themselves. -/
theorem mem_items {o : Owner} {kind : DeclarationKind} {body : List TokenTree} {i : Item} :
    i ∈ items o kind body ↔ ∃ e ∈ extractors o.language kind,
      i ∈ Tracked.itemsAlone o ⟨e, []⟩ body ∧ i.isMember = true := by
  obtain ⟨hws, hitems⟩ := Tracked.readAll_eq_alone o 0
    ((extractors o.language kind).map fun e => ⟨e, []⟩) body
  have hlog : items o kind body =
      Extractor.members (Tracked.readAll o 0
        ((extractors o.language kind).map fun e => ⟨e, []⟩) body).2 ++
      ((Tracked.readAll o 0 ((extractors o.language kind).map fun e => ⟨e, []⟩) body).1.filterMap
        (Tracked.close? o body.length)).filter (·.isMember) := by
    rw [← Extractor.members_ended, ← Extractor.members_append]
    rfl
  rw [hlog, List.mem_append, hitems, hws]
  simp only [List.mem_map, exists_exists_and_eq_and, List.mem_filter, List.mem_filterMap,
    List.map_map, Tracked.itemsAlone, List.mem_append, Option.mem_toList]
  constructor
  · rintro (⟨e, he, hi, hmember⟩ | ⟨⟨e, he, hclose⟩, hmember⟩)
    · exact ⟨e, he, .inl hi, hmember⟩
    · exact ⟨e, he, .inr hclose, hmember⟩
  · rintro ⟨e, he, hi | hclose, hmember⟩
    · exact .inl ⟨e, he, hi, hmember⟩
    · exact .inr ⟨⟨e, he, hclose⟩, hmember⟩

end Members

end Outline
