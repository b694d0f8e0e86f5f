import Outline.Proofs.Member.Tracking

/-!
# What an offer makes of a machine

What holds of an offer whatever the machine reads: which tokens belong to the items that end, and
that a machine never changes its kind.

* `Tracked.offerUpTo_induction` — a machine goes on, gives up or ends an item, and without having
  used the token up it is offered it again.
* `Tracked.spends_offer` — no token belongs to two items of one machine.
-/

namespace Outline

namespace Extractor

namespace Tracked

/-! ## Offers in general -/

/-- The machine after a token that it has not used when it gave up or ended its item. -/
def restart (o : Owner) (p : Nat) (t : TokenTree) (e : Extractor) : Tracked :=
  let s := e.accept o t
  if s.state.isFailed then ⟨s.state.reset, []⟩
  else going s.state (if s.taken then [⟨p, e⟩] else [])

/-- The definition of an offer, in the form in which the proofs unfold it. -/
theorem offerUpTo_eq (o : Owner) (p : Nat) (t : TokenTree) (again : Nat) (w : Tracked) :
    w.offerUpTo o p t again =
      (let s := w.machine.accept o t
      let uses := if s.taken then w.uses ++ [⟨p, w.machine⟩] else w.uses
      if s.state.isFailed then
        if w.machine.isIdle then (⟨s.state.reset, []⟩, [], s.taken)
        else match s.taken, again with
          | false, again + 1 => offerUpTo o p t again ⟨s.state.reset, []⟩
          | taken, _ => (⟨s.state.reset, []⟩, [], taken)
      else if s.state.isComplete then
        match s.taken, again with
        | false, again + 1 =>
          let r := offerUpTo o p t again ⟨s.state.reset, []⟩
          (r.1, ⟨s.state, uses, p, !s.taken⟩ :: r.2.1, r.2.2)
        | taken, _ => (⟨s.state.reset, []⟩, [⟨s.state, uses, p, !s.taken⟩], taken)
      else (going s.state uses, [], s.taken)) := by
  exact (offerUpTo.eq_def ..).trans rfl

/-- The tokens of a machine after an offer, as long as it goes on. -/
def usesAfter (o : Owner) (p : Nat) (t : TokenTree) (w : Tracked) : List Use :=
  if (w.machine.accept o t).taken then w.uses ++ [⟨p, w.machine⟩] else w.uses

/-- What holds of an offer: the machine goes on, gives up or ends an item, and without having used
the token up it is offered it again from its idle state. -/
theorem offerUpTo_induction {o : Owner} {p : Nat} {t : TokenTree}
    {P : Tracked → Tracked × List Item × Bool → Prop}
    (goes : ∀ w : Tracked, (w.machine.accept o t).state.isFailed = false →
      (w.machine.accept o t).state.isComplete = false →
      P w (going (w.machine.accept o t).state (w.usesAfter o p t), [],
        (w.machine.accept o t).taken))
    (drops : ∀ w : Tracked,
      P w (⟨(w.machine.accept o t).state.reset, []⟩, [], (w.machine.accept o t).taken))
    (ends : ∀ w : Tracked, (w.machine.accept o t).state.isComplete = true →
      P w (⟨(w.machine.accept o t).state.reset, []⟩,
        [⟨(w.machine.accept o t).state, w.usesAfter o p t, p, !(w.machine.accept o t).taken⟩],
        (w.machine.accept o t).taken))
    (retries : ∀ (w : Tracked) r, P ⟨(w.machine.accept o t).state.reset, []⟩ r → P w r)
    (restarts : ∀ (w : Tracked) r, (w.machine.accept o t).state.isComplete = true →
      P ⟨(w.machine.accept o t).state.reset, []⟩ r →
      P w (r.1, ⟨(w.machine.accept o t).state, w.uses, p, true⟩ :: r.2.1, r.2.2))
    (again : Nat) (w : Tracked) : P w (w.offerUpTo o p t again) := by
  induction again generalizing w with
  | zero =>
      have hdrops := drops w
      have hends := ends w
      rw [offerUpTo_eq]
      dsimp only
      split
      · split
        · exact hdrops
        · cases htaken : (w.machine.accept o t).taken <;> simpa [htaken] using hdrops
      · split
        · have hends := hends ‹_›
          cases htaken : (w.machine.accept o t).taken <;>
            simpa [usesAfter, htaken] using hends
        · exact goes w (Bool.not_eq_true _ ▸ ‹_›) (Bool.not_eq_true _ ▸ ‹_›)
  | succ again ih =>
      have hdrops := drops w
      have hends := ends w
      have hrest := ih ⟨(w.machine.accept o t).state.reset, []⟩
      rw [offerUpTo_eq]
      dsimp only
      split
      · split
        · exact hdrops
        · cases htaken : (w.machine.accept o t).taken with
          | true => simpa [htaken] using hdrops
          | false => exact retries w _ hrest
      · split
        · rename_i hc
          cases htaken : (w.machine.accept o t).taken with
          | true => simpa [usesAfter, htaken] using hends hc
          | false => simpa using restarts w _ hc hrest
        · exact goes w (Bool.not_eq_true _ ▸ ‹_›) (Bool.not_eq_true _ ▸ ‹_›)

variable {o : Owner} {p : Nat} {t : TokenTree} {w : Tracked} {s : Step Extractor}

theorem offer_of_going (hs : w.machine.accept o t = s) (hf : s.state.isFailed = false)
    (hc : s.state.isComplete = false) :
    w.offer o p t =
      (going s.state (if s.taken then w.uses ++ [⟨p, w.machine⟩] else w.uses), [], s.taken) := by
  subst hs
  rw [offer, offerUpTo_eq]
  simp [hf, hc]

theorem offer_of_taken_failed (hs : w.machine.accept o t = s) (hf : s.state.isFailed = true)
    (ht : s.taken = true) : w.offer o p t = (⟨s.state.reset, []⟩, [], true) := by
  subst hs
  rw [offer, offerUpTo_eq]
  simp [hf, ht]

theorem offer_of_taken_complete (hs : w.machine.accept o t = s) (hf : s.state.isFailed = false)
    (hc : s.state.isComplete = true) (ht : s.taken = true) :
    w.offer o p t =
      (⟨s.state.reset, []⟩, [⟨s.state, w.uses ++ [⟨p, w.machine⟩], p, false⟩], true) := by
  subst hs
  rw [offer, offerUpTo_eq]
  simp [hf, hc, ht]

theorem restart_eq (e : Extractor) (hc : (e.accept o t).state.isComplete = false) :
    (offerUpTo o p t 0 ⟨e, []⟩).1 = restart o p t e ∧ (offerUpTo o p t 0 ⟨e, []⟩).2.1 = [] := by
  rw [offerUpTo_eq, restart]
  dsimp only
  split
  · split
    · exact ⟨rfl, rfl⟩
    · cases (e.accept o t).taken <;> exact ⟨rfl, rfl⟩
  · rw [hc, List.nil_append]
    exact ⟨rfl, rfl⟩

theorem offer_of_left_failed (hs : w.machine.accept o t = s) (hf : s.state.isFailed = true)
    (ht : s.taken = false)
    (hreset : (s.state.reset.accept o t).state.isComplete = false) :
    (w.offer o p t).1 =
        (if w.machine.isIdle then ⟨s.state.reset, []⟩ else restart o p t s.state.reset) ∧
      (w.offer o p t).2.1 = [] := by
  subst hs
  rw [offer, offerUpTo_eq]
  simp only [hf, ht, if_true]
  split
  · exact ⟨rfl, rfl⟩
  · exact restart_eq _ hreset

theorem offer_of_left_complete (hs : w.machine.accept o t = s) (hf : s.state.isFailed = false)
    (hc : s.state.isComplete = true) (ht : s.taken = false)
    (hreset : (s.state.reset.accept o t).state.isComplete = false) :
    (w.offer o p t).1 = restart o p t s.state.reset ∧
      (w.offer o p t).2.1 = [⟨s.state, w.uses, p, true⟩] := by
  subst hs
  obtain ⟨hw, hitems⟩ := restart_eq (p := p) _ hreset
  rw [offer, offerUpTo_eq]
  simp [hf, hc, ht, hw, hitems]

/-! ## Tokens of items -/

/-- No token belongs to both lists. -/
def Apart (us vs : List Use) : Prop := ∀ u ∈ us, ∀ v ∈ vs, u.place ≠ v.place

theorem apart_of_lt {us vs : List Use} (hu : ∀ u ∈ us, u.place < p) (hv : ∀ v ∈ vs, v.place = p) :
    Apart us vs := by
  intro u hu' v hv' h
  have := hu u hu'
  have := hv v hv'
  omega

/-- The tokens `vs` are at most the one at the place `p`, or those in `us` and at most that one. -/
def Extends (p : Nat) (us vs : List Use) : Prop :=
  (∀ v ∈ vs, v.place = p) ∨ (∀ u ∈ us, u ∈ vs) ∧ ∀ v ∈ vs, v ∈ us ∨ v.place = p

theorem Extends.mem {us vs : List Use} (h : Extends p us vs) {v : Use} (hv : v ∈ vs) :
    v ∈ us ∨ v.place = p := by
  rcases h with h | h
  · exact Or.inr (h v hv)
  · exact h.2 v hv

theorem extends_nil (us : List Use) : Extends p us [] := Or.inl (by simp)

/-- The tokens of a machine with the new one, if it is used up. -/
theorem extends_used (s : Step Extractor) :
    Extends p w.uses (if s.taken then w.uses ++ [⟨p, w.machine⟩] else w.uses) := by
  refine Or.inr ⟨?_, ?_⟩
  · intro u hu
    split
    · exact List.mem_append_left _ hu
    · exact hu
  · intro u hu
    split at hu
    · rcases List.mem_append.1 hu with hu | hu
      · exact Or.inl hu
      · exact Or.inr (by rw [List.mem_singleton.1 hu])
    · exact Or.inl hu

/-- What an offer at the place `p` makes of the tokens of a machine. -/
structure Spends (p : Nat) (uses : List Use) (r : Tracked × List Item × Bool) : Prop where
  /-- The machine keeps its tokens or drops them, and may take the new one. -/
  keeps : Extends p uses r.1.uses
  /-- So do the items that end. -/
  items : ∀ i ∈ r.2.1, i.stop = p ∧ Extends p uses i.uses
  /-- An item keeps its tokens from the machine that goes on. -/
  fresh : ∀ i ∈ r.2.1, Apart i.uses r.1.uses
  /-- Two items have no token in common. -/
  apart : r.2.1.Pairwise fun i j => Apart i.uses j.uses

theorem spends_nil (e : Extractor) (taken : Bool) (uses : List Use) :
    Spends p uses (⟨e, []⟩, [], taken) :=
  ⟨extends_nil _, by simp, by simp, .nil⟩

theorem spends_going (s : Step Extractor) : Spends p w.uses
    (going s.state (if s.taken then w.uses ++ [⟨p, w.machine⟩] else w.uses), [], s.taken) := by
  refine ⟨?_, by simp, by simp, .nil⟩
  simp only [going]
  split
  · exact extends_nil _
  · exact extends_used s

theorem spends_item (s : Step Extractor) (e : Extractor) (taken : Bool) : Spends p w.uses
    (⟨e, []⟩, [⟨s.state, if s.taken then w.uses ++ [⟨p, w.machine⟩] else w.uses, p, !s.taken⟩],
      taken) := by
  refine ⟨extends_nil _, ?_, ?_, List.pairwise_singleton _ _⟩
  · intro i hi
    rw [List.mem_singleton.1 hi]
    exact ⟨rfl, extends_used s⟩
  · intro i _ u _ v hv
    exact absurd hv List.not_mem_nil

/-- An offer to a machine without tokens is one to a machine that has dropped its tokens. -/
theorem Spends.of_nil {r : Tracked × List Item × Bool} (hr : Spends p [] r) (uses : List Use) :
    Spends p uses r := by
  have hnew : ∀ {us}, Extends p [] us → Extends p uses us := by
    intro us h
    exact Or.inl fun u hu => (h.mem hu).resolve_left List.not_mem_nil
  exact ⟨hnew hr.keeps, fun i hi => ⟨(hr.items i hi).1, hnew (hr.items i hi).2⟩, hr.fresh, hr.apart⟩

/-- An item that ends in front of the token, which is then offered to the idle machine. -/
theorem spends_again {r : Tracked × List Item × Bool} (e : Extractor)
    (hw : ∀ u ∈ w.uses, u.place < p) (hr : Spends p [] r) :
    Spends p w.uses (r.1, ⟨e, w.uses, p, true⟩ :: r.2.1, r.2.2) := by
  have hnew : ∀ {us}, Extends p [] us → ∀ u ∈ us, u.place = p :=
    fun h u hu => (h.mem hu).resolve_left List.not_mem_nil
  refine ⟨(hr.of_nil _).keeps, ?_, ?_, ?_⟩
  · intro i hi
    rcases List.mem_cons.1 hi with rfl | hi
    · exact ⟨rfl, Or.inr ⟨fun u hu => hu, fun u hu => Or.inl hu⟩⟩
    · exact (hr.of_nil _).items i hi
  · intro i hi
    rcases List.mem_cons.1 hi with rfl | hi
    · exact apart_of_lt hw (hnew hr.keeps)
    · exact hr.fresh i hi
  · exact .cons (fun i hi => apart_of_lt hw (hnew (hr.items i hi).2)) hr.apart

theorem spends_offerUpTo (o : Owner) (t : TokenTree) (again : Nat) (w : Tracked)
    (hw : ∀ u ∈ w.uses, u.place < p) : Spends p w.uses (w.offerUpTo o p t again) := by
  refine offerUpTo_induction
    (P := fun w r => (∀ u ∈ w.uses, u.place < p) → Spends p w.uses r) ?_ ?_ ?_ ?_ ?_ again w hw
  · exact fun w _ _ _ => spends_going _
  · exact fun w _ => spends_nil _ _ _
  · exact fun w _ _ => spends_item _ _ _
  · exact fun w r hr _ => (hr (by simp)).of_nil _
  · exact fun w r _ hr hw => spends_again _ hw (hr (by simp))

/-- What an offer makes of the tokens of a machine. -/
theorem spends_offer (o : Owner) (t : TokenTree) (w : Tracked) (hw : ∀ u ∈ w.uses, u.place < p) :
    Spends p w.uses (w.offer o p t) :=
  spends_offerUpTo o t 1 w hw

/-! ## Kinds of machines -/

/-- What a machine reads never changes. -/
theorem name_accept (o : Owner) (e : Extractor) (t : TokenTree) :
    (e.accept o t).state.name = e.name := by
  cases e <;> first | rfl | skip
  rename_i found?
  simp only [accept]
  split <;> rfl

theorem name_reset (e : Extractor) : e.reset.name = e.name := by
  cases e <;> rfl

/-- The machine, the items that end and their tokens are all of one kind. -/
structure Named (name : String) (r : Tracked × List Item × Bool) : Prop where
  /-- The machine. -/
  machine : r.1.machine.name = name
  /-- Its tokens. -/
  uses : ∀ u ∈ r.1.uses, u.state.name = name
  /-- The items and their tokens. -/
  items : ∀ i ∈ r.2.1, i.machine.name = name ∧ ∀ u ∈ i.uses, u.state.name = name

theorem named_offerUpTo (o : Owner) (p : Nat) (t : TokenTree) (again : Nat) (w : Tracked)
    (hw : ∀ u ∈ w.uses, u.state.name = w.machine.name) :
    Named w.machine.name (w.offerUpTo o p t again) := by
  have hreset (w : Tracked) : (w.machine.accept o t).state.reset.name = w.machine.name := by
    rw [name_reset, name_accept]
  have hused : ∀ w : Tracked, (∀ u ∈ w.uses, u.state.name = w.machine.name) →
      ∀ u ∈ w.usesAfter o p t, u.state.name = w.machine.name := by
    intro w hw u hu
    unfold usesAfter at hu
    split at hu
    · rcases List.mem_append.1 hu with hu | hu
      · exact hw u hu
      · rw [List.mem_singleton.1 hu]
    · exact hw u hu
  refine offerUpTo_induction (P := fun w r => (∀ u ∈ w.uses, u.state.name = w.machine.name) →
    Named w.machine.name r) ?_ ?_ ?_ ?_ ?_ again w hw
  · intro w _ _ hw
    refine ⟨name_accept o w.machine t, ?_, by simp⟩
    intro u hu
    simp only [going] at hu
    split at hu
    · exact absurd hu List.not_mem_nil
    · exact hused w hw u hu
  · exact fun w _ => ⟨hreset w, by simp, by simp⟩
  · intro w _ hw
    refine ⟨hreset w, by simp, ?_⟩
    intro i hi
    rw [List.mem_singleton.1 hi]
    exact ⟨name_accept o w.machine t, hused w hw⟩
  · intro w r hr _
    exact hreset w ▸ hr (by simp)
  · intro w r _ hr hw
    have hrest := hr (by simp)
    rw [hreset w] at hrest
    refine ⟨hrest.machine, hrest.uses, ?_⟩
    intro i hi
    rcases List.mem_cons.1 hi with rfl | hi
    · exact ⟨name_accept o w.machine t, hw⟩
    · exact hrest.items i hi

theorem named_offer (o : Owner) (p : Nat) (t : TokenTree) (w : Tracked)
    (hw : ∀ u ∈ w.uses, u.state.name = w.machine.name) :
    Named w.machine.name (w.offer o p t) :=
  named_offerUpTo o p t 1 w hw

end Tracked

end Extractor

end Outline
