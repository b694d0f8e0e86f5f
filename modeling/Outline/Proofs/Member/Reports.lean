import Outline.Proofs.Member.Alone
import Outline.Proofs.Member.LosingSteps

/-!
# Reports of malformed types

`Extractor.run` notes malformed types, but neither which machine meets them nor at which token.
`Members.reports` lists them with both.  The machine that reports a token gives up what it reads
with that token, so that it reads no item from it.

* `Members.malformed_eq` — the reports tell all malformed types that are noted, in their order.
* `Tracked.apart_of_reported` — a machine reads no item from a token that it reports.
* `Tracked.alone_keeps` — what every step keeps holds of the tokens of all items and reports.
-/

namespace Outline

namespace Extractor

/-! ## One token -/

/-- The states in which a machine is offered a token: its own, and the idle one if it has given up
or ended an item without using the token up. -/
def attempts (o : Owner) (t : TokenTree) (e : Extractor) : List Extractor :=
  let s := e.accept o t
  if s.taken then [e]
  else if s.state.isFailed then if e.isIdle then [e] else [e, s.state.reset]
  else if s.state.isComplete then [e, s.state.reset]
  else [e]

theorem mem_attempts {o : Owner} {t : TokenTree} {e e' : Extractor} (h : e' ∈ e.attempts o t) :
    e' = e ∨ e' = (e.accept o t).state.reset ∧ (e.accept o t).taken = false ∧
      ((e.accept o t).state.isFailed = true ∧ e.isIdle = false ∨
        (e.accept o t).state.isFailed = false ∧ (e.accept o t).state.isComplete = true) := by
  rw [attempts] at h
  cases htaken : (e.accept o t).taken <;> cases hf : (e.accept o t).state.isFailed <;>
    cases hc : (e.accept o t).state.isComplete <;> cases hi : e.isIdle <;>
    simp [htaken, hf, hc, hi] at h ⊢ <;> exact h

/-- A malformed type that a machine notes. -/
structure Report where
  /-- The place of the token in the run. -/
  place : Nat
  /-- The state in which the machine is offered the token. -/
  machine : Extractor
  /-- The malformed type. -/
  malformed : MalformedType

/-- What a machine reports of the token at the place `p`. -/
def reportsAt (o : Owner) (p : Nat) (t : TokenTree) (e : Extractor) : List Report :=
  (e.attempts o t).flatMap fun e => (e.accept o t).malformed.map (⟨p, e, ·⟩)

section

variable {o : Owner} {p : Nat} {t : TokenTree}

theorem map_malformed_reportsAt (e : Extractor) :
    (e.reportsAt o p t).map (·.malformed) =
      (e.attempts o t).flatMap fun e => (e.accept o t).malformed := by
  rw [reportsAt, List.map_flatMap]
  congr 1
  funext e
  rw [List.map_map]
  exact List.map_id _

theorem mem_reportsAt {e : Extractor} {r : Report} :
    r ∈ e.reportsAt o p t ↔ r.place = p ∧ r.machine ∈ e.attempts o t ∧
      r.malformed ∈ (r.machine.accept o t).malformed := by
  simp only [reportsAt, List.mem_flatMap, List.mem_map]
  constructor
  · rintro ⟨e', he', malformed, hmalformed, rfl⟩
    exact ⟨rfl, he', hmalformed⟩
  · rintro ⟨rfl, he', hmalformed⟩
    exact ⟨r.machine, he', r.malformed, hmalformed, rfl⟩

/-- What an offer adds to the malformed types is what the machine reports. -/
theorem malformed_offer (e : Extractor) (h : Harvest) :
    (e.offer o t h).2.1.malformed = h.malformed ++ (e.reportsAt o p t).map (·.malformed) := by
  have hlast (e : Extractor) (h : Harvest) : (e.offerUpTo o t 0 h).2.1.malformed =
      h.malformed ++ (e.accept o t).malformed := by
    rw [offerUpTo]
    dsimp only
    cases (e.accept o t).taken <;> cases (e.accept o t).state.isFailed <;>
      cases (e.accept o t).state.isComplete <;> cases e.isIdle <;>
      simp only [Bool.false_eq_true, if_true, if_false, malformed_deliver] <;> rfl
  rw [map_malformed_reportsAt, offer, offerUpTo, attempts]
  dsimp only
  cases (e.accept o t).taken <;> cases (e.accept o t).state.isFailed <;>
    cases (e.accept o t).state.isComplete <;> cases e.isIdle <;>
    simp only [Bool.false_eq_true, if_true, if_false, malformed_deliver, hlast,
      List.flatMap_cons, List.flatMap_nil, List.append_nil, ← List.append_assoc] <;> rfl

end

namespace Tracked

/-! ## Runs -/

/-- What machines report of the tokens of a run, the first of which is at the place `p`. -/
def reportsAll (o : Owner) (p : Nat) (ws : List Tracked) : List TokenTree → List Report
  | [] => []
  | t :: ts =>
    ws.flatMap (fun w => w.machine.reportsAt o p t) ++ reportsAll o (p + 1) (read o p ws t).1 ts

/-- What one machine reports of the tokens of a run, the first of which is at the place `p`. -/
def reportsAlone (o : Owner) (p : Nat) (w : Tracked) : List TokenTree → List Report
  | [] => []
  | t :: ts => w.machine.reportsAt o p t ++ reportsAlone o (p + 1) (w.offer o p t).1 ts

variable {o : Owner} {p : Nat} {t : TokenTree}

theorem malformed_offerAll_eq (ws : List Tracked) (h : Harvest) :
    (Extractor.offerAll o t (ws.map (·.machine)) h).2.1.malformed =
      h.malformed ++ (ws.flatMap fun w => w.machine.reportsAt o p t).map (·.malformed) := by
  induction ws generalizing h with
  | nil => exact (List.append_nil _).symm
  | cons w ws ih =>
      rw [List.map_cons, List.flatMap_cons, List.map_append, ← List.append_assoc,
        ← malformed_offer w.machine h]
      exact ih _

/-- What a run adds to the malformed types is what the machines report. -/
theorem malformed_readAll_eq (ts : List TokenTree) (p : Nat) (ws : List Tracked) (h : Harvest) :
    (Extractor.readAll o (ws.map (·.machine)) h ts).2.malformed =
      h.malformed ++ (reportsAll o p ws ts).map (·.malformed) := by
  induction ts generalizing p ws h with
  | nil => exact (List.append_nil _).symm
  | cons t ts ih =>
      have hread := (read_eq_tracked o p t ws h).1
      have hnoted : (Extractor.read o (ws.map (·.machine)) h t).2.malformed =
          h.malformed ++ (ws.flatMap fun w => w.machine.reportsAt o p t).map (·.malformed) := by
        rw [← malformed_offerAll_eq ws h, Extractor.read]
        dsimp only
        split <;> rfl
      rw [reportsAll, List.map_append, ← List.append_assoc, ← hnoted, ← ih (p + 1), ← hread]
      rfl

theorem malformed_run_eq (es : List Extractor) (ts : List TokenTree) :
    (run o es ts).malformed =
      (reportsAll o 0 (es.map fun e => ⟨e, []⟩) ts).map (·.malformed) := by
  have hes : (es.map fun e => (⟨e, []⟩ : Tracked)).map (·.machine) = es := by
    rw [List.map_map]
    exact List.map_id es
  have hread := malformed_readAll_eq (o := o) ts 0 (es.map fun e => ⟨e, []⟩) {}
  rw [hes] at hread
  exact (malformed_foldl_close _ _).trans hread

/-! ## One machine by itself -/

theorem mem_reportsAll {ts : List TokenTree} {ws : List Tracked} {r : Report} :
    r ∈ reportsAll o p ws ts ↔ ∃ w ∈ ws, r ∈ w.reportsAlone o p ts := by
  induction ts generalizing p ws with
  | nil => simp [reportsAll, reportsAlone]
  | cons t ts ih =>
      have hread : (read o p ws t).1 = ws.map fun w => (w.offer o p t).1 := (offerAll_eq o p t ws).1
      rw [reportsAll, List.mem_append, List.mem_flatMap, ih, hread]
      simp only [List.mem_map, exists_exists_and_eq_and, reportsAlone, List.mem_append]
      constructor
      · rintro (⟨w, hw, hr⟩ | ⟨w, hw, hr⟩)
        · exact ⟨w, hw, .inl hr⟩
        · exact ⟨w, hw, .inr hr⟩
      · rintro ⟨w, hw, hr | hr⟩
        · exact .inl ⟨w, hw, hr⟩
        · exact .inr ⟨w, hw, hr⟩

/-- What one token keeps holds behind a run of tokens, of the reports as well. -/
theorem alone_reports_induction (body : List TokenTree)
    {P : Nat → Tracked → List Item → List Report → Prop} {w : Tracked} (start : P 0 w [] [])
    (step : ∀ p t w items reports, body[p]? = some t → P p w items reports →
      P (p + 1) (w.offer o p t).1 (items ++ (w.offer o p t).2.1)
        (reports ++ w.machine.reportsAt o p t)) :
    P body.length (w.alone o 0 body).1 (w.alone o 0 body).2 (w.reportsAlone o 0 body) := by
  have hrest : ∀ (ts front : List TokenTree) (w : Tracked) (items : List Item)
      (reports : List Report), body = front ++ ts → P front.length w items reports →
      P body.length (w.alone o front.length ts).1 (items ++ (w.alone o front.length ts).2)
        (reports ++ w.reportsAlone o front.length ts) := by
    intro ts
    induction ts with
    | nil =>
        intro front w items reports hbody h
        rw [hbody, List.append_nil, alone, reportsAlone, List.append_nil, List.append_nil]
        exact h
    | cons t ts ih =>
        intro front w items reports hbody h
        have ht : body[front.length]? = some t := by rw [hbody]; simp
        have hnext := ih (front ++ [t]) _ _ _ (by simp [hbody])
          (by simpa using step front.length t w items reports ht h)
        rw [List.length_append, List.length_singleton, List.append_assoc, List.append_assoc]
          at hnext
        exact hnext
  simpa using hrest body [] w [] [] rfl start

/-- A machine that reports a token keeps none of its tokens, and the items that end in front of it
have no other tokens than those of the machine. -/
theorem offer_of_reported {w : Tracked} {r : Report} (hr : r ∈ w.machine.reportsAt o p t) :
    (w.offer o p t).1.uses = [] ∧ ∀ i ∈ (w.offer o p t).2.1, i.uses = w.uses := by
  obtain ⟨-, hattempt, hmalformed⟩ := mem_reportsAt.1 hr
  obtain ⟨htaken, hfailed⟩ :=
    (loses_accept o r.machine t).resolve_left fun h => by simp [h] at hmalformed
  rcases mem_attempts hattempt with hfirst | ⟨hreset, hleft, hagain⟩
  · rw [hfirst] at htaken hfailed
    rw [offer_of_taken_failed rfl hfailed htaken]
    exact ⟨rfl, by simp⟩
  · -- the machine is offered the token once more, and reports it then
    rw [hreset] at htaken hfailed
    rw [offer, offerUpTo_eq]
    rcases hagain with ⟨hgiven, hidle⟩ | ⟨hgoing, hended⟩
    · simp [hgiven, hidle, hleft, offerUpTo_eq, hfailed, htaken]
    · simp [hgoing, hended, hleft, offerUpTo_eq, hfailed, htaken]

/-- What holds of the tokens of a machine, of its items and of its reports in front of the place
`p`. -/
structure Spared (p : Nat) (w : Tracked) (items : List Item) (reports : List Report) : Prop where
  /-- The tokens of the machine stand before the place. -/
  below : ∀ u ∈ w.uses, u.place < p
  /-- So do those of the items. -/
  ended : ∀ i ∈ items, ∀ u ∈ i.uses, u.place < p
  /-- So do those that are reported. -/
  reported : ∀ r ∈ reports, r.place < p
  /-- The machine has not used a token that is reported. -/
  fresh : ∀ r ∈ reports, ∀ u ∈ w.uses, u.place ≠ r.place
  /-- Nor has an item. -/
  apart : ∀ r ∈ reports, ∀ i ∈ items, ∀ u ∈ i.uses, u.place ≠ r.place

theorem Spared.step {w : Tracked} {items : List Item} {reports : List Report}
    (h : Spared p w items reports) (o : Owner) (t : TokenTree) :
    Spared (p + 1) (w.offer o p t).1 (items ++ (w.offer o p t).2.1)
      (reports ++ w.machine.reportsAt o p t) := by
  have hspends := spends_offer o t w h.below
  have hplace : ∀ r ∈ w.machine.reportsAt o p t, r.place = p := fun r hr => (mem_reportsAt.1 hr).1
  have hended : ∀ i ∈ (w.offer o p t).2.1, ∀ u ∈ i.uses, u ∈ w.uses ∨ u.place = p :=
    fun i hi u hu => (hspends.items i hi).2.mem hu
  refine ⟨?_, ?_, ?_, ?_, ?_⟩
  · intro u hu
    rcases hspends.keeps.mem hu with hu | hu
    · have := h.below u hu
      omega
    · omega
  · intro i hi u hu
    rcases List.mem_append.1 hi with hi | hi
    · have := h.ended i hi u hu
      omega
    · rcases hended i hi u hu with hu | hu
      · have := h.below u hu
        omega
      · omega
  · intro r hr
    rcases List.mem_append.1 hr with hr | hr
    · have := h.reported r hr
      omega
    · have := hplace r hr
      omega
  · intro r hr u hu
    rcases List.mem_append.1 hr with hr | hr
    · rcases hspends.keeps.mem hu with hu | hu
      · exact h.fresh r hr u hu
      · have := h.reported r hr
        omega
    · rw [(offer_of_reported hr).1] at hu
      exact absurd hu List.not_mem_nil
  · intro r hr i hi u hu
    rcases List.mem_append.1 hr with hr | hr <;> rcases List.mem_append.1 hi with hi | hi
    · exact h.apart r hr i hi u hu
    · rcases hended i hi u hu with hu | hu
      · exact h.fresh r hr u hu
      · have := h.reported r hr
        omega
    · have := h.ended i hi u hu
      have := hplace r hr
      omega
    · rw [(offer_of_reported hr).2 i hi] at hu
      have := h.below u hu
      have := hplace r hr
      omega

/-- A machine reads no item from a token that it reports. -/
theorem apart_of_reported {e : Extractor} {body : List TokenTree} {r : Report} {i : Item}
    (hr : r ∈ reportsAlone o 0 ⟨e, []⟩ body) (hi : i ∈ itemsAlone o ⟨e, []⟩ body) :
    r.place ∉ i.places := by
  have hrun : Spared body.length (alone o 0 ⟨e, []⟩ body).1 (alone o 0 ⟨e, []⟩ body).2
      (reportsAlone o 0 ⟨e, []⟩ body) :=
    alone_reports_induction body ⟨by simp, by simp, by simp, by simp, by simp⟩
      fun p t w items reports _ h => h.step o t
  intro hplace
  obtain ⟨u, hu, hup⟩ := Item.mem_places.1 hplace
  rcases List.mem_append.1 hi with hi | hi
  · exact hrun.apart r hr i hi u hu hup
  · rw [(of_close? (Option.mem_toList.1 hi)).1] at hu
    exact hrun.fresh r hr u hu hup

/-! ## What every step keeps -/

/-- The token `t` is used up in a state of which `I` holds, and the machine reads on. -/
def UsesUp (I : Extractor → Prop) (o : Owner) (t : TokenTree) (e : Extractor) : Prop :=
  I e ∧ (e.accept o t).taken = true ∧ (e.accept o t).state.isFailed = false

/-- A token of an item is used up in a state of which `I` holds. -/
def UsedIn (I : Nat → Extractor → Prop) (o : Owner) (body : List TokenTree) (u : Use) : Prop :=
  ∃ t, body[u.place]? = some t ∧ UsesUp (I u.place) o t u.state

/-- A token is reported in a state of which `I` holds. -/
def ReportedIn (I : Nat → Extractor → Prop) (o : Owner) (body : List TokenTree) (r : Report) :
    Prop :=
  ∃ t, body[r.place]? = some t ∧ I r.place r.machine ∧
    r.malformed ∈ (r.machine.accept o t).malformed

/-- A machine that has read all it reads has not given up. -/
theorem isFailed_of_isComplete {e : Extractor} (h : e.isComplete = true) :
    e.isFailed = false := by
  cases e with
  | field m => cases m <;> first | rfl | exact absurd h Bool.false_ne_true
  | method m => cases m <;> first | rfl | exact absurd h Bool.false_ne_true
  | enumMember m =>
      obtain ⟨stage, ended⟩ := m
      cases stage <;> first | rfl | exact absurd h Bool.false_ne_true
  | annotations m => cases m <;> first | rfl | exact absurd h Bool.false_ne_true
  | comment found? => rfl
  | imports m => cases m <;> first | rfl | exact absurd h Bool.false_ne_true

theorem usesUp_of_usesAfter {I : Extractor → Prop} {w : Tracked} (hw : I w.machine)
    (hfailed : (w.machine.accept o t).state.isFailed = false) {u : Use}
    (hu : u ∈ w.usesAfter o p t) : u ∈ w.uses ∨ u.place = p ∧ UsesUp I o t u.state := by
  unfold usesAfter at hu
  split at hu
  · rcases List.mem_append.1 hu with hu | hu
    · exact .inl hu
    · rw [List.mem_singleton.1 hu]
      exact .inr ⟨rfl, hw, ‹_›, hfailed⟩
  · exact .inl hu

/-- What holds of the tokens that an offer adds to a machine and to the items that end. -/
theorem offer_keeps {I J : Extractor → Prop}
    (reset : ∀ e, I e → I (e.accept o t).state.reset ∧ J (e.accept o t).state.reset)
    (goes : ∀ e, I e → (e.accept o t).state.isFailed = false →
      (e.accept o t).state.isComplete = false → J (e.accept o t).state)
    (w : Tracked) (hw : I w.machine) :
    J (w.offer o p t).1.machine ∧
      ∀ u, (u ∈ (w.offer o p t).1.uses ∨ ∃ i ∈ (w.offer o p t).2.1, u ∈ i.uses) →
        u ∈ w.uses ∨ u.place = p ∧ UsesUp I o t u.state := by
  refine offerUpTo_induction (P := fun w r => I w.machine → J r.1.machine ∧
    ∀ u, (u ∈ r.1.uses ∨ ∃ i ∈ r.2.1, u ∈ i.uses) →
      u ∈ w.uses ∨ u.place = p ∧ UsesUp I o t u.state) ?_ ?_ ?_ ?_ ?_ 1 w hw
  · intro w hf hc hw
    refine ⟨goes _ hw hf hc, ?_⟩
    rintro u (hu | ⟨i, hi, -⟩)
    · simp only [going] at hu
      split at hu
      · exact absurd hu List.not_mem_nil
      · exact usesUp_of_usesAfter hw hf hu
    · exact absurd hi List.not_mem_nil
  · intro w hw
    exact ⟨(reset _ hw).2, by simp⟩
  · intro w hc hw
    refine ⟨(reset _ hw).2, ?_⟩
    rintro u (hu | ⟨i, hi, hu⟩)
    · exact absurd hu List.not_mem_nil
    · rw [List.mem_singleton.1 hi] at hu
      exact usesUp_of_usesAfter hw (isFailed_of_isComplete hc) hu
  · intro w r hr hw
    obtain ⟨hmachine, huses⟩ := hr (reset _ hw).1
    exact ⟨hmachine, fun u hu => .inr ((huses u hu).resolve_left List.not_mem_nil)⟩
  · intro w r _ hr hw
    obtain ⟨hmachine, huses⟩ := hr (reset _ hw).1
    refine ⟨hmachine, ?_⟩
    rintro u (hu | ⟨i, hi, hu⟩)
    · exact .inr ((huses u (.inl hu)).resolve_left List.not_mem_nil)
    · rcases List.mem_cons.1 hi with rfl | hi
      · exact .inl hu
      · exact .inr ((huses u (.inr ⟨i, hi, hu⟩)).resolve_left List.not_mem_nil)

/-- What every step keeps holds of the states in which the tokens of the items are used, and of
those in which tokens are reported. -/
theorem alone_keeps {body : List TokenTree} {e : Extractor} {I : Nat → Extractor → Prop}
    (start : I 0 e)
    (reset : ∀ p t e, body[p]? = some t → I p e →
      I p (e.accept o t).state.reset ∧ I (p + 1) (e.accept o t).state.reset)
    (goes : ∀ p t e, body[p]? = some t → I p e → (e.accept o t).state.isFailed = false →
      (e.accept o t).state.isComplete = false → I (p + 1) (e.accept o t).state) :
    (∀ i ∈ itemsAlone o ⟨e, []⟩ body, ∀ u ∈ i.uses, UsedIn I o body u) ∧
      ∀ r ∈ reportsAlone o 0 ⟨e, []⟩ body, ReportedIn I o body r := by
  have hrun := alone_reports_induction body (o := o) (w := ⟨e, []⟩)
    (P := fun p w items reports => I p w.machine ∧ (∀ u ∈ w.uses, UsedIn I o body u) ∧
      (∀ i ∈ items, ∀ u ∈ i.uses, UsedIn I o body u) ∧ ∀ r ∈ reports, ReportedIn I o body r)
    ⟨start, by simp, by simp, by simp⟩ ?_
  · obtain ⟨-, huses, hitems, hreports⟩ := hrun
    refine ⟨fun i hi => ?_, hreports⟩
    rcases List.mem_append.1 hi with hi | hi
    · exact hitems i hi
    · rw [(of_close? (Option.mem_toList.1 hi)).1]
      exact huses
  · rintro p t w items reports ht ⟨hmachine, huses, hitems, hreports⟩
    obtain ⟨hnext, hnew⟩ := offer_keeps (p := p) (fun e => reset p t e ht)
      (fun e => goes p t e ht) w hmachine
    have hadded : ∀ u, (u ∈ (w.offer o p t).1.uses ∨ ∃ i ∈ (w.offer o p t).2.1, u ∈ i.uses) →
        UsedIn I o body u := by
      intro u hu
      rcases hnew u hu with hu | ⟨hplace, hu⟩
      · exact huses u hu
      · rw [UsedIn, hplace]
        exact ⟨t, ht, hu⟩
    refine ⟨hnext, fun u hu => hadded u (.inl hu), ?_, ?_⟩
    · intro i hi u hu
      rcases List.mem_append.1 hi with hi | hi
      · exact hitems i hi u hu
      · exact hadded u (.inr ⟨i, hi, hu⟩)
    · intro r hr
      rcases List.mem_append.1 hr with hr | hr
      · exact hreports r hr
      · obtain ⟨hplace, hattempt, hmalformed⟩ := mem_reportsAt.1 hr
        refine ⟨t, hplace ▸ ht, ?_, hmalformed⟩
        rw [hplace]
        rcases mem_attempts hattempt with h | ⟨h, -, -⟩
        · rw [h]
          exact hmachine
        · rw [h]
          exact (reset p t w.machine ht hmachine).1

end Tracked

end Extractor

namespace Members

open Extractor (Report Tracked Item)

/-- What the machines report of the body of a declaration. -/
def reports (o : Owner) (kind : DeclarationKind) (body : List TokenTree) : List Report :=
  Tracked.reportsAll o 0 ((extractors o.language kind).map fun e => ⟨e, []⟩) body

/-- The reports tell all malformed types that are noted in a body, in their order. -/
theorem malformed_eq (o : Owner) (kind : DeclarationKind) (body : List TokenTree) :
    (ofBody o kind body).malformed = (reports o kind body).map (·.malformed) :=
  Tracked.malformed_run_eq _ body

/-- The reports of a body are those of its machines. -/
theorem mem_reports {o : Owner} {kind : DeclarationKind} {body : List TokenTree} {r : Report} :
    r ∈ reports o kind body ↔
      ∃ e ∈ extractors o.language kind, r ∈ Tracked.reportsAlone o 0 ⟨e, []⟩ body := by
  rw [reports, Tracked.mem_reportsAll]
  simp only [List.mem_map, exists_exists_and_eq_and]

end Members

end Outline
