import Outline.Proofs.Written.Between

/-!
# Offering a token again

A machine that ends or gives up its item without using the token up is offered the token once more,
but never a third time.  Nothing is lost by that: where nothing is read, a machine either uses the
token up or stays as it is, so that a third offer is never due.

* `Extractor.accept_reset` — what a machine in which nothing is read makes of a token.
* `Extractor.Offered` — offers that are repeated as often as they are due.
* `Extractor.offered_iff` — they come to the same as `Extractor.offer`, after one or two offers.
* `Extractor.offers_run` — how often the tokens of a run are offered.
* `Extractor.offer_suffices` — all of it for the machines that a run can lead to.
-/

namespace Outline

/-! ## Machines in which nothing is read -/

/-- The step uses the token up, or changes nothing. -/
def Step.TakesOrStays {σ : Type} (s : Step σ) (state : σ) : Prop :=
  s.taken = true ∨ s = .leave state

namespace Step.TakesOrStays

variable {σ τ : Type} {s : Step σ} {state : σ}

theorem map (h : s.TakesOrStays state) (f : σ → τ) : (s.map f).TakesOrStays (f state) := by
  rcases h with h | rfl
  · exact .inl h
  · exact .inr rfl

end Step.TakesOrStays

/-- Outside of an annotation, a token that does not start one leaves everything as it is. -/
theorem AnnotationSkip.step_none (l : Language) (t : Token) :
    (∃ skip, step l none t = (skip, true)) ∨ step l none t = (none, false) := by
  unfold step
  cases l.annotationStyle with
  | bracketed =>
      cases h : t.isBlock '[' with
      | true => exact .inl ⟨none, rfl⟩
      | false => exact .inr rfl
  | atSign =>
      dsimp only
      split
      · exact .inl ⟨some name, rfl⟩
      · exact .inr rfl

/-- A token that may start a type is used up by it. -/
theorem TypeMachine.taken_of_starts {l : Language} {allowVoid : Bool} {t : Token}
    (h : starts l allowVoid t = true) : (idle.accept l allowVoid t).taken = true := by
  rw [accept, h]
  split
  · contradiction
  · split
    · rfl
    · unfold find
      split <;> rfl

namespace FieldMachine

theorem taken_acceptType {l : Language} {d : FieldDraft} {m : TypeMachine} {t : Token}
    {next : FieldDraft → FieldMachine} {accept : FieldDraft → Step FieldMachine}
    (h : (m.accept l false t).taken = true) : (acceptType l d m t next accept).taken = true :=
  (ofType_acceptType l d m t next accept).taken_eq_true h

theorem takesOrStays_acceptHead (l : Language) (t : Token) {start : Option (Step FieldMachine)}
    (h : ∀ s ∈ start, s.taken = true) : (acceptHead l none [] t start).TakesOrStays idle := by
  unfold acceptHead
  rcases AnnotationSkip.step_none l t with ⟨skip, hstep⟩ | hstep
  · rw [hstep]
    exact .inl rfl
  · rw [hstep]
    dsimp only
    split
    · exact .inl rfl
    · cases start with
      | none => exact .inr rfl
      | some s => exact .inl (h s rfl)

theorem takesOrStays_accept (o : Owner) (t : Token) : (idle.accept o t).TakesOrStays idle := by
  refine accept_of_parts (P := (Step.TakesOrStays · idle)) (fun _ => .inr rfl) (fun _ _ => ?_)
    (fun _ _ => ?_) fun _ _ _ htaken _ => .inl htaken
  · refine takesOrStays_acceptHead _ _ fun s hs => ?_
    obtain ⟨hstarts, hs⟩ := Option.ite_none_right_eq_some.1 hs
    rw [← Option.some.inj hs]
    exact taken_acceptType (TypeMachine.taken_of_starts hstarts)
  · refine takesOrStays_acceptHead _ _ fun s hs => ?_
    obtain ⟨-, hs⟩ := Option.ite_none_right_eq_some.1 hs
    rw [← Option.some.inj hs]
    rfl

end FieldMachine

namespace MethodMachine

theorem taken_acceptType {l : Language} {d : MethodDraft} {m : TypeMachine} {t : Token}
    {within : MethodDraft → TypeMachine → MethodMachine} {next : MethodDraft → MethodMachine}
    {accept : MethodDraft → Step MethodMachine} (h : (m.accept l true t).taken = true) :
    (acceptType l d m t within next accept).taken = true :=
  (ofType_acceptType l d m t within next accept).taken_eq_true h

theorem taken_acceptName (d : MethodDraft) (text : String) : (acceptName d text).taken = true := by
  unfold acceptName
  split <;> rfl

theorem takesOrStays_acceptHead {l : Language} {t : Token}
    {rest : Option AnnotationSkip → Step MethodMachine} (hrest : (rest none).TakesOrStays idle) :
    (acceptHead l false none [] [] t rest).TakesOrStays idle := by
  refine acceptHead_of_parts (P := (Step.TakesOrStays · idle)) (fun _ _ => .inl rfl)
    (fun _ _ _ => .inl rfl) fun skip' hstep _ => ?_
  rcases AnnotationSkip.step_none l t with ⟨skip, htaken⟩ | hleft
  · rw [htaken] at hstep
    cases hstep
  · rw [hleft] at hstep
    cases hstep
    exact hrest

theorem takesOrStays_accept (o : Owner) (t : TokenTree) : (idle.accept o t).TakesOrStays idle := by
  refine accept_of_parts (P := (Step.TakesOrStays · idle)) (fun _ => .inr rfl) (fun _ _ => ?_)
    (fun _ _ => ?_) fun _ _ _ htaken _ => .inl htaken
  · rw [idle, acceptTypeFirst_head]
    refine takesOrStays_acceptHead ?_
    split
    · exact .inl rfl
    · split
      · exact .inl (taken_acceptType (TypeMachine.taken_of_starts ‹_›))
      · exact .inr rfl
  · rw [idle, acceptNameFirst_head]
    refine takesOrStays_acceptHead ?_
    split
    · exact .inl (taken_acceptName _ _)
    · split
      · exact .inl rfl
      · exact .inr rfl

end MethodMachine

theorem EnumMemberMachine.takesOrStays_accept (o : Owner) (ended : Bool) (t : TokenTree) :
    ((⟨.head none, ended⟩ : EnumMemberMachine).accept o t).TakesOrStays ⟨.head none, ended⟩ := by
  unfold accept
  split
  · exact .inr rfl
  · dsimp only
    rcases AnnotationSkip.step_none o.language t.value with ⟨skip, hstep⟩ | hstep
    · rw [hstep]
      exact .inl rfl
    · rw [hstep]
      dsimp only
      split
      · exact .inl rfl
      split
      · exact .inl rfl
      · exact .inr rfl

theorem AnnotationMachine.takesOrStays_accept (l : Language) (t : TokenTree) :
    (idle.accept l t).TakesOrStays idle := by
  unfold accept
  split
  · exact .inr rfl
  · cases l.annotationStyle with
    | bracketed =>
        dsimp only
        generalize (if t.value.isBlock '[' then Annotation.ofBrackets t else []) = found
        split
        · exact .inr rfl
        · exact .inl rfl
    | atSign =>
        dsimp only
        split
        · exact .inl rfl
        · exact .inr rfl

theorem ImportMachine.takesOrStays_accept (l : Language) (t : TokenTree) :
    (idle.accept l t).TakesOrStays idle := by
  have hnamespace : ∀ l, (acceptNamespace l idle t.value).TakesOrStays idle := by
    intro l
    unfold acceptNamespace
    dsimp only
    split
    · exact .inl rfl
    · exact .inr rfl
  unfold accept
  split
  · exact .inr rfl
  · split
    · unfold acceptModule
      dsimp only
      split
      · exact .inl rfl
      · exact .inr rfl
    · exact hnamespace _
    · exact hnamespace _

namespace Extractor

/-- Where nothing is read, a token is used up, or the machine stays as it is. -/
theorem accept_reset (o : Owner) (e : Extractor) (t : TokenTree) :
    (e.reset.accept o t).TakesOrStays e.reset := by
  cases e with
  | field m => exact (FieldMachine.takesOrStays_accept o t.value).map field
  | method m => exact (MethodMachine.takesOrStays_accept o t).map method
  | enumMember m => exact (EnumMemberMachine.takesOrStays_accept o m.listEnded t).map enumMember
  | annotations m => exact (AnnotationMachine.takesOrStays_accept o.language t).map annotations
  | comment found? =>
      change Step.TakesOrStays (accept o (comment none) t) (comment none)
      rw [accept]
      split
      · exact .inl rfl
      · exact .inr rfl
  | imports m => exact (ImportMachine.takesOrStays_accept o.language t).map imports

@[simp] theorem isIdle_reset (e : Extractor) : e.reset.isIdle = true := by cases e <;> rfl

@[simp] theorem isComplete_reset (e : Extractor) : e.reset.isComplete = false := by cases e <;> rfl

@[simp] theorem isFailed_reset (e : Extractor) : e.reset.isFailed = false := by cases e <;> rfl

/-! ## Offers without a bound -/

/-- Offers a token to a machine, and again after every item that ends without it and every item
that is given up part way without it, until the token is used up, or is left by a machine that
neither ends nor gives up an item.  The number tells how often it is offered. -/
inductive Offered (o : Owner) (t : TokenTree) :
    Nat → Extractor → Harvest → Extractor × Harvest × Bool → Prop where
  /-- The item goes on, or none is read. -/
  | goes {e : Extractor} {h : Harvest} {s : Step Extractor} (step : e.accept o t = s)
      (failed : s.state.isFailed = false) (complete : s.state.isComplete = false) :
      Offered o t 1 e h (s.state, h.countOffer s.malformed, s.taken)
  /-- The token starts no item. -/
  | refuses {e : Extractor} {h : Harvest} {s : Step Extractor} (step : e.accept o t = s)
      (failed : s.state.isFailed = true) (idle : e.isIdle = true) :
      Offered o t 1 e h (s.state.reset, h.countOffer s.malformed, s.taken)
  /-- The item is given up with the token. -/
  | drops {e : Extractor} {h : Harvest} {s : Step Extractor} (step : e.accept o t = s)
      (failed : s.state.isFailed = true) (idle : e.isIdle = false) (taken : s.taken = true) :
      Offered o t 1 e h (s.state.reset, (h.countOffer s.malformed).countAbandoned, true)
  /-- The item is given up without the token. -/
  | retries {e : Extractor} {h : Harvest} {s : Step Extractor} {n : Nat}
      {r : Extractor × Harvest × Bool} (step : e.accept o t = s)
      (failed : s.state.isFailed = true) (idle : e.isIdle = false) (taken : s.taken = false)
      (again : Offered o t n s.state.reset (h.countOffer s.malformed).countAbandoned r) :
      Offered o t (n + 1) e h r
  /-- The item ends with the token. -/
  | ends {e : Extractor} {h : Harvest} {s : Step Extractor} (step : e.accept o t = s)
      (failed : s.state.isFailed = false) (complete : s.state.isComplete = true)
      (taken : s.taken = true) :
      Offered o t 1 e h (s.state.reset, s.state.deliver o (h.countOffer s.malformed), true)
  /-- The item ends without the token. -/
  | restarts {e : Extractor} {h : Harvest} {s : Step Extractor} {n : Nat}
      {r : Extractor × Harvest × Bool} (step : e.accept o t = s)
      (failed : s.state.isFailed = false) (complete : s.state.isComplete = true)
      (taken : s.taken = false)
      (again : Offered o t n s.state.reset (s.state.deliver o (h.countOffer s.malformed)) r) :
      Offered o t (n + 1) e h r

variable {o : Owner} {t : TokenTree} {n m : Nat} {e : Extractor} {h : Harvest}
  {r r' : Extractor × Harvest × Bool}

theorem isComplete_of_isFailed (hf : e.isFailed = true) : e.isComplete = false := by
  cases e with
  | field m => cases m <;> first | rfl | cases hf
  | method m => cases m <;> first | rfl | cases hf
  | enumMember m =>
      obtain ⟨stage, ended⟩ := m
      cases stage <;> first | rfl | cases hf
  | annotations m => cases m <;> first | rfl | cases hf
  | comment found? => cases hf
  | imports m => cases m <;> first | rfl | cases hf

theorem Offered.unique (hr : Offered o t n e h r) (hr' : Offered o t m e h r') :
    n = m ∧ r = r' := by
  induction hr generalizing m r' with
  | goes step failed complete => cases hr' <;> simp_all
  | refuses step failed idle => cases hr' <;> simp_all
  | drops step failed idle taken => cases hr' <;> simp_all
  | ends step failed complete taken => cases hr' <;> simp_all
  | retries step failed idle taken again ih =>
      cases hr' with
      | retries step' failed' idle' taken' again' =>
          obtain rfl := step.symm.trans step'
          obtain ⟨rfl, rfl⟩ := ih again'
          exact ⟨rfl, rfl⟩
      | _ => simp_all
  | restarts step failed complete taken again ih =>
      cases hr' with
      | restarts step' failed' complete' taken' again' =>
          obtain rfl := step.symm.trans step'
          obtain ⟨rfl, rfl⟩ := ih again'
          exact ⟨rfl, rfl⟩
      | _ => simp_all

/-- The machine that is left neither has ended nor has given up an item. -/
theorem Offered.settled (hr : Offered o t n e h r) :
    r.1.isComplete = false ∧ r.1.isFailed = false := by
  induction hr with
  | goes step failed complete => exact ⟨complete, failed⟩
  | retries _ _ _ _ _ ih => exact ih
  | restarts _ _ _ _ _ ih => exact ih
  | _ => exact ⟨isComplete_reset _, isFailed_reset _⟩

@[simp] theorem metrics_deliver (o : Owner) (h : Harvest) (e : Extractor) :
    (e.deliver o h).metrics = h.metrics := by
  unfold deliver
  split <;> rfl

/-- Every offer is counted. -/
theorem Offered.counted (hr : Offered o t n e h r) :
    r.2.1.metrics.offers = h.metrics.offers + n := by
  have hagain (offers n : Nat) : offers + 1 + n = offers + (n + 1) := by omega
  induction hr with
  | ends => rw [metrics_deliver]; rfl
  | retries step failed idle taken again ih => exact ih.trans (hagain _ _)
  | restarts step failed complete taken again ih =>
      rw [ih, metrics_deliver]
      exact hagain _ _
  | _ => rfl

/-! ## Two offers are enough -/

/-- Whether the token is due again: the item is given up or ends without it. -/
def isDue (o : Owner) (t : TokenTree) (e : Extractor) : Bool :=
  let s := e.accept o t
  !s.taken && (s.state.isComplete || s.state.isFailed && !e.isIdle)

/-- Where nothing is read, one offer is enough. -/
theorem offered_reset (o : Owner) (t : TokenTree) (again : Nat) (e : Extractor) (h : Harvest) :
    Offered o t 1 e.reset h (e.reset.offerUpTo o t again h) := by
  rw [offerUpTo]
  rcases accept_reset o e t with htaken | hstays
  · generalize hs : e.reset.accept o t = s at htaken
    cases hf : s.state.isFailed with
    | true => simpa [hf, htaken] using Offered.refuses (h := h) hs hf (isIdle_reset e)
    | false =>
        cases hc : s.state.isComplete with
        | true => simpa [hf, hc, htaken] using Offered.ends (h := h) hs hf hc htaken
        | false => simpa [hf, hc, htaken] using Offered.goes (h := h) hs hf hc
  · simpa [hstays, Step.leave] using Offered.goes (h := h) hstays (by simp [Step.leave])
      (by simp [Step.leave])

/-- Offering a token at most twice comes to the same as offering it as often as it is due. -/
theorem offered_offer (o : Owner) (t : TokenTree) (e : Extractor) (h : Harvest) :
    Offered o t (if isDue o t e then 2 else 1) e h (e.offer o t h) := by
  rw [offer, offerUpTo, isDue]
  generalize hs : e.accept o t = s
  dsimp only
  cases hf : s.state.isFailed with
  | true =>
      have hc := isComplete_of_isFailed hf
      cases hidle : e.isIdle with
      | true => simpa [hc] using Offered.refuses (h := h) hs hf hidle
      | false =>
          cases ht : s.taken with
          | true => simpa using Offered.drops (h := h) hs hf hidle ht
          | false => simpa using Offered.retries hs hf hidle ht (offered_reset o t 0 s.state _)
  | false =>
      cases hc : s.state.isComplete with
      | true =>
          cases ht : s.taken with
          | true => simpa using Offered.ends (h := h) hs hf hc ht
          | false => simpa using Offered.restarts hs hf hc ht (offered_reset o t 0 s.state _)
      | false => simpa using Offered.goes (h := h) hs hf hc

/-- Offers that are repeated as often as they are due come to the same as at most two offers. -/
theorem offered_iff :
    Offered o t n e h r ↔ n = (if isDue o t e then 2 else 1) ∧ r = e.offer o t h := by
  constructor
  · exact fun hr => hr.unique (offered_offer o t e h)
  · rintro ⟨rfl, rfl⟩
    exact offered_offer o t e h

/-! ## Runs -/

/-- The machines in front of the first token. -/
def fresh : List Extractor :=
  [field .idle, method .idle, enumMember {}, annotations .idle, comment none, imports .idle]

/-- The machines that offers of tokens can lead to. -/
inductive Reachable (o : Owner) : Extractor → Prop where
  /-- No token has been offered. -/
  | fresh {e : Extractor} (start : e ∈ fresh) : Reachable o e
  /-- One more token has been offered. -/
  | offered {e : Extractor} (before : Reachable o e) (t : TokenTree) (h : Harvest) :
      Reachable o (e.offer o t h).1

/-- Offers without a bound lead to the same machines. -/
theorem Reachable.of_offered (he : Reachable o e) (hr : Offered o t n e h r) :
    Reachable o r.1 := by
  rw [(offered_iff.1 hr).2]
  exact he.offered t h

/-- The machine that reads methods keeps nothing of a head in which nothing is read. -/
theorem Reachable.tidy {e : Extractor} (he : Reachable o e) :
    ∀ m, e = method m → m.Tidy := by
  induction he with
  | fresh start =>
      rintro m rfl
      simp only [Extractor.fresh, List.mem_cons, List.not_mem_nil, or_false, reduceCtorEq, false_or,
        Extractor.method.injEq] at start
      rw [start]
      exact ⟨rfl, rfl⟩
  | @offered e before t h ih =>
      have hmachine : (e.offer o t h).1 = (respond o t e).machine :=
        (offerUpTo_eq_tracked o 0 t 1 ⟨e, []⟩ h).1
      rw [hmachine]
      exact method_keeps (fun m m' hm => hm.tidy) ⟨rfl, rfl⟩ ih

/-- Where nothing is read, nothing is kept. -/
theorem Reachable.eq_reset (he : Reachable o e) (hidle : e.isIdle = true) : e = e.reset := by
  cases e with
  | field m => exact congrArg field (FieldMachine.eq_idle_of_isIdle hidle)
  | method m =>
      have htidy := he.tidy m rfl
      cases m with
      | head started skip modifiers typeParams =>
          cases started with
          | true => cases hidle
          | false =>
              cases skip with
              | some s => cases hidle
              | none =>
                  obtain ⟨rfl, rfl⟩ := htidy
                  rfl
      | _ => cases hidle
  | enumMember m => exact congrArg enumMember (EnumMemberMachine.eq_idle_of_isIdle hidle)
  | annotations m => cases m <;> first | rfl | cases hidle
  | comment found? => cases found? <;> first | rfl | cases hidle
  | imports m => cases m <;> first | rfl | cases hidle

/-- Every machine is offered the token once or twice. -/
theorem offers_offerAll (o : Owner) (t : TokenTree) (es : List Extractor) (h : Harvest) :
    (offerAll o t es h).1.length = es.length ∧
      h.metrics.offers + es.length ≤ (offerAll o t es h).2.1.metrics.offers ∧
        (offerAll o t es h).2.1.metrics.offers ≤ h.metrics.offers + 2 * es.length := by
  induction es generalizing h with
  | nil => exact ⟨rfl, le_rfl, le_rfl⟩
  | cons e es ih =>
      obtain ⟨hlength, hlow, hhigh⟩ := ih (e.offer o t h).2.1
      have hcounted := (offered_offer o t e h).counted
      have hcalls : (if isDue o t e then 2 else 1) = 1 ∨ (if isDue o t e then 2 else 1) = 2 := by
        split <;> simp
      have hrest : (offerAll o t (e :: es) h).2.1 = (offerAll o t es (e.offer o t h).2.1).2.1 := rfl
      refine ⟨congrArg (· + 1) hlength, ?_⟩
      rw [hrest, List.length_cons]
      omega

theorem offers_readAll (o : Owner) (es : List Extractor) (h : Harvest) (ts : List TokenTree) :
    h.metrics.offers + ts.length * es.length ≤ (readAll o es h ts).2.metrics.offers ∧
      (readAll o es h ts).2.metrics.offers ≤ h.metrics.offers + 2 * (ts.length * es.length) := by
  induction ts generalizing es h with
  | nil => simp [readAll]
  | cons t ts ih =>
      obtain ⟨hlength, hlow, hhigh⟩ := offers_offerAll o t es h
      have hread : (read o es h t).2.metrics.offers = (offerAll o t es h).2.1.metrics.offers := by
        simp only [read]
        split <;> rfl
      obtain ⟨ihlow, ihhigh⟩ := ih (read o es h t).1 (read o es h t).2
      have hmachines : (read o es h t).1.length = es.length := hlength
      rw [hmachines, hread] at ihlow ihhigh
      have hcons : readAll o es h (t :: ts) =
          readAll o (read o es h t).1 (read o es h t).2 ts := rfl
      rw [hcons, List.length_cons, Nat.succ_mul]
      omega

/-- The end of a run offers nothing. -/
theorem metrics_foldl_close (o : Owner) (es : List Extractor) (h : Harvest) :
    (es.foldl (close o) h).metrics = h.metrics := by
  induction es generalizing h with
  | nil => rfl
  | cons e es ih => exact (ih _).trans (metrics_deliver o h _)

/-- The tokens of a run are offered to each machine once or twice. -/
theorem offers_run (o : Owner) (es : List Extractor) (ts : List TokenTree) :
    ts.length * es.length ≤ (run o es ts).metrics.offers ∧
      (run o es ts).metrics.offers ≤ 2 * (ts.length * es.length) := by
  have hall := offers_readAll o es {} ts
  have hrun : (run o es ts).metrics = (readAll o es {} ts).2.metrics := metrics_foldl_close _ _ _
  rw [hrun]
  simpa using hall

/-- Offering a token at most twice is enough. -/
theorem offer_suffices (o : Owner) :
    (∀ e, Reachable o e → ∀ (t : TokenTree) (h : Harvest),
      (∃ n, (n = 1 ∨ n = 2) ∧ (e.offer o t h).2.1.metrics.offers = h.metrics.offers + n ∧
        ∀ m r, Offered o t m e h r ↔ m = n ∧ r = e.offer o t h) ∧
      (e.offer o t h).1.isComplete = false ∧ (e.offer o t h).1.isFailed = false ∧
      (e.isIdle = true → e = e.reset ∧
        ((e.accept o t).taken = true ∨ e.accept o t = .leave e))) ∧
    ∀ (es : List Extractor) (ts : List TokenTree),
      ts.length * es.length ≤ (run o es ts).metrics.offers ∧
        (run o es ts).metrics.offers ≤ 2 * ts.length * es.length := by
  refine ⟨fun e he t h => ?_, fun es ts => ?_⟩
  · have hoffer := offered_offer o t e h
    refine ⟨⟨_, ?_, hoffer.counted, fun m r => offered_iff⟩, hoffer.settled.1, hoffer.settled.2, ?_⟩
    · cases isDue o t e with
      | true => exact .inr rfl
      | false => exact .inl rfl
    · intro hidle
      have hreset := he.eq_reset hidle
      refine ⟨hreset, ?_⟩
      have haccept := accept_reset o e t
      rwa [← hreset] at haccept
  · rw [Nat.mul_assoc]
    exact offers_run o es ts

/-- The name behind an annotation without arguments ends the annotation, and is offered again. -/
theorem offer_suffices_annotation :
    let o : Owner := ⟨.java, []⟩
    let e := annotations (.arguments "A")
    let t := TokenTree.leaf ⟨.identifier, {}, "B"⟩
    Reachable o e ∧ (e.offer o t {}).2.1.annotations = [⟨"A", []⟩] ∧
      ∀ n r, Offered o t n e {} r ↔ n = 2 ∧ r = e.offer o t {} := by
  intro o e t
  let sign := TokenTree.leaf ⟨.separator, {}, "@"⟩
  let name := TokenTree.leaf ⟨.identifier, {}, "A"⟩
  have haccept : (annotations .idle).accept o sign = .take (annotations .name) := by
    have hat : sign.value.isSeparator "@" = true := by decide
    change Step.map annotations
      (if sign.value.isSeparator "@" then .take .name else .leave .idle) = _
    rw [if_pos hat]
    rfl
  have hsign := Offered.goes (h := {}) haccept rfl rfl
  have hname : Offered o name 1 (annotations .name) {} _ := .goes rfl rfl rfl
  have hreach : Reachable o e :=
    ((Reachable.fresh (by simp [fresh])).of_offered hsign).of_offered hname
  obtain ⟨r, htwice, hfound⟩ : ∃ r, Offered o t 2 e {} r ∧ r.2.1.annotations = [⟨"A", []⟩] :=
    ⟨_, .restarts rfl rfl rfl rfl (.goes rfl rfl rfl), rfl⟩
  obtain ⟨⟨n, -, -, hoffered⟩, -⟩ := (offer_suffices o).1 e hreach t {}
  obtain ⟨rfl, rfl⟩ := (hoffered 2 r).1 htwice
  exact ⟨hreach, hfound, hoffered⟩

end Extractor

end Outline
