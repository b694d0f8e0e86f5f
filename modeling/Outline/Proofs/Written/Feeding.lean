import Outline.Proofs.Member.Offers

/-!
# Feeding tokens to machines

What a single machine makes of a run of tokens does not depend on the other machines.  A run in
which no member ends only makes annotations and comments wait.

* `Extractor.respond` — what an offer makes of a machine, without what has been read before.
* `Extractor.Feeds` — what a run of tokens in which no member ends makes of a machine.
* `Extractor.readAll_feeds` — such a run, fed to the machines that read members.
-/

namespace Outline

namespace Harvest

/-- Makes annotations and comments wait. -/
def wait (h : Harvest) (annotations : List Annotation) (comments : List String) : Harvest :=
  { h with annotations := h.annotations ++ annotations, comments := h.comments ++ comments }

@[simp] theorem wait_nil (h : Harvest) : h.wait [] [] = h := by
  simp [wait]

@[simp] theorem wait_wait (h : Harvest) (as as' : List Annotation) (cs cs' : List String) :
    (h.wait as cs).wait as' cs' = h.wait (as ++ as') (cs ++ cs') := by
  simp [wait]

@[simp] theorem bare_wait (h : Harvest) (as : List Annotation) (cs : List String) :
    (h.wait as cs).bare = h.bare.wait as cs := rfl

end Harvest

namespace Extractor

/-! ## What an offer makes of a machine -/

/-- What an offer makes of a machine. -/
structure Response where
  /-- The machine. -/
  machine : Extractor
  /-- The machines at the ends of the items that end. -/
  ended : List Extractor
  /-- Whether the token is used up. -/
  taken : Bool

/-- Offers a token to a machine, at most twice. -/
def respond (o : Owner) (t : TokenTree) (e : Extractor) : Response :=
  let r := (⟨e, []⟩ : Tracked).offer o 0 t
  ⟨r.1.machine, r.2.1.map (·.machine), r.2.2⟩

variable {o : Owner} {t : TokenTree} {e : Extractor} {s : Step Extractor}

theorem respond_of_going (hs : e.accept o t = s) (hf : s.state.isFailed = false)
    (hc : s.state.isComplete = false) : respond o t e = ⟨s.state, [], s.taken⟩ := by
  simp only [respond, Tracked.offer_of_going (w := ⟨e, []⟩) hs hf hc]
  rfl

theorem respond_of_taken_failed (hs : e.accept o t = s) (hf : s.state.isFailed = true)
    (ht : s.taken = true) : respond o t e = ⟨s.state.reset, [], true⟩ := by
  simp only [respond, Tracked.offer_of_taken_failed (w := ⟨e, []⟩) hs hf ht]
  rfl

theorem respond_of_taken_complete (hs : e.accept o t = s) (hf : s.state.isFailed = false)
    (hc : s.state.isComplete = true) (ht : s.taken = true) :
    respond o t e = ⟨s.state.reset, [s.state], true⟩ := by
  simp only [respond, Tracked.offer_of_taken_complete (w := ⟨e, []⟩) hs hf hc ht]
  rfl

/-- A machine that is idle and does not end an item is not offered a token twice. -/
theorem offerUpTo_idle (hidle : e.isIdle = true)
    (hc : (e.accept o t).state.isComplete = false) :
    Tracked.offerUpTo o 0 t 0 ⟨e, []⟩ = Tracked.offer o 0 t ⟨e, []⟩ := by
  rw [Tracked.offer, Tracked.offerUpTo_eq, Tracked.offerUpTo_eq]
  simp [hidle, hc]

/-- A machine that gives up is offered the token again from its idle state. -/
theorem respond_of_left_failed (hs : e.accept o t = s) (hf : s.state.isFailed = true)
    (ht : s.taken = false) (hbusy : e.isIdle = false) (hidle : s.state.reset.isIdle = true)
    (hc : (s.state.reset.accept o t).state.isComplete = false) :
    respond o t e = respond o t s.state.reset := by
  subst hs
  have hrest := offerUpTo_idle hidle hc
  unfold respond
  rw [← hrest, Tracked.offer, Tracked.offerUpTo_eq]
  simp [hf, ht, hbusy]

/-- So is a machine that ends its item without the token. -/
theorem respond_of_left_complete (hs : e.accept o t = s) (hf : s.state.isFailed = false)
    (hend : s.state.isComplete = true) (ht : s.taken = false)
    (hidle : s.state.reset.isIdle = true)
    (hc : (s.state.reset.accept o t).state.isComplete = false) :
    respond o t e = { respond o t s.state.reset with
      ended := s.state :: (respond o t s.state.reset).ended } := by
  subst hs
  have hrest := offerUpTo_idle hidle hc
  unfold respond
  rw [← hrest, Tracked.offer, Tracked.offerUpTo_eq]
  simp [hf, hend, ht]

/-- A machine that makes the same of a token as the idle one responds like it. -/
theorem respond_congr {idle : Extractor} (h : e.accept o t = idle.accept o t)
    (hidle : idle.isIdle = true) (hreset : (idle.accept o t).state.reset = idle)
    (hc : (idle.accept o t).state.isComplete = false) :
    respond o t e = respond o t idle := by
  cases hf : (idle.accept o t).state.isFailed with
  | false => rw [respond_of_going h hf hc, respond_of_going rfl hf hc]
  | true =>
      cases ht : (idle.accept o t).taken with
      | true => rw [respond_of_taken_failed h hf ht, respond_of_taken_failed rfl hf ht]
      | false =>
          cases hbusy : e.isIdle with
          | false =>
              have hagain := respond_of_left_failed h hf ht hbusy (by rw [hreset]; exact hidle)
                (by rw [hreset]; exact hc)
              rwa [hreset] at hagain
          | true =>
              unfold respond
              rw [Tracked.offer, Tracked.offer, Tracked.offerUpTo_eq, Tracked.offerUpTo_eq]
              simp [h, hf, ht, hbusy, hidle]

/-! ## Several machines -/

theorem foldl_deliver_eq (o : Owner) (h : Harvest) (items : List Item) :
    deliverAll o h items = (items.map (·.machine)).foldl (deliver o) h := by
  rw [deliverAll, List.foldl_map]

/-- Each machine responds on its own. -/
theorem offerAll_respond (o : Owner) (t : TokenTree) (es : List Extractor) (h : Harvest) :
    (offerAll o t es h).1 = es.map (fun e => (respond o t e).machine) ∧
      (offerAll o t es h).2.1.bare =
        (es.flatMap fun e => (respond o t e).ended).foldl (deliver o) h.bare ∧
      (offerAll o t es h).2.2 = es.any fun e => (respond o t e).taken := by
  induction es generalizing h with
  | nil => exact ⟨rfl, rfl, rfl⟩
  | cons e es ih =>
      obtain ⟨hmachine, hended, htaken⟩ := offerUpTo_eq_tracked o 0 t 1 ⟨e, []⟩ h
      obtain ⟨ihmachine, ihended, ihtaken⟩ := ih (e.offer o t h).2.1
      simp only [offerAll, List.map_cons, List.flatMap_cons, List.any_cons, List.foldl_append]
      refine ⟨?_, ?_, ?_⟩
      · rw [ihmachine]
        congr 1
      · rw [ihended]
        congr 1
        exact hended.trans (foldl_deliver_eq o _ _)
      · rw [ihtaken]
        congr 1

/-- What a token makes of several machines and of what has been read. -/
theorem read_respond (o : Owner) (t : TokenTree) (es : List Extractor) (h : Harvest) :
    (read o es h t).1 = es.map (fun e => (respond o t e).machine) ∧
      (read o es h t).2.bare =
        let next := (es.flatMap fun e => (respond o t e).ended).foldl (deliver o) h.bare
        if !(es.any fun e => (respond o t e).taken) && t.value.isBlock '\x7b' then
          next.dropPending
        else next := by
  obtain ⟨hmachine, hended, htaken⟩ := offerAll_respond o t es h
  refine ⟨hmachine, ?_⟩
  simp only [read]
  rw [htaken]
  split
  · rw [Harvest.bare_dropPending, hended]
  · exact hended

/-- A run of tokens is read part by part. -/
theorem readAll_append (es : List Extractor) (h : Harvest) (ts us : List TokenTree) :
    readAll o es h (ts ++ us) = readAll o (readAll o es h ts).1 (readAll o es h ts).2 us := by
  rw [readAll, List.foldl_append]
  rfl

/-! ## Runs in which no member ends -/

/-- What a run of tokens in which no member ends makes of a machine, with the annotations and
comments that it reads. -/
inductive Feeds (o : Owner) :
    Extractor → List TokenTree → List Annotation → List String → Extractor → Prop where
  /-- There is no token. -/
  | nil (e : Extractor) : Feeds o e [] [] [] e
  /-- A token in front of others. -/
  | cons {e e' last : Extractor} {t : TokenTree} {ts : List TokenTree} {ended : List Extractor}
      {taken : Bool} {as as' : List Annotation} {cs cs' : List String}
      (hstep : respond o t e = ⟨e', ended, taken⟩)
      (hended : ∀ h, ended.foldl (deliver o) h = h.wait as cs)
      (hrest : Feeds o e' ts as' cs' last) : Feeds o e (t :: ts) (as ++ as') (cs ++ cs') last

/-- A run of tokens that a machine reads without ending anything. -/
abbrev Passes (o : Owner) (e : Extractor) (ts : List TokenTree) (e' : Extractor) : Prop :=
  Feeds o e ts [] [] e'

namespace Feeds

variable {e' last : Extractor} {ts us : List TokenTree} {as as' : List Annotation}
  {cs cs' : List String}

theorem append (h : Feeds o e ts as cs e') (h' : Feeds o e' us as' cs' last) :
    Feeds o e (ts ++ us) (as ++ as') (cs ++ cs') last := by
  induction h with
  | nil e => exact h'
  | cons hstep hended hrest ih =>
      rw [List.append_assoc, List.append_assoc]
      exact .cons hstep hended (ih h')

end Feeds

namespace Passes

variable {e' last : Extractor} {ts us : List TokenTree} {taken : Bool}

theorem cons (hstep : respond o t e = ⟨e', [], taken⟩) (hrest : Passes o e' ts last) :
    Passes o e (t :: ts) last :=
  Feeds.cons hstep (fun h => (Harvest.wait_nil h).symm) hrest

theorem one (hstep : respond o t e = ⟨e', [], taken⟩) : Passes o e [t] e' :=
  cons hstep (.nil e')

theorem append (h : Passes o e ts e') (h' : Passes o e' us last) : Passes o e (ts ++ us) last :=
  Feeds.append h h'

end Passes

/-- The first token of a run. -/
theorem Feeds.first {last : Extractor} {ts : List TokenTree} {as : List Annotation}
    {cs : List String} (h : Feeds o e (t :: ts) as cs last) :
    ∃ e' ended taken as₁ as₂ cs₁ cs₂, respond o t e = ⟨e', ended, taken⟩ ∧
      (∀ h, ended.foldl (deliver o) h = h.wait as₁ cs₁) ∧ Feeds o e' ts as₂ cs₂ last ∧
        as = as₁ ++ as₂ ∧ cs = cs₁ ++ cs₂ := by
  cases h with
  | cons hstep hended hrest => exact ⟨_, _, _, _, _, _, _, hstep, hended, hrest, rfl, rfl⟩

theorem Passes.first {last : Extractor} {ts : List TokenTree} (h : Passes o e (t :: ts) last) :
    ∃ e' ended taken, respond o t e = ⟨e', ended, taken⟩ ∧
      (∀ h, ended.foldl (deliver o) h = h) ∧ Passes o e' ts last := by
  obtain ⟨e', ended, taken, as₁, as₂, cs₁, cs₂, hstep, hended, hrest, has, hcs⟩ := Feeds.first h
  obtain ⟨rfl, rfl⟩ := List.append_eq_nil_iff.1 has.symm
  obtain ⟨rfl, rfl⟩ := List.append_eq_nil_iff.1 hcs.symm
  exact ⟨e', ended, taken, hstep, fun h => (hended h).trans (Harvest.wait_nil h), hrest⟩

/-- A run in which only the third machine reads annotations and only the last one comments. -/
theorem readAll_feeds {f f' m m' a a' c c' : Extractor} {ts : List TokenTree}
    {as : List Annotation} {cs : List String} (hf : Passes o f ts f') (hm : Passes o m ts m')
    (ha : Feeds o a ts as [] a') (hc : Feeds o c ts [] cs c')
    (hbrace : ∀ t ∈ ts, t.value.isBlock '\x7b' = false) (h : Harvest) :
    (readAll o [f, m, a, c] h ts).1 = [f', m', a', c'] ∧
      (readAll o [f, m, a, c] h ts).2.bare = h.bare.wait as cs := by
  induction ts generalizing f m a c as cs h with
  | nil =>
      cases hf
      cases hm
      cases ha
      cases hc
      exact ⟨rfl, (Harvest.wait_nil h.bare).symm⟩
  | cons t ts ih =>
      obtain ⟨f₁, fended, ft, hfstep, hfended, hf⟩ := hf.first
      obtain ⟨m₁, mended, mt, hmstep, hmended, hm⟩ := hm.first
      obtain ⟨a₁, aended, at₁, as₁, as₂, _, _, hastep, haended, ha, rfl, hnil⟩ := ha.first
      obtain ⟨c₁, cended, ct, _, _, cs₁, cs₂, hcstep, hcended, hc, hnil', rfl⟩ := hc.first
      obtain ⟨rfl, rfl⟩ := List.append_eq_nil_iff.1 hnil.symm
      obtain ⟨rfl, rfl⟩ := List.append_eq_nil_iff.1 hnil'.symm
      obtain ⟨hmachines, hharvest⟩ := read_respond o t [f, m, a, c] h
      simp only [List.map_cons, List.map_nil, hfstep, hmstep, hastep, hcstep] at hmachines
      simp only [List.flatMap_cons, List.flatMap_nil, hfstep, hmstep, hastep, hcstep,
        List.foldl_append, List.foldl_nil, hfended, hmended, haended, hcended,
        hbrace t List.mem_cons_self, Bool.and_false, Bool.false_eq_true, if_false] at hharvest
      obtain ⟨ihmachines, ihharvest⟩ := ih hf hm ha hc
        (fun t ht => hbrace t (List.mem_cons_of_mem _ ht)) (read o [f, m, a, c] h t).2
      have hcons : readAll o [f, m, a, c] h (t :: ts) =
          readAll o (read o [f, m, a, c] h t).1 (read o [f, m, a, c] h t).2 ts := rfl
      rw [hcons, hmachines]
      refine ⟨ihmachines, ?_⟩
      rw [ihharvest, hharvest, Harvest.wait_wait, Harvest.wait_wait, List.nil_append,
        List.nil_append]

end Extractor

end Outline
