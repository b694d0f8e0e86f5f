import Outline.Proofs.Member.LastToken
import Outline.Proofs.Written.Feeding

/-!
# Reading behind a run of tokens

What the machines read from a body with more tokens in front of it: each of them starts in the
state in which those tokens leave it, and the annotations and comments that wait then go to the
next member.  What has been read before is only added to.

* `Harvest.append` — what is read from one run of tokens and then from another one.
* `Extractor.run_append` — if the tokens in front leave all machines as they were and nothing
  waits, what is read from the body follows what is read from them.
* `Extractor.after` — a machine behind a run of tokens.
* `Extractor.AddedBy.run` — a body that the machines of one name pass through adds nothing to
  their part of the members.
-/

namespace Outline

/-! ## What is read in two runs -/

/-- The members of a body behind those of another one. -/
def Members.append (before members : Members) : Members where
  fields := before.fields ++ members.fields
  methods := before.methods ++ members.methods
  enumMembers := before.enumMembers ++ members.enumMembers
  imports := before.imports ++ members.imports

namespace Harvest

/-- What is read from one run of tokens and then from another one. -/
def append (k h : Harvest) : Harvest where
  annotations := k.annotations ++ h.annotations
  comments := k.comments ++ h.comments
  members := k.members.append h.members
  malformed := k.malformed ++ h.malformed
  metrics := k.metrics + h.metrics

instance : Append Harvest := ⟨append⟩

/-- Nothing waits for the next member. -/
structure Clear (h : Harvest) : Prop where
  /-- No annotation waits. -/
  annotations : h.annotations = []
  /-- No comment waits. -/
  comments : h.comments = []

instance (h : Harvest) : Decidable h.Clear :=
  decidable_of_iff (h.annotations.isEmpty && h.comments.isEmpty) <| by
    rw [Bool.and_eq_true, List.isEmpty_iff, List.isEmpty_iff]
    exact ⟨fun h => ⟨h.1, h.2⟩, fun h => ⟨h.1, h.2⟩⟩

variable {k : Harvest}

theorem append_empty (k : Harvest) : k ++ ({} : Harvest) = k := by
  show append k {} = k
  simp [append, Members.append]
  rfl

theorem countOffer_append (k h : Harvest) (malformed : List MalformedType) :
    (k ++ h).countOffer malformed = k ++ h.countOffer malformed := by
  show countOffer (append k h) malformed = append k (countOffer h malformed)
  simp only [countOffer, append, List.append_assoc]
  rfl

theorem countAbandoned_append (k h : Harvest) :
    (k ++ h).countAbandoned = k ++ h.countAbandoned := rfl

theorem dropPending_append (hk : k.Clear) (h : Harvest) :
    (k ++ h).dropPending = k ++ h.dropPending := by
  show dropPending (append k h) = append k (dropPending h)
  simp [dropPending, append, hk.annotations, hk.comments]

end Harvest

namespace Extractor

variable {o : Owner} {k : Harvest}

theorem deliver_append (hk : k.Clear) (h : Harvest) (e : Extractor) :
    e.deliver o (k ++ h) = k ++ e.deliver o h := by
  show e.deliver o (k.append h) = k.append (e.deliver o h)
  unfold deliver
  split <;>
    simp [Harvest.append, Members.append, Harvest.addField, Harvest.addMethod,
      Harvest.addEnumMember, Harvest.addImport, Harvest.dropPending, hk.annotations, hk.comments]

theorem offerUpTo_append (hk : k.Clear) (t : TokenTree) (again : Nat) (e : Extractor)
    (h : Harvest) : e.offerUpTo o t again (k ++ h) =
      ((e.offerUpTo o t again h).1, k ++ (e.offerUpTo o t again h).2.1,
        (e.offerUpTo o t again h).2.2) := by
  induction again generalizing e h with
  | zero =>
      unfold offerUpTo
      simp only [Harvest.countOffer_append, Harvest.countAbandoned_append, deliver_append hk]
      split
      · split
        · rfl
        · cases (e.accept o t).taken <;> rfl
      · split
        · cases (e.accept o t).taken <;> rfl
        · rfl
  | succ again ih =>
      unfold offerUpTo
      simp only [Harvest.countOffer_append, Harvest.countAbandoned_append, deliver_append hk]
      split
      · split
        · rfl
        · cases (e.accept o t).taken with
          | true => rfl
          | false => exact ih _ _
      · split
        · cases (e.accept o t).taken with
          | true => rfl
          | false => exact ih _ _
        · rfl

theorem offerAll_append (hk : k.Clear) (t : TokenTree) (es : List Extractor) (h : Harvest) :
    offerAll o t es (k ++ h) =
      ((offerAll o t es h).1, k ++ (offerAll o t es h).2.1, (offerAll o t es h).2.2) := by
  induction es generalizing h with
  | nil => rfl
  | cons e es ih => simp only [offerAll, offer, offerUpTo_append hk, ih]

theorem read_append (hk : k.Clear) (es : List Extractor) (h : Harvest) (t : TokenTree) :
    read o es (k ++ h) t = ((read o es h t).1, k ++ (read o es h t).2) := by
  simp only [read, offerAll_append hk]
  split
  · rw [Harvest.dropPending_append hk]
  · rfl

/-- Where nothing waits, what has been read does not change what is read. -/
theorem readAll_behind_clear (hk : k.Clear) (es : List Extractor) (h : Harvest)
    (ts : List TokenTree) :
    readAll o es (k ++ h) ts = ((readAll o es h ts).1, k ++ (readAll o es h ts).2) := by
  induction ts generalizing es h with
  | nil => rfl
  | cons t ts ih =>
      have hcons : ∀ h, readAll o es h (t :: ts) =
          readAll o (read o es h t).1 (read o es h t).2 ts := fun _ => rfl
      rw [hcons, hcons, read_append hk, ih]

/-- The end of the tokens is told to each machine. -/
theorem foldl_close_append (hk : k.Clear) (es : List Extractor) (h : Harvest) :
    es.foldl (close o) (k ++ h) = k ++ es.foldl (close o) h := by
  induction es generalizing h with
  | nil => rfl
  | cons e es ih => rw [List.foldl_cons, List.foldl_cons, close, deliver_append hk, ih, close]

/-- If the tokens in front leave all machines as they were and nothing waits, what is read from a
body comes behind what has been read. -/
theorem run_append {es : List Extractor} {ts : List TokenTree}
    (hes : (readAll o es {} ts).1 = es) (hclear : (readAll o es {} ts).2.Clear)
    (us : List TokenTree) : run o es (ts ++ us) = (readAll o es {} ts).2 ++ run o es us := by
  have hrest := readAll_behind_clear (o := o) hclear es {} us
  rw [Harvest.append_empty] at hrest
  rw [run, readAll_append, hes, hrest]
  exact foldl_close_append hclear _ _

/-! ## Machines behind a run of tokens -/

/-- A machine behind a run of tokens. -/
def after (o : Owner) (e : Extractor) (ts : List TokenTree) : Extractor :=
  ts.foldl (fun e t => (respond o t e).machine) e

theorem after_append (o : Owner) (e : Extractor) (ts us : List TokenTree) :
    after o e (ts ++ us) = after o (after o e ts) us :=
  List.foldl_append

theorem after_concat (o : Owner) (e : Extractor) (ts : List TokenTree) (t : TokenTree) :
    after o e (ts ++ [t]) = (respond o t (after o e ts)).machine :=
  after_append o e ts [t]

/-- Each machine reads on its own. -/
theorem readAll_after (o : Owner) (es : List Extractor) (h : Harvest) (ts : List TokenTree) :
    (readAll o es h ts).1 = es.map fun e => after o e ts := by
  induction ts generalizing es h with
  | nil => exact (List.map_id' es).symm
  | cons t ts ih =>
      have hcons : readAll o es h (t :: ts) =
          readAll o (read o es h t).1 (read o es h t).2 ts := rfl
      rw [hcons, ih, (read_respond o t es h).1, List.map_map]
      rfl

theorem after_of_feeds {e e' : Extractor} {ts : List TokenTree} {as : List Annotation}
    {cs : List String} (h : Feeds o e ts as cs e') : after o e ts = e' := by
  induction h with
  | nil e => rfl
  | cons hstep hended hrest ih =>
      rw [after, List.foldl_cons, hstep]
      exact ih

/-- What holds of a machine and is kept by each token holds behind all of them. -/
theorem after_induction {P : Extractor → Prop} (e : Extractor) (ts : List TokenTree) (he : P e)
    (hstep : ∀ t ∈ ts, ∀ e, P e → P (respond o t e).machine) : P (after o e ts) := by
  induction ts generalizing e with
  | nil => exact he
  | cons t ts ih =>
      exact ih _ (hstep t List.mem_cons_self e he) fun t ht => hstep t (List.mem_cons_of_mem _ ht)

/-- Behind a token a machine has neither ended nor given up. -/
theorem settled_respond (o : Owner) (t : TokenTree) (e : Extractor) :
    (respond o t e).machine.isComplete = false ∧ (respond o t e).machine.isFailed = false :=
  have h := Tracked.settled_offerUpTo o 0 t 1 ⟨e, []⟩
  ⟨h.notEnded, h.notFailed⟩

/-- What a machine reads never changes, and is what it ends. -/
theorem name_respond (o : Owner) (t : TokenTree) (e : Extractor) :
    (respond o t e).machine.name = e.name ∧ ∀ x ∈ (respond o t e).ended, x.name = e.name := by
  have h := Tracked.named_offer o 0 t ⟨e, []⟩ (by simp)
  refine ⟨h.machine, fun x hx => ?_⟩
  obtain ⟨i, hi, rfl⟩ := List.mem_map.1 hx
  exact (h.items i hi).1

theorem name_after (o : Owner) (e : Extractor) (ts : List TokenTree) :
    (after o e ts).name = e.name :=
  after_induction (P := fun e' => e'.name = e.name) e ts rfl
    fun t _ e' he' => (name_respond o t e').1.trans he'

/-! ## Bodies without members of a kind -/

/-- A part of the members to which only machines of the given name add. -/
def AddedBy (o : Owner) (name : String) {α : Type} (part : Members → α) : Prop :=
  ∀ (e : Extractor) (h : Harvest), e.name ≠ name → part (e.deliver o h).members = part h.members

theorem addedBy_methods (o : Owner) : AddedBy o "method" (·.methods) := by
  intro e h he
  unfold deliver
  split <;> first | rfl | exact absurd rfl he

theorem addedBy_enumMembers (o : Owner) : AddedBy o "enum member" (·.enumMembers) := by
  intro e h he
  unfold deliver
  split <;> first | rfl | exact absurd rfl he

variable {name : String} {α : Type} {part : Members → α}

theorem AddedBy.foldl_deliver (hpart : AddedBy o name part) {es : List Extractor}
    (hes : ∀ e ∈ es, e.name ≠ name) (h : Harvest) :
    part (es.foldl (deliver o) h).members = part h.members := by
  induction es generalizing h with
  | nil => rfl
  | cons e es ih =>
      rw [List.foldl_cons, ih (fun e he => hes e (List.mem_cons_of_mem _ he)),
        hpart e h (hes e List.mem_cons_self)]

/-- The machine has another name, or reads on through the tokens. -/
def AddsNone (o : Owner) (name : String) (ts : List TokenTree) (e : Extractor) : Prop :=
  e.name = name → ∃ e', Passes o e ts e' ∧ (e'.bodyEnd o).isComplete = false

theorem AddsNone.next {e : Extractor} {t : TokenTree} {ts : List TokenTree}
    (h : AddsNone o name (t :: ts) e) : AddsNone o name ts (respond o t e).machine := by
  intro hname
  obtain ⟨e', hpasses, hend⟩ := h ((name_respond o t e).1.symm.trans hname)
  obtain ⟨e₁, ended, taken, hstep, -, hrest⟩ := hpasses.first
  rw [hstep]
  exact ⟨e', hrest, hend⟩

theorem AddsNone.ended {e : Extractor} {t : TokenTree} {ts : List TokenTree}
    (he : AddsNone o name (t :: ts) e) (hpart : AddedBy o name part) (h : Harvest) :
    part ((respond o t e).ended.foldl (deliver o) h).members = part h.members := by
  by_cases hname : e.name = name
  · obtain ⟨e', hpasses, -⟩ := he hname
    obtain ⟨e₁, ended, taken, hstep, hended, -⟩ := hpasses.first
    rw [hstep, hended]
  · refine hpart.foldl_deliver (fun x hx => ?_) h
    rwa [(name_respond o t e).2 x hx]

theorem AddsNone.close {e : Extractor} (he : AddsNone o name [] e) (hpart : AddedBy o name part)
    (h : Harvest) : part (Extractor.close o h e).members = part h.members := by
  by_cases hname : e.name = name
  · obtain ⟨e', hpasses, hend⟩ := he hname
    cases hpasses
    rw [Extractor.close, deliver_of_not_complete o h hend]
  · refine hpart _ h ?_
    cases e <;> exact hname

theorem AddedBy.offers (hpart : AddedBy o name part) {es : List Extractor} {t : TokenTree}
    {ts : List TokenTree} (hes : ∀ e ∈ es, AddsNone o name (t :: ts) e) (h : Harvest) :
    part ((es.flatMap fun e => (respond o t e).ended).foldl (deliver o) h).members =
      part h.members := by
  induction es generalizing h with
  | nil => rfl
  | cons e es ih =>
      rw [List.flatMap_cons, List.foldl_append, ih fun e he => hes e (List.mem_cons_of_mem _ he),
        (hes e List.mem_cons_self).ended hpart]

theorem AddedBy.read (hpart : AddedBy o name part) {es : List Extractor} {t : TokenTree}
    {ts : List TokenTree} (hes : ∀ e ∈ es, AddsNone o name (t :: ts) e) (h : Harvest) :
    part (Extractor.read o es h t).2.members = part h.members := by
  have hbare := congrArg (fun h => part h.members) (read_respond o t es h).2
  refine hbare.trans ?_
  dsimp only
  split
  · exact hpart.offers hes h.bare
  · exact hpart.offers hes h.bare

theorem AddedBy.readAll (hpart : AddedBy o name part) {es : List Extractor}
    {ts : List TokenTree} (hes : ∀ e ∈ es, AddsNone o name ts e) (h : Harvest) :
    part (Extractor.readAll o es h ts).2.members = part h.members ∧
      ∀ e ∈ (Extractor.readAll o es h ts).1, AddsNone o name [] e := by
  induction ts generalizing es h with
  | nil => exact ⟨rfl, hes⟩
  | cons t ts ih =>
      have hnext : ∀ e ∈ (Extractor.read o es h t).1, AddsNone o name ts e := by
        rw [(read_respond o t es h).1]
        intro e he
        obtain ⟨e', he', rfl⟩ := List.mem_map.1 he
        exact (hes e' he').next
      obtain ⟨hsame, hends⟩ := ih hnext (Extractor.read o es h t).2
      exact ⟨hsame.trans (hpart.read hes h), hends⟩

theorem AddedBy.foldl_close (hpart : AddedBy o name part) {es : List Extractor}
    (hes : ∀ e ∈ es, AddsNone o name [] e) (h : Harvest) :
    part (es.foldl (Extractor.close o) h).members = part h.members := by
  induction es generalizing h with
  | nil => rfl
  | cons e es ih =>
      rw [List.foldl_cons, ih fun e he => hes e (List.mem_cons_of_mem _ he),
        (hes e List.mem_cons_self).close hpart]

/-- If the machines of the given name only read on, a body adds nothing to their part. -/
theorem AddedBy.run (hpart : AddedBy o name part) {es : List Extractor} {ts us : List TokenTree}
    (hes : ∀ e ∈ es, AddsNone o name us (after o e ts)) :
    part (Extractor.run o es (ts ++ us)).members =
      part (Extractor.readAll o es {} ts).2.members := by
  have hstart : ∀ e ∈ (Extractor.readAll o es {} ts).1, AddsNone o name us e := by
    rw [readAll_after]
    intro e he
    obtain ⟨e', he', rfl⟩ := List.mem_map.1 he
    exact hes e' he'
  obtain ⟨hsame, hends⟩ := hpart.readAll hstart (Extractor.readAll o es {} ts).2
  unfold Extractor.run
  simp only [readAll_append]
  rw [hpart.foldl_close hends, hsame]

end Extractor

end Outline
