import Outline.Proofs.Member.Disjoint
import Outline.Proofs.Member.EnumMemberOffer

/-!
# The last token of a member

A machine that reads a member uses every token that is no comment, or it starts anew.  So only
comments stand between the last token of a member and the token, if any, that ends the member
without being used.

* `Ready.readsOn` — what an offer of a token that is no comment makes of a machine.
* `Poised.step` — one token keeps the machines between tokens, and members end in time.
-/

namespace Outline

namespace Extractor

/-! ## Offers -/

namespace Tracked

/-- An offer leaves a machine that has neither ended nor given up, and items that have ended. -/
structure Settled (r : Tracked × List Item × Bool) : Prop where
  /-- The machine has not ended. -/
  notEnded : r.1.machine.isComplete = false
  /-- The machine has not given up. -/
  notFailed : r.1.machine.isFailed = false
  /-- The items have ended. -/
  items : ∀ i ∈ r.2.1, i.machine.isComplete = true

theorem settled_reset (e : Extractor) (taken : Bool) {items : List Item}
    (h : ∀ i ∈ items, i.machine.isComplete = true) :
    Settled (⟨e.reset, []⟩, items, taken) := by
  cases e <;> exact ⟨rfl, rfl, h⟩

theorem settled_offerUpTo (o : Owner) (p : Nat) (t : TokenTree) (again : Nat) (w : Tracked) :
    Settled (w.offerUpTo o p t again) := by
  refine offerUpTo_induction (P := fun _ r => Settled r) ?_ ?_ ?_ ?_ ?_ again w
  · exact fun w hf hc => ⟨hc, hf, by simp⟩
  · exact fun w => settled_reset _ _ (by simp)
  · intro w hc
    refine settled_reset _ _ fun i hi => ?_
    rw [List.mem_singleton.1 hi]
    exact hc
  · exact fun _ _ hr => hr
  · intro w r hc hr
    refine ⟨hr.notEnded, hr.notFailed, fun i hi => ?_⟩
    rcases List.mem_cons.1 hi with rfl | hi
    · exact hc
    · exact hr.items i hi

end Tracked

/-- What holds of a machine that reads members and waits for a token. -/
def Waits (l : Language) : Extractor → Prop
  | field m => m.stage.Waits l
  | method m => m.stage.Waits l
  | enumMember m => m.Waits l
  | annotations _ | comment _ | imports _ => True

/-- What holds of a machine between two tokens. -/
structure Ready (l : Language) (e : Extractor) : Prop where
  /-- It has not ended. -/
  notEnded : e.isComplete = false
  /-- It has not given up. -/
  notFailed : e.isFailed = false
  /-- If it reads members, it waits for a token. -/
  waits : e.Waits l

/-- There is a comment at the place. -/
def CommentAt (body : List TokenTree) (p : Nat) : Prop := ∃ t, body[p]? = some t ∧ t.kind = .comment

/-- From one of the tokens, which is no comment, up to the place `p` there are only comments. -/
def Recent (body : List TokenTree) (p : Nat) (uses : List Use) : Prop :=
  ∃ u ∈ uses, u.place < p ∧ ¬ CommentAt body u.place ∧
    ∀ q, u.place < q → q < p → CommentAt body q

theorem Recent.step {body : List TokenTree} {p : Nat} {uses : List Use} (h : Recent body p uses)
    (hp : CommentAt body p) : Recent body (p + 1) uses := by
  obtain ⟨u, hu, hup, hnot, hbetween⟩ := h
  refine ⟨u, hu, by omega, hnot, ?_⟩
  intro q hq hqp
  by_cases hlast : q = p
  · rw [hlast]
    exact hp
  · exact hbetween q hq (by omega)

theorem recent_of_place {body : List TokenTree} {p : Nat} {uses : List Use}
    (h : ∃ u ∈ uses, u.place = p) (hp : ¬ CommentAt body p) : Recent body (p + 1) uses := by
  obtain ⟨u, hu, rfl⟩ := h
  refine ⟨u, hu, by omega, hp, ?_⟩
  intro q hq hqp
  omega

/-- A member that ends with the token at the place `p`, or in front of it and behind its own last
token. -/
def Item.Timely (body : List TokenTree) (p : Nat) (i : Item) : Prop :=
  (p ∈ i.places ∧ i.early = false) ∨
    i.early = true ∧ Recent body p i.uses ∧ ∀ u ∈ i.uses, u.place < p

/-- What holds of a machine with its tokens in front of the place `p`. -/
structure Poised (l : Language) (body : List TokenTree) (p : Nat) (w : Tracked) : Prop where
  /-- The machine stands between two tokens. -/
  ready : w.machine.Ready l
  /-- It has used its tokens itself, all of them before the place. -/
  steady : w.Steady p
  /-- Since the last token of a member there are only comments. -/
  recent : w.machine.readsMembers = true → w.machine.isIdle = false → Recent body p w.uses

/-- What an offer of a token that is no comment makes of a machine that reads members: the token is
the last one of what is read, or nothing is read, and a member ends with it or in front of it. -/
structure ReadsOn (l : Language) (p : Nat) (w : Tracked) (r : Tracked × List Item × Bool) :
    Prop where
  /-- The machine waits for a token. -/
  waits : r.1.machine.Waits l
  /-- What is read goes on with the token. -/
  last : r.1.machine.isIdle = true ∨ ∃ u ∈ r.1.uses, u.place = p
  /-- A member ends with the token or in front of it. -/
  items : ∀ i ∈ r.2.1, ((∃ u ∈ i.uses, u.place = p) ∧ i.early = false) ∨
    i.early = true ∧ i.uses = w.uses ∧ w.machine.isIdle = false

theorem mem_last {p : Nat} (e : Extractor) (uses : List Use) :
    ∃ u ∈ uses ++ [⟨p, e⟩], u.place = p :=
  ⟨⟨p, e⟩, List.mem_append_right _ List.mem_cons_self, rfl⟩

variable {o : Owner} {p : Nat} {t : TokenTree}

theorem readsOn_field {f : FieldMachine} (uses : List Use) (hw : f.stage.Waits o.language)
    (ht : t.kind ≠ .comment) :
    ReadsOn o.language p ⟨.field f, uses⟩ ((⟨.field f, uses⟩ : Tracked).offer o p t) := by
  obtain ⟨f', uses', hw', hoffer⟩ := fieldOffer_of_offer p uses hw ht
  refine ⟨?_, ?_, ?_⟩
  · rw [hw']
    exact hoffer.waits
  · rw [hw']
    rcases hoffer.last with ⟨rfl, -⟩ | ⟨f₀, front, rfl, -⟩
    · exact Or.inl rfl
    · exact Or.inr (mem_last _ _)
  · intro i hi
    generalize ((⟨.field f, uses⟩ : Tracked).offer o p t).2.1 = items at hoffer hi
    cases hoffer with
    | ends =>
        rw [List.mem_singleton.1 hi]
        exact Or.inl ⟨mem_last _ _, rfl⟩
    | early hm =>
        rw [List.mem_singleton.1 hi]
        refine Or.inr ⟨rfl, rfl, ?_⟩
        show f.isIdle = false
        rw [Bool.eq_false_iff]
        intro hidle
        exact hm _ _ (FieldMachine.eq_idle_of_isIdle hidle)
    | _ => exact absurd hi List.not_mem_nil

theorem readsOn_method {m : MethodMachine} (uses : List Use) (hw : m.stage.Waits o.language)
    (ht : t.kind ≠ .comment) :
    ReadsOn o.language p ⟨.method m, uses⟩ ((⟨.method m, uses⟩ : Tracked).offer o p t) := by
  obtain ⟨m', uses', hw', hoffer⟩ := methodOffer_of_offer p uses hw ht
  refine ⟨?_, ?_, ?_⟩
  · rw [hw']
    exact hoffer.waits
  · rw [hw']
    rcases hoffer.last with ⟨hidle, -⟩ | ⟨m₀, front, rfl, -⟩
    · exact Or.inl hidle
    · exact Or.inr (mem_last _ _)
  · intro i hi
    generalize ((⟨.method m, uses⟩ : Tracked).offer o p t).2.1 = items at hoffer hi
    cases hoffer with
    | ends =>
        rw [List.mem_singleton.1 hi]
        exact Or.inl ⟨mem_last _ _, rfl⟩
    | early hm =>
        rw [List.mem_singleton.1 hi]
        refine Or.inr ⟨rfl, rfl, ?_⟩
        show m.isIdle = false
        rw [Bool.eq_false_iff]
        intro hidle
        rw [MethodMachine.stage_of_isIdle hidle] at hm
        exact absurd hm (by decide)
    | _ => exact absurd hi List.not_mem_nil

theorem readsOn_enumMember {m : EnumMemberMachine} (uses : List Use) (hw : m.Waits o.language)
    (ht : t.kind ≠ .comment) :
    ReadsOn o.language p ⟨.enumMember m, uses⟩
      ((⟨.enumMember m, uses⟩ : Tracked).offer o p t) := by
  obtain ⟨m', uses', hw', hoffer⟩ := enumMemberOffer_of_offer p uses hw ht
  refine ⟨?_, ?_, ?_⟩
  · rw [hw']
    exact hoffer.waits
  · rw [hw']
    generalize ((⟨.enumMember m, uses⟩ : Tracked).offer o p t).2.1 = items at hoffer
    cases hoffer with
    | idles => exact Or.inl rfl
    | starts => exact Or.inr ⟨_, List.mem_cons_self, rfl⟩
    | goes => exact Or.inr (mem_last _ _)
    | ends => exact Or.inl rfl
  · intro i hi
    generalize ((⟨.enumMember m, uses⟩ : Tracked).offer o p t).2.1 = items at hoffer hi
    cases hoffer with
    | ends =>
        rw [List.mem_singleton.1 hi]
        exact Or.inl ⟨mem_last _ _, rfl⟩
    | _ => exact absurd hi List.not_mem_nil

theorem Ready.readsOn {e : Extractor} (h : e.Ready o.language) (he : e.readsMembers = true)
    (uses : List Use) (ht : t.kind ≠ .comment) :
    ReadsOn o.language p ⟨e, uses⟩ ((⟨e, uses⟩ : Tracked).offer o p t) := by
  cases e with
  | field m => exact readsOn_field uses h.waits ht
  | method m => exact readsOn_method uses h.waits ht
  | enumMember m => exact readsOn_enumMember uses h.waits ht
  | _ => exact absurd he Bool.false_ne_true

/-! ## One token -/

theorem commentAt_iff {body : List TokenTree} (hp : body[p]? = some t) :
    CommentAt body p ↔ t.kind = .comment := by
  constructor
  · rintro ⟨t', ht', hkind⟩
    rw [hp] at ht'
    rwa [Option.some.inj ht']
  · intro hkind
    exact ⟨t, hp, hkind⟩

theorem waits_of_not_readsMembers {l : Language} {e : Extractor} (h : e.readsMembers = false) :
    e.Waits l := by
  cases e <;> first | exact trivial | exact absurd h (by simp [readsMembers])

variable {body : List TokenTree} {w : Tracked}

/-- One token leaves a machine between two tokens, and a member that ends does so in time. -/
theorem Poised.step (h : Poised o.language body p w) (hp : body[p]? = some t) :
    Poised o.language body (p + 1) (w.offer o p t).1 ∧
      ∀ i ∈ w.ended o p t, ¬ CommentAt body p ∧ i.Timely body p := by
  have hsettled := Tracked.settled_offerUpTo o p t 1 w
  have hnamed := Tracked.named_offer o p t w h.steady.named
  have hreads := readsMembers_of_name hnamed.machine
  cases hmember : w.machine.readsMembers with
  | false =>
      rw [hmember] at hreads
      refine ⟨⟨⟨hsettled.notEnded, hsettled.notFailed, waits_of_not_readsMembers hreads⟩,
        h.steady.step, ?_⟩, ?_⟩
      · intro htrue
        rw [hreads] at htrue
        exact absurd htrue Bool.false_ne_true
      · intro i hi
        obtain ⟨hi, htrue⟩ := Tracked.mem_ended.1 hi
        rw [Item.isMember_eq, readsMembers_of_name (hnamed.items i hi).1, hmember] at htrue
        exact absurd htrue Bool.false_ne_true
  | true =>
      obtain ⟨e, uses⟩ := w
      by_cases ht : t.kind = .comment
      · have hoffer := Tracked.offer_comment (o := o) p uses hmember ht h.ready.notFailed
          h.ready.notEnded
        refine ⟨⟨⟨hsettled.notEnded, hsettled.notFailed, ?_⟩, h.steady.step, ?_⟩, ?_⟩
        · rw [hoffer]
          exact h.ready.waits
        · rw [hoffer]
          intro _ hidle
          have hidle : e.isIdle = false := hidle
          have huses : (Tracked.going e uses).uses = uses := by
            rw [Tracked.going, hidle]
            rfl
          show Recent body (p + 1) (Tracked.going e uses).uses
          rw [huses]
          exact (h.recent hmember hidle).step ((commentAt_iff hp).2 ht)
        · intro i hi
          rw [Tracked.mem_ended, hoffer] at hi
          exact absurd hi.1 List.not_mem_nil
      · have hnot : ¬ CommentAt body p := fun hc => ht ((commentAt_iff hp).1 hc)
        have hreadsOn := h.ready.readsOn (p := p) hmember uses ht
        refine ⟨⟨⟨hsettled.notEnded, hsettled.notFailed, hreadsOn.waits⟩, h.steady.step, ?_⟩, ?_⟩
        · intro _ hidle
          refine recent_of_place (hreadsOn.last.resolve_left ?_) hnot
          rw [hidle]
          exact Bool.false_ne_true
        · intro i hi
          refine ⟨hnot, ?_⟩
          rcases hreadsOn.items i (Tracked.mem_ended.1 hi).1 with ⟨hplace, hearly⟩ |
            ⟨hearly, huses, hidle⟩
          · exact Or.inl ⟨Item.mem_places.2 hplace, hearly⟩
          · refine Or.inr ⟨hearly, ?_, ?_⟩
            · rw [huses]
              exact h.recent hmember hidle
            · rw [huses]
              exact h.steady.below

end Extractor

end Outline
