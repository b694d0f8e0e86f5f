import Outline.Proofs.Member.LastToken

/-!
# Which comments a member takes

Comments wait for the next member that ends.  A member that is ended by the token behind it, or by
the end of the tokens, also takes the comments behind its last token.

* `Members.attached` — the members of a body with the places of the comments that they take.
* `Members.inTime_iff` — these are the comments of the members, and exactly when every comment
  stands in front of the end of its member.
-/

namespace Outline

namespace Extractor

/-! ## Members with their comments -/

/-- A member with the places of the comments that it takes. -/
structure Attached where
  /-- The member. -/
  item : Item
  /-- The places of its comments. -/
  comments : List Nat

/-- The comments that wait, and the members that have taken theirs. -/
structure Attaching where
  /-- The places of the comments that wait for the next member. -/
  waiting : List Nat := []
  /-- The members with their comments. -/
  taken : List Attached := []

/-- Every comment of the member stands in front of one of its tokens. -/
def Attached.InTime (x : Attached) : Prop := ∀ r ∈ x.comments, ∃ q ∈ x.item.places, r < q

/-- What an event does to the comments that wait. -/
def attach (a : Attaching) : Event → Attaching
  | .ended i =>
    match i.machine with
    | field _ | method _ | enumMember _ => ⟨[], a.taken ++ [⟨i, a.waiting⟩]⟩
    | comment _ => { a with waiting := a.waiting ++ [i.stop] }
    | annotations _ | imports _ => a
  | .dropped => { a with waiting := [] }

variable {a : Attaching} {i : Item}

theorem attach_member (a : Attaching) (h : i.isMember = true) :
    attach a (.ended i) = ⟨[], a.taken ++ [⟨i, a.waiting⟩]⟩ := by
  rw [Item.isMember] at h
  rw [attach]
  split at h <;> simp_all

theorem attach_comment (a : Attaching) {s : Option String} (h : i.machine = comment s) :
    attach a (.ended i) = { a with waiting := a.waiting ++ [i.stop] } := by
  rw [attach, h]

theorem attach_other (a : Attaching) (h : i.isMember = false) (hc : i.machine.name ≠ "comment") :
    attach a (.ended i) = a := by
  rw [Item.isMember] at h
  rw [attach]
  split
  · rename_i hm
    simp [hm] at h
  · rename_i hm
    simp [hm] at h
  · rename_i hm
    simp [hm] at h
  · rename_i hm
    exact absurd (by rw [hm]; rfl) hc
  · rfl
  · rfl

/-- The members take their comments in the order in which they end. -/
theorem items_foldl_attach (events : List Event) (a : Attaching) :
    (events.foldl attach a).taken.map (·.item) = a.taken.map (·.item) ++ members events := by
  induction events generalizing a with
  | nil => exact (List.append_nil _).symm
  | cons x events ih =>
      rw [List.foldl_cons, ih]
      cases x with
      | dropped => rfl
      | ended i =>
          cases hmember : i.isMember with
          | true =>
              rw [attach_member a hmember]
              simp [members, Event.member?, hmember]
          | false =>
              have htaken : (attach a (.ended i)).taken = a.taken := by
                rw [Item.isMember] at hmember
                rw [attach]
                split <;> simp_all
              rw [htaken]
              simp [members, Event.member?, hmember]

/-! ## Comments behind the last token -/

/-- The member ends in front of a token, or with the end of the tokens, as the first one there, and
the token before is a comment. -/
def Trails (body : List TokenTree) (front : List Item) (i : Item) : Prop :=
  i.early = true ∧ (∀ j ∈ front, j.stop ≠ i.stop) ∧ ∃ q, q + 1 = i.stop ∧ CommentAt body q

/-- The members that have taken comments behind their last token are those that trail. -/
def Sound (body : List TokenTree) (taken : List Attached) : Prop :=
  ∀ front x back, taken = front ++ x :: back →
    (x.InTime ↔ ¬ Trails body (front.map (·.item)) x.item)

theorem sound_nil (body : List TokenTree) : Sound body [] := by
  intro front x back h
  exact absurd h.symm (by simp)

theorem Sound.append {body : List TokenTree} {taken : List Attached} {x : Attached}
    (h : Sound body taken) (hx : x.InTime ↔ ¬ Trails body (taken.map (·.item)) x.item) :
    Sound body (taken ++ [x]) := by
  intro front y back heq
  rcases List.eq_nil_or_concat back with rfl | ⟨back, z, rfl⟩
  · obtain ⟨rfl, hy⟩ := List.append_inj' heq rfl
    obtain rfl := List.singleton_inj.1 hy
    exact hx
  · rw [List.concat_eq_append, ← List.cons_append, ← List.append_assoc] at heq
    exact h front y back (List.append_inj' heq rfl).1

/-- What holds of the comments that wait in front of the place `p`. -/
structure Waiting (body : List TokenTree) (p : Nat) (waiting : List Nat) : Prop where
  /-- They are comments in front of the place. -/
  comments : ∀ r ∈ waiting, r < p ∧ CommentAt body r
  /-- A comment right in front of the place is one of them. -/
  latest : ∀ q, q + 1 = p → CommentAt body q → q ∈ waiting

/-- A member that takes the comments that wait takes one behind its last token exactly if there is
a comment in front of the token that ends it. -/
theorem inTime_waiting {body : List TokenTree} {p : Nat} {waiting : List Nat}
    (hw : Waiting body p waiting) (hi : i.Timely body p) :
    (Attached.InTime ⟨i, waiting⟩) ↔
      ¬ (i.early = true ∧ ∃ q, q + 1 = p ∧ CommentAt body q) := by
  rcases hi with ⟨hplace, hearly⟩ | ⟨hearly, ⟨u, hu, hup, hnot, hbetween⟩, hbelow⟩
  · rw [hearly]
    refine ⟨fun _ h => absurd h.1 Bool.false_ne_true, fun _ r hr => ?_⟩
    exact ⟨p, hplace, (hw.comments r hr).1⟩
  · constructor
    · rintro h ⟨-, q, hq, hcomment⟩
      obtain ⟨q', hq', hlt⟩ := h q (hw.latest q hq hcomment)
      obtain ⟨v, hv, rfl⟩ := Item.mem_places.1 hq'
      have := hbelow v hv
      omega
    · intro h r hr
      obtain ⟨hrp, hcomment⟩ := hw.comments r hr
      refine ⟨u.place, Item.mem_places.2 ⟨u, hu, rfl⟩, ?_⟩
      by_contra hle
      -- the comment stands behind the token, so there are only comments up to the place
      have hne : u.place ≠ r := by
        rintro rfl
        exact hnot hcomment
      have hlast : CommentAt body (p - 1) := by
        by_cases hr' : r = p - 1
        · rw [← hr']
          exact hcomment
        · exact hbetween _ (by omega) (by omega)
      exact h ⟨hearly, p - 1, by omega, hlast⟩

/-- What holds of the comments and members while items end at the place `p`. -/
structure Within (body : List TokenTree) (p : Nat) (waiting : List Nat) (a : Attaching) : Prop where
  /-- The members that take comments behind their last token are known. -/
  sound : Sound body a.taken
  /-- No member has ended behind the place. -/
  before : ∀ x ∈ a.taken, x.item.stop ≤ p
  /-- The comments wait for the first member that ends at the place. -/
  phase : (a.waiting = waiting ∧ ∀ x ∈ a.taken, x.item.stop < p) ∨
    a.waiting = [] ∧ ∃ x ∈ a.taken, x.item.stop = p

theorem Within.member {body : List TokenTree} {p : Nat} {waiting : List Nat}
    (h : Within body p waiting a) (hw : Waiting body p waiting) (hmember : i.isMember = true)
    (hstop : i.stop = p) (hi : i.Timely body p) :
    Within body p waiting (attach a (.ended i)) := by
  rw [attach_member a hmember]
  refine ⟨h.sound.append ?_, ?_, Or.inr ⟨rfl, ⟨i, a.waiting⟩, by simp, hstop⟩⟩
  · rcases h.phase with ⟨hwaiting, hbefore⟩ | ⟨hwaiting, x, hx, hxp⟩
    · rw [hwaiting, inTime_waiting hw hi, Trails, hstop]
      have hfirst : ∀ j ∈ a.taken.map (·.item), j.stop ≠ p := by
        intro j hj
        obtain ⟨x, hx, rfl⟩ := List.mem_map.1 hj
        exact Nat.ne_of_lt (hbefore x hx)
      exact not_congr
        ⟨fun ⟨hearly, hq⟩ => ⟨hearly, hfirst, hq⟩, fun ⟨hearly, _, hq⟩ => ⟨hearly, hq⟩⟩
    · -- another member has taken the comments
      rw [hwaiting]
      refine ⟨?_, fun _ r hr => absurd hr List.not_mem_nil⟩
      rintro - ⟨-, hfirst, -⟩
      exact hfirst x.item (List.mem_map.2 ⟨x, hx, rfl⟩) (hxp.trans hstop.symm)
  · intro x hx
    rcases List.mem_append.1 hx with hx | hx
    · exact h.before x hx
    · rw [List.mem_singleton.1 hx]
      exact Nat.le_of_eq hstop

theorem Within.items {body : List TokenTree} {p : Nat} {waiting : List Nat}
    (hw : Waiting body p waiting) {items : List Item}
    (hitems : ∀ i ∈ items, i.stop = p ∧ i.machine.name ≠ "comment" ∧
      (i.isMember = true → i.Timely body p))
    (h : Within body p waiting a) :
    Within body p waiting ((items.map Event.ended).foldl attach a) := by
  induction items generalizing a with
  | nil => exact h
  | cons i items ih =>
      obtain ⟨hstop, hname, htimely⟩ := hitems i List.mem_cons_self
      refine ih (fun j hj => hitems j (List.mem_cons_of_mem i hj)) ?_
      cases hmember : i.isMember with
      | true => exact h.member hw hmember hstop (htimely hmember)
      | false =>
          rw [attach_other a hmember hname]
          exact h

/-- Items none of which is a member add the places of the comments. -/
theorem foldl_attach_comments {items : List Item} (h : ∀ i ∈ items, i.isMember = false)
    (a : Attaching) :
    (items.map Event.ended).foldl attach a =
      ⟨a.waiting ++ (items.filter (·.machine.name == "comment")).map (·.stop), a.taken⟩ := by
  induction items generalizing a with
  | nil => simp
  | cons i items ih =>
      have hi := h i List.mem_cons_self
      rw [List.map_cons, List.foldl_cons, ih fun j hj => h j (List.mem_cons_of_mem i hj)]
      by_cases hname : i.machine.name = "comment"
      · obtain ⟨s, hs⟩ : ∃ s, i.machine = comment s := by
          generalize i.machine = e at hname
          cases e <;> first | exact ⟨_, rfl⟩ | simp [name] at hname
        rw [attach_comment a hs, List.filter_cons_of_pos (by simpa using hname), List.map_cons]
        simp
      · rw [attach_other a hi hname, List.filter_cons_of_neg (by simpa using hname)]

/-! ## Runs -/

/-- What holds of the comments and members in front of the place `p`. -/
structure Kept (body : List TokenTree) (p : Nat) (a : Attaching) : Prop where
  /-- The comments that wait. -/
  waiting : Waiting body p a.waiting
  /-- The members that take comments behind their last token are known. -/
  sound : Sound body a.taken
  /-- All members have ended before the place. -/
  before : ∀ x ∈ a.taken, x.item.stop < p

theorem Kept.within {body : List TokenTree} {p : Nat} (h : Kept body p a) :
    Within body p a.waiting a :=
  ⟨h.sound, fun x hx => Nat.le_of_lt (h.before x hx), Or.inl ⟨rfl, h.before⟩⟩

theorem kept_nil (body : List TokenTree) : Kept body 0 {} :=
  ⟨⟨by simp, by simp⟩, sound_nil body, by simp⟩

variable {o : Owner} {p : Nat} {t : TokenTree} {body : List TokenTree} {ws : List Tracked}

/-- The machine for comments uses up comments, and no other tokens. -/
theorem items_of_comment {w : Tracked} (hw : w.machine = comment none) :
    (t.kind = .comment → ∃ uses, (w.offer o p t).2.1 =
        [⟨comment (some (Text.commentText t.text)), uses, p, false⟩]) ∧
      (t.kind ≠ .comment → (w.offer o p t).2.1 = []) := by
  obtain ⟨e, uses⟩ := w
  obtain rfl : e = comment none := hw
  constructor
  · intro ht
    have haccept : (Tracked.mk (comment none) uses).machine.accept o t =
        .take (comment (some (Text.commentText t.text))) := by
      show (if t.kind == .comment then _ else _) = _
      rw [if_pos (by simpa using ht)]
    rw [Tracked.offer_of_taken_complete haccept rfl rfl rfl]
    exact ⟨_, rfl⟩
  · intro ht
    have haccept : (Tracked.mk (comment none) uses).machine.accept o t =
        .leave (comment none) := by
      show (if t.kind == .comment then _ else _) = _
      rw [if_neg (by simpa using ht)]
    rw [Tracked.offer_of_going haccept rfl rfl]

/-- A machine for comments between two tokens has read none. -/
theorem Ready.comment {e : Extractor} (h : e.Ready o.language) (hname : e.name = "comment") :
    e = .comment none := by
  cases e with
  | comment found? =>
      have := h.notEnded
      cases found? with
      | none => rfl
      | some s => exact absurd this (by simp [isComplete])
  | _ => simp [name] at hname

/-- The items that a token ends stop at its place. -/
theorem stop_of_ended (hws : ∀ w ∈ ws, Poised o.language body p w) :
    ∀ i ∈ (Tracked.offerAll o p t ws).2.1, i.stop = p := by
  intro i hi
  rw [(offerAll_eq o p t ws).2] at hi
  obtain ⟨w, hw, hi⟩ := List.mem_flatMap.1 hi
  exact ((Tracked.spends_offer o t w (hws w hw).steady.below).items i hi).1

/-- The members that a token ends are timely, and the token is no comment. -/
theorem timely_of_ended (hws : ∀ w ∈ ws, Poised o.language body p w) (hp : body[p]? = some t) :
    ∀ i ∈ (Tracked.offerAll o p t ws).2.1, i.isMember = true →
      ¬ CommentAt body p ∧ i.Timely body p := by
  intro i hi hmember
  rw [(offerAll_eq o p t ws).2] at hi
  obtain ⟨w, hw, hi⟩ := List.mem_flatMap.1 hi
  exact ((hws w hw).step hp).2 i (Tracked.mem_ended.2 ⟨hi, hmember⟩)

/-- A token that is no comment ends no comment. -/
theorem not_comment_of_ended (hws : ∀ w ∈ ws, Poised o.language body p w) (ht : t.kind ≠ .comment) :
    ∀ i ∈ (Tracked.offerAll o p t ws).2.1, i.machine.name ≠ "comment" := by
  intro i hi hname
  rw [(offerAll_eq o p t ws).2] at hi
  obtain ⟨w, hw, hi⟩ := List.mem_flatMap.1 hi
  have hwname := (Tracked.named_offer o p t w (hws w hw).steady.named).items i hi
  rw [hname] at hwname
  rw [(items_of_comment ((hws w hw).ready.comment hwname.1.symm)).2 ht] at hi
  exact absurd hi List.not_mem_nil

/-- The machine for comments ends at a comment. -/
theorem exists_comment_of_ended (hws : ∀ w ∈ ws, Poised o.language body p w)
    (hcomment : ∃ w ∈ ws, w.machine.name = "comment") (ht : t.kind = .comment) :
    ∃ i ∈ (Tracked.offerAll o p t ws).2.1, i.machine.name = "comment" := by
  obtain ⟨w, hw, hname⟩ := hcomment
  obtain ⟨uses, hoffer⟩ :=
    (items_of_comment (o := o) (p := p) (t := t) ((hws w hw).ready.comment hname)).1 ht
  refine ⟨⟨comment (some (Text.commentText t.text)), uses, p, false⟩, ?_, rfl⟩
  rw [(offerAll_eq o p t ws).2]
  refine List.mem_flatMap.2 ⟨w, hw, ?_⟩
  rw [hoffer]
  exact List.mem_cons_self

/-- A comment waits for the next member. -/
theorem Kept.read_comment (h : Kept body p a) (hws : ∀ w ∈ ws, Poised o.language body p w)
    (hcomment : ∃ w ∈ ws, w.machine.name = "comment") (hp : body[p]? = some t)
    (ht : t.kind = .comment) :
    Kept body (p + 1) (((Tracked.offerAll o p t ws).2.1.map Event.ended).foldl attach a) := by
  have hat : CommentAt body p := (commentAt_iff hp).2 ht
  have hnone : ∀ i ∈ (Tracked.offerAll o p t ws).2.1, i.isMember = false := by
    intro i hi
    rw [Bool.eq_false_iff]
    intro hmember
    exact (timely_of_ended hws hp i hi hmember).1 hat
  rw [foldl_attach_comments hnone]
  refine ⟨⟨?_, ?_⟩, h.sound, fun x hx => Nat.lt_succ_of_lt (h.before x hx)⟩
  · intro r hr
    rcases List.mem_append.1 hr with hr | hr
    · obtain ⟨hrp, hrc⟩ := h.waiting.comments r hr
      exact ⟨by omega, hrc⟩
    · obtain ⟨i, hi, rfl⟩ := List.mem_map.1 hr
      rw [stop_of_ended hws i (List.mem_filter.1 hi).1]
      exact ⟨by omega, hat⟩
  · intro q hq _
    obtain rfl : q = p := by omega
    obtain ⟨i, hi, hname⟩ := exists_comment_of_ended hws hcomment ht
    exact List.mem_append_right _ (List.mem_map.2
      ⟨i, List.mem_filter.2 ⟨hi, by simpa using hname⟩, stop_of_ended hws i hi⟩)

/-- Once the items at a place that holds no comment have ended, the next place is reached. -/
theorem Within.kept {waiting : List Nat} (h : Within body p waiting a)
    (hw : Waiting body p waiting) (hnot : ¬ CommentAt body p) : Kept body (p + 1) a := by
  refine ⟨⟨?_, ?_⟩, h.sound, fun x hx => Nat.lt_succ_of_le (h.before x hx)⟩
  · intro r hr
    rcases h.phase with ⟨heq, -⟩ | ⟨heq, -⟩
    · rw [heq] at hr
      obtain ⟨hrp, hrc⟩ := hw.comments r hr
      exact ⟨by omega, hrc⟩
    · rw [heq] at hr
      exact absurd hr List.not_mem_nil
  · intro q hq hqc
    obtain rfl : q = p := by omega
    exact absurd hqc hnot

/-- The comments that wait may be dropped behind a token that is no comment. -/
theorem Kept.dropped (h : Kept body (p + 1) a) (hnot : ¬ CommentAt body p) :
    Kept body (p + 1) (attach a .dropped) := by
  refine ⟨⟨by simp [attach], ?_⟩, h.sound, h.before⟩
  intro q hq hqc
  obtain rfl : q = p := by omega
  exact absurd hqc hnot

/-- One token keeps track of the comments. -/
theorem Kept.read (h : Kept body p a) (hws : ∀ w ∈ ws, Poised o.language body p w)
    (hcomment : ∃ w ∈ ws, w.machine.name = "comment") (hp : body[p]? = some t) :
    Kept body (p + 1) ((Tracked.read o p ws t).2.foldl attach a) := by
  simp only [Tracked.read]
  rw [List.foldl_append]
  by_cases ht : t.kind = .comment
  · -- a comment is no block, so nothing is dropped behind it
    have hbrace : t.value.isBlock '\x7b' = false := Token.isBlock_eq_false (by
      show t.kind ≠ _
      rw [ht]
      decide) _
    rw [hbrace, Bool.and_false]
    exact h.read_comment hws hcomment hp ht
  · -- members may end, and what still waits may be dropped
    have hnot : ¬ CommentAt body p := fun hc => ht ((commentAt_iff hp).1 hc)
    have hkept : Kept body (p + 1)
        (((Tracked.offerAll o p t ws).2.1.map Event.ended).foldl attach a) :=
      (Within.items h.waiting (fun i hi => ⟨stop_of_ended hws i hi,
        not_comment_of_ended hws ht i hi,
        fun hmember => (timely_of_ended hws hp i hi hmember).2⟩) h.within).kept h.waiting hnot
    split
    · exact hkept.dropped hnot
    · exact hkept

/-- The text of the comment at a place. -/
def commentAt (body : List TokenTree) (p : Nat) : String :=
  (body[p]?.map fun t => Text.commentText t.text).getD ""

/-- An item that ends has ended, and a comment is the one at its place. -/
def Event.Labelled (body : List TokenTree) : Event → Prop
  | .ended i => i.machine.isComplete = true ∧
      ∀ s, i.machine = comment (some s) → s = commentAt body i.stop
  | .dropped => True

theorem labelled_read (hws : ∀ w ∈ ws, Poised o.language body p w) (hp : body[p]? = some t) :
    ∀ x ∈ (Tracked.read o p ws t).2, x.Labelled body := by
  intro x hx
  simp only [Tracked.read] at hx
  rcases List.mem_append.1 hx with hx | hx
  · obtain ⟨i, hi, rfl⟩ := List.mem_map.1 hx
    rw [(offerAll_eq o p t ws).2] at hi
    obtain ⟨w, hw, hi⟩ := List.mem_flatMap.1 hi
    refine ⟨(Tracked.settled_offerUpTo o p t 1 w).items i hi, ?_⟩
    intro s hs
    have hwname := ((Tracked.named_offer o p t w (hws w hw).steady.named).items i hi).1
    rw [hs] at hwname
    have hitems := items_of_comment (o := o) (p := p) (t := t)
      ((hws w hw).ready.comment hwname.symm)
    by_cases ht : t.kind = .comment
    · obtain ⟨uses, hoffer⟩ := hitems.1 ht
      rw [hoffer] at hi
      obtain rfl := List.mem_singleton.1 hi
      rw [commentAt, hp]
      exact (Option.some.inj (comment.inj hs)).symm
    · rw [hitems.2 ht] at hi
      exact absurd hi List.not_mem_nil
  · split at hx
    · rw [List.mem_singleton.1 hx]
      trivial
    · exact absurd hx List.not_mem_nil

/-- A run of tokens keeps track of the comments. -/
theorem Kept.readAll {ts : List TokenTree} (h : Kept body p a)
    (hws : ∀ w ∈ ws, Poised o.language body p w)
    (hcomment : ∃ w ∈ ws, w.machine.name = "comment") (hts : body.drop p = ts) :
    Kept body (p + ts.length) ((Tracked.readAll o p ws ts).2.foldl attach a) ∧
      (∀ w ∈ (Tracked.readAll o p ws ts).1, Poised o.language body (p + ts.length) w) ∧
        ∀ x ∈ (Tracked.readAll o p ws ts).2, x.Labelled body := by
  induction ts generalizing p ws a with
  | nil => exact ⟨h, hws, by simp [Tracked.readAll]⟩
  | cons t ts ih =>
      have hp : body[p]? = some t := by
        have hhead : (body.drop p)[0]? = some t := by rw [hts]; rfl
        rwa [List.getElem?_drop, Nat.add_zero] at hhead
      have hrest : body.drop (p + 1) = ts := by
        rw [← List.drop_drop, hts]
        rfl
      have hread : (Tracked.read o p ws t).1 = ws.map fun w => (w.offer o p t).1 :=
        (offerAll_eq o p t ws).1
      have hnext : ∀ w ∈ (Tracked.read o p ws t).1, Poised o.language body (p + 1) w := by
        intro w' hw'
        rw [hread] at hw'
        obtain ⟨w, hw, rfl⟩ := List.mem_map.1 hw'
        exact ((hws w hw).step hp).1
      have hnextComment : ∃ w ∈ (Tracked.read o p ws t).1, w.machine.name = "comment" := by
        obtain ⟨w, hw, hname⟩ := hcomment
        refine ⟨(w.offer o p t).1, ?_, ?_⟩
        · rw [hread]
          exact List.mem_map.2 ⟨w, hw, rfl⟩
        · rw [(Tracked.named_offer o p t w (hws w hw).steady.named).machine, hname]
      obtain ⟨hkept, hpoised, hlabelled⟩ := ih (h.read hws hcomment hp) hnext hnextComment hrest
      rw [List.length_cons, show p + (ts.length + 1) = p + 1 + ts.length by omega]
      simp only [Tracked.readAll, List.foldl_append]
      refine ⟨hkept, hpoised, ?_⟩
      intro x hx
      rcases List.mem_append.1 hx with hx | hx
      · exact labelled_read hws hp x hx
      · exact hlabelled x hx

/-! ## The end of the tokens -/

/-- The end of the tokens ends nothing if nothing is read. -/
theorem bodyEnd_of_isIdle {e : Extractor} (h : e.isIdle = true) :
    (e.bodyEnd o).isComplete = false := by
  cases e with
  | field m =>
      rw [FieldMachine.eq_idle_of_isIdle h]
      show (FieldMachine.idle.bodyEnd o).isComplete = false
      unfold FieldMachine.bodyEnd
      cases o.language.memberOrder <;> rfl
  | method m =>
      show (m.bodyEnd o).isComplete = false
      have hs := MethodMachine.stage_of_isIdle h
      cases m <;> simp [MethodMachine.stage] at hs
      unfold MethodMachine.bodyEnd
      cases o.language.memberOrder <;> rfl
  | enumMember m =>
      rw [EnumMemberMachine.eq_idle_of_isIdle h]
      rfl
  | annotations m =>
      cases m <;> first | rfl | simp [isIdle] at h
  | comment found? =>
      cases found? with
      | none => rfl
      | some s => simp [isIdle] at h
  | imports m =>
      show m.bodyEnd.isComplete = false
      have h : m.isIdle = true := h
      cases m <;> first | rfl | simp [ImportMachine.isIdle] at h

/-- An item that ends with the tokens does so in time. -/
theorem Poised.close {w : Tracked} (h : Poised o.language body p w) (hi : w.close? o p = some i) :
    i.stop = p ∧ i.machine.name ≠ "comment" ∧ (i.isMember = true → i.Timely body p) := by
  obtain ⟨huses, hearly, hname⟩ := of_close? hi
  rw [Tracked.close?] at hi
  split at hi
  · rename_i hcomplete
    obtain rfl := Option.some.inj hi
    refine ⟨rfl, ?_, ?_⟩
    · intro hcomment
      rw [h.ready.comment (hname.symm.trans hcomment)] at hcomplete
      exact absurd hcomplete Bool.false_ne_true
    · intro hmember
      rw [Item.isMember_eq, readsMembers_of_name hname] at hmember
      refine Or.inr ⟨rfl, h.recent hmember ?_, h.steady.below⟩
      rw [Bool.eq_false_iff]
      intro hidle
      rw [bodyEnd_of_isIdle hidle] at hcomplete
      exact absurd hcomplete Bool.false_ne_true
  · exact absurd hi (by simp)

/-! ## The comments of the members -/

/-- The texts of the comments that the members of a kind take. -/
def Attaching.commentsOf (body : List TokenTree) (name : String) (a : Attaching) :
    List (List String) :=
  (a.taken.filter (·.item.machine.name == name)).map fun x => x.comments.map (commentAt body)

theorem commentsOf_append (body : List TokenTree) (name : String) (a : Attaching) (i : Item)
    (waiting : List Nat) :
    Attaching.commentsOf body name ⟨waiting, a.taken ++ [⟨i, a.waiting⟩]⟩ =
      a.commentsOf body name ++
        if i.machine.name = name then [a.waiting.map (commentAt body)] else [] := by
  simp only [Attaching.commentsOf, List.filter_append, List.map_append]
  congr 1
  by_cases h : i.machine.name = name
  · simp [h]
  · simp [h]

/-- What is read shows the comments that wait and those that the members take. -/
structure Mirrors (body : List TokenTree) (a : Attaching) (h : Harvest) : Prop where
  /-- The comments that wait. -/
  waiting : h.comments = a.waiting.map (commentAt body)
  /-- The comments of the fields. -/
  fields : h.members.fields.map (·.comments) = a.commentsOf body "field"
  /-- The comments of the methods. -/
  methods : h.members.methods.map (·.comments) = a.commentsOf body "method"
  /-- The comments of the constants. -/
  enumMembers : h.members.enumMembers.map (·.comments) = a.commentsOf body "enum member"

/-- A member that ends takes the comments that wait, and is the last one of its kind. -/
theorem Mirrors.member {h h' : Harvest} (hm : Mirrors body a h) (i : Item)
    (hwaiting : h'.comments = [])
    (hfields : h'.members.fields.map (·.comments) = h.members.fields.map (·.comments) ++
      if i.machine.name = "field" then [h.comments] else [])
    (hmethods : h'.members.methods.map (·.comments) = h.members.methods.map (·.comments) ++
      if i.machine.name = "method" then [h.comments] else [])
    (henum : h'.members.enumMembers.map (·.comments) = h.members.enumMembers.map (·.comments) ++
      if i.machine.name = "enum member" then [h.comments] else []) :
    Mirrors body ⟨[], a.taken ++ [⟨i, a.waiting⟩]⟩ h' := by
  refine ⟨hwaiting, ?_, ?_, ?_⟩
  · rw [commentsOf_append, hfields, hm.fields, hm.waiting]
  · rw [commentsOf_append, hmethods, hm.methods, hm.waiting]
  · rw [commentsOf_append, henum, hm.enumMembers, hm.waiting]

theorem Mirrors.replay {h : Harvest} {x : Event} (hm : Mirrors body a h) (hx : x.Labelled body) :
    Mirrors body (attach a x) (replay o h x) := by
  cases x with
  | dropped => exact ⟨rfl, hm.fields, hm.methods, hm.enumMembers⟩
  | ended i =>
      obtain ⟨machine, uses, stop, early⟩ := i
      obtain ⟨hcomplete, htext⟩ := hx
      simp only at hcomplete htext
      simp only [Extractor.replay, attach]
      cases machine with
      | field m =>
          cases m with
          | complete d =>
              refine hm.member _ rfl ?_ ?_ ?_ <;>
                simp [deliver, Harvest.addField, Harvest.dropPending, FieldDraft.field, name]
          | _ => exact absurd hcomplete Bool.false_ne_true
      | method m =>
          cases m with
          | complete d =>
              refine hm.member _ rfl ?_ ?_ ?_ <;>
                simp [deliver, Harvest.addMethod, Harvest.dropPending, MethodDraft.method, name]
          | _ => exact absurd hcomplete Bool.false_ne_true
      | enumMember m =>
          obtain ⟨stage, ended⟩ := m
          cases stage with
          | complete d =>
              refine hm.member _ rfl ?_ ?_ ?_ <;>
                simp [deliver, Harvest.addEnumMember, Harvest.dropPending,
                  EnumMemberDraft.enumMember, name]
          | _ => exact absurd hcomplete Bool.false_ne_true
      | annotations m =>
          cases m with
          | complete found => exact ⟨hm.waiting, hm.fields, hm.methods, hm.enumMembers⟩
          | _ => exact absurd hcomplete Bool.false_ne_true
      | comment found? =>
          cases found? with
          | some s =>
              refine ⟨?_, hm.fields, hm.methods, hm.enumMembers⟩
              simp [deliver, hm.waiting, htext s rfl]
          | none => exact absurd hcomplete Bool.false_ne_true
      | imports m =>
          cases m with
          | complete d => exact ⟨hm.waiting, hm.fields, hm.methods, hm.enumMembers⟩
          | _ => exact absurd hcomplete Bool.false_ne_true

theorem Mirrors.foldl {events : List Event} {h : Harvest} (hm : Mirrors body a h)
    (hevents : ∀ x ∈ events, x.Labelled body) :
    Mirrors body (events.foldl attach a) (events.foldl (Extractor.replay o) h) := by
  induction events generalizing a h with
  | nil => exact hm
  | cons x events ih =>
      exact ih (hm.replay (hevents x List.mem_cons_self))
        fun y hy => hevents y (List.mem_cons_of_mem x hy)

/-! ## Members of a declaration -/

/-- Machines that have read nothing stand between two tokens. -/
theorem poised_extractors (l : Language) (kind : DeclarationKind) (body : List TokenTree) :
    ∀ w ∈ (Members.extractors l kind).map fun e => (⟨e, []⟩ : Tracked), Poised l body 0 w := by
  have hfield : Ready l (.field .idle) := ⟨rfl, rfl, FieldStage.waits_idle l⟩
  have hmethod : Ready l (.method .idle) := ⟨rfl, rfl, waits_idle_method l⟩
  have henum : Ready l (.enumMember {}) := ⟨rfl, rfl, EnumMemberMachine.waits_idle l false⟩
  have hidle : ∀ e, Ready l e → e.isIdle = true → Poised l body 0 ⟨e, []⟩ := by
    intro e he hidle
    refine ⟨he, ⟨by simp, by simp⟩, ?_⟩
    intro _ hbusy
    exact absurd (hidle.symm.trans hbusy) (by decide)
  intro w hw
  obtain ⟨e, he, rfl⟩ := List.mem_map.1 hw
  rw [Members.extractors] at he
  rcases List.mem_append.1 he with he | he
  · rcases List.mem_append.1 he with he | he
    · split at he
      · rcases List.mem_cons.1 he with rfl | he
        · exact hidle _ hfield rfl
        · obtain rfl := List.mem_singleton.1 he
          exact hidle _ hmethod rfl
      · exact absurd he List.not_mem_nil
    · split at he
      · obtain rfl := List.mem_singleton.1 he
        exact hidle _ henum rfl
      · exact absurd he List.not_mem_nil
  · rcases List.mem_cons.1 he with rfl | he
    · exact hidle _ ⟨rfl, rfl, trivial⟩ rfl
    · obtain rfl := List.mem_singleton.1 he
      exact hidle _ ⟨rfl, rfl, trivial⟩ rfl

end Extractor

namespace Members

open Extractor

/-- The comments that have waited, and the members of a declaration with the comments that they
take. -/
def attaching (o : Owner) (kind : DeclarationKind) (body : List TokenTree) : Attaching :=
  (log o kind body).foldl attach {}

theorem items_attaching (o : Owner) (kind : DeclarationKind) (body : List TokenTree) :
    (attaching o kind body).taken.map (·.item) = items o kind body :=
  items_foldl_attach (log o kind body) {}

/-- The members that take comments behind their last token are those that trail, and the comments
that members take are their comments. -/
theorem sound_attaching (o : Owner) (kind : DeclarationKind) (body : List TokenTree) :
    Sound body (attaching o kind body).taken ∧
      Mirrors body (attaching o kind body) ((log o kind body).foldl (replay o) {}) := by
  have hcomment : ∃ w ∈ (extractors o.language kind).map fun e => (⟨e, []⟩ : Tracked),
      w.machine.name = "comment" :=
    ⟨⟨comment none, []⟩, List.mem_map.2 ⟨comment none, by simp [extractors], rfl⟩, rfl⟩
  obtain ⟨hkept, hpoised, hlabelled⟩ := (kept_nil body).readAll
    (poised_extractors o.language kind body) hcomment (List.drop_zero (l := body))
  rw [Nat.zero_add] at hkept hpoised
  constructor
  · have hwithin := Within.items hkept.waiting (fun i hi => by
      obtain ⟨w, hw, hclose⟩ := List.mem_filterMap.1 hi
      exact (hpoised w hw).close hclose) hkept.within
    have hsound := hwithin.sound
    rwa [← List.foldl_append] at hsound
  · refine Mirrors.foldl ⟨rfl, rfl, rfl, rfl⟩ ?_
    intro x hx
    rcases List.mem_append.1 hx with hx | hx
    · exact hlabelled x hx
    · obtain ⟨i, hi, rfl⟩ := List.mem_map.1 hx
      obtain ⟨w, hw, hclose⟩ := List.mem_filterMap.1 hi
      refine ⟨?_, ?_⟩
      · rw [Tracked.close?] at hclose
        split at hclose
        · obtain rfl := Option.some.inj hclose
          assumption
        · exact absurd hclose (by simp)
      · intro s hs
        exact absurd (by rw [hs]; rfl) ((hpoised w hw).close hclose).2.1

/-- Every comment that a member takes stands in front of one of its tokens exactly if no member
trails: it ends by a token behind it or by the end of the tokens, it is the first one that ends
there, and the token in front of that end is a comment. -/
theorem inTime_iff (o : Owner) (kind : DeclarationKind) (body : List TokenTree) :
    ((ofBody o kind body).members.fields.map (·.comments) =
        (attaching o kind body).commentsOf body "field" ∧
      (ofBody o kind body).members.methods.map (·.comments) =
        (attaching o kind body).commentsOf body "method" ∧
      (ofBody o kind body).members.enumMembers.map (·.comments) =
        (attaching o kind body).commentsOf body "enum member") ∧
    ((∀ x ∈ (attaching o kind body).taken, x.InTime) ↔
      ∀ front i back, items o kind body = front ++ i :: back → ¬ Trails body front i) := by
  obtain ⟨hsound, hmirrors⟩ := sound_attaching o kind body
  have hmembers := ofBody_members o kind body
  refine ⟨⟨?_, ?_, ?_⟩, ?_⟩
  · rw [hmembers]
    exact hmirrors.fields
  · rw [hmembers]
    exact hmirrors.methods
  · rw [hmembers]
    exact hmirrors.enumMembers
  · constructor
    · intro h front i back hitems
      rw [← items_attaching] at hitems
      obtain ⟨xs, ys, htaken, rfl, hys⟩ := List.map_eq_append_iff.1 hitems
      obtain ⟨x, zs, rfl, rfl, -⟩ := List.map_eq_cons_iff.1 hys
      exact (hsound xs x zs htaken).1 (h x (by rw [htaken]; simp))
    · intro h x hx
      obtain ⟨front, back, htaken⟩ := List.append_of_mem hx
      refine (hsound front x back htaken).2 (h _ x.item (back.map (·.item)) ?_)
      rw [← items_attaching, htaken, List.map_append, List.map_cons]

/-- The comment behind a field is taken by it, not by the next one. -/
theorem not_inTime_field :
    ¬ (∀ x ∈ (attaching ⟨.typescript, ["A"]⟩ .classLike
        (tokensOf .typescript "x: number\n/** of y */ y: string")).taken, x.InTime) ∧
      (ofBody ⟨.typescript, ["A"]⟩ .classLike
        (tokensOf .typescript "x: number\n/** of y */ y: string")).members.fields.map
          (fun f => (f.name, f.comments)) = [("x", ["of y"]), ("y", [])] := by
  have htaken : (attaching ⟨.typescript, ["A"]⟩ .classLike
      (tokensOf .typescript "x: number\n/** of y */ y: string")).taken.map
        (fun x => (x.item.places, x.comments)) = [([0, 1, 2], [3]), ([4, 5, 6], [])] := by
    decide +kernel
  refine ⟨?_, by decide +kernel⟩
  intro h
  obtain ⟨x, hx, hxs⟩ := List.mem_map.1 (htaken.symm ▸ List.mem_cons_self :
    (([0, 1, 2], [3]) : List Nat × List Nat) ∈ _)
  obtain ⟨hplaces, hcomments⟩ := Prod.mk.inj hxs
  obtain ⟨q, hq, hlt⟩ := h x hx 3 (by rw [hcomments]; decide)
  rw [hplaces] at hq
  revert hlt
  revert q
  decide

end Members

end Outline
