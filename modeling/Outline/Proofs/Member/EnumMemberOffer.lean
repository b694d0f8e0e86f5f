import Outline.Proofs.Member.FieldOffer

/-!
# What a token does to a constant that is being read

* `EnumMemberMachine.accepts_accept` — what the machine makes of a token.
* `Extractor.enumMemberOffer_of_offer` — what an offer makes of the machine and of the tokens that
  it has used.
-/

namespace Outline

namespace EnumMemberMachine

variable {l : Language} {t : Token} {m m' : EnumMemberMachine}

/-- What holds of a machine that waits for a token. -/
structure Waits (l : Language) (m : EnumMemberMachine) : Prop where
  /-- The constant has not ended. -/
  notEnded : m.isComplete = false
  /-- There may be a constant. -/
  notFailed : m.isFailed = false
  /-- Nothing is read behind the end of the list. -/
  atEnd : m.listEnded = true → m.isIdle = true
  /-- A token inside an annotation is awaited only where annotations are written with at signs. -/
  skip : ∀ s, m.stage = .head (some s) → l.annotationStyle = .atSign

theorem waits_head {skip : Option AnnotationSkip} {ended : Bool}
    (hended : ended = true → skip = none)
    (hskip : ∀ s, skip = some s → l.annotationStyle = .atSign) :
    Waits l ⟨.head skip, ended⟩ := by
  refine ⟨rfl, rfl, ?_, ?_⟩
  · intro h
    obtain rfl := hended h
    rfl
  · intro s hs
    exact hskip s (EnumMemberStage.head.inj hs)

theorem waits_idle (l : Language) (ended : Bool) : Waits l ⟨.head none, ended⟩ :=
  waits_head (fun _ => rfl) (by simp)

/-- What the machine makes of a token that is no comment. -/
inductive Accepts (l : Language) (m : EnumMemberMachine) : Step EnumMemberMachine → Prop where
  /-- The machine goes on with the token. -/
  | goes {m' : EnumMemberMachine} (h : Waits l m') : Accepts l m (.take m')
  /-- The token ends a constant. -/
  | ends {d : EnumMemberDraft} {ended : Bool} (hm : m.isIdle = false) :
      Accepts l m (.take ⟨.complete d, ended⟩)
  /-- There is no constant. -/
  | fails (hm : m.isIdle = false) : Accepts l m (.leave ⟨.failed, false⟩)
  /-- Nothing is read any more. -/
  | idles {ended : Bool} : Accepts l m (.leave ⟨.head none, ended⟩)

theorem eq_idle_of_isIdle (h : m.isIdle = true) : m = ⟨.head none, m.listEnded⟩ := by
  obtain ⟨stage, ended⟩ := m
  unfold isIdle at h
  split at h
  · rename_i hs
    obtain rfl : stage = .head none := hs
    rfl
  · exact absurd h Bool.false_ne_true

theorem accepts_head {skip : Option AnnotationSkip} {t : TokenTree}
    (hw : Waits l ⟨.head skip, false⟩) :
    Accepts l ⟨.head skip, false⟩ (match AnnotationSkip.step l skip t.value with
      | (skip, true) => .take ⟨.head skip, false⟩
      | (skip, false) =>
        if isConstantName t.value then .take ⟨.afterName { name := t.text }, false⟩
        else if t.value.isSeparator ";" then .take { stage := .head skip, listEnded := true }
        else .leave ⟨.head skip, false⟩) := by
  split
  · rename_i skip' hstep
    refine .goes (waits_head (by simp) ?_)
    intro s hs
    rcases AnnotationSkip.step_taken hstep with ⟨-, hskip, -⟩ | ⟨hl, -⟩
    · rw [hskip] at hs
      exact hw.skip s (by rw [hs])
    · exact hl
  · rename_i skip' hstep
    have hnone : skip' = none := by
      rcases AnnotationSkip.step_left hstep with ⟨hl, hskip⟩ | ⟨-, hskip, -⟩
      · rw [hskip]
        cases skip with
        | none => rfl
        | some s =>
            have := hw.skip s rfl
            rw [hl] at this
            exact absurd this (by decide)
      · exact hskip
    subst hnone
    split
    · exact .goes ⟨rfl, rfl, by simp, by simp⟩
    · split
      · exact .goes (waits_idle l true)
      · exact .idles

/-- What the machine makes of a token that is no comment. -/
theorem accepts_accept {o : Owner} {t : TokenTree} (hw : Waits o.language m)
    (ht : t.kind ≠ .comment) : Accepts o.language m (m.accept o t) := by
  obtain ⟨stage, ended⟩ := m
  cases ended with
  | true =>
      rw [eq_idle_of_isIdle (hw.atEnd rfl)]
      exact .idles
  | false =>
      have hkind : (t.kind == .comment) = false := by simpa using ht
      simp only [accept, hkind, Bool.or_self, Bool.false_eq_true, if_false]
      cases stage with
      | head skip => exact accepts_head hw
      | afterName d =>
          have hgoes : ∀ d, Waits o.language ⟨.afterName d, false⟩ :=
            fun d => ⟨rfl, rfl, by simp, by simp⟩
          dsimp only
          split
          · exact .ends rfl
          split
          · exact .ends rfl
          split
          · exact .goes ⟨rfl, rfl, by simp, by simp⟩
          split
          · exact .goes (hgoes _)
          split
          · exact .goes (hgoes d)
          · exact .fails rfl
      | value d =>
          dsimp only
          split
          · exact .ends rfl
          split
          · exact .ends rfl
          · exact .goes ⟨rfl, rfl, by simp, by simp⟩
      | complete d => exact absurd hw.notEnded (by simp [isComplete])
      | failed => exact absurd hw.notFailed (by simp [isFailed])

end EnumMemberMachine

namespace Extractor

open EnumMemberMachine (Waits)

/-- What an offer of the token at the place `p`, which is no comment, makes of a machine that reads
constants, of the tokens that it has used, and which constants end. -/
inductive EnumMemberOffer (l : Language) (p : Nat) (m : EnumMemberMachine) (uses : List Use) :
    EnumMemberMachine → List Use → List Item → Prop where
  /-- Nothing is read any more. -/
  | idles {ended : Bool} : EnumMemberOffer l p m uses ⟨.head none, ended⟩ [] []
  /-- The machine starts anew with the token. -/
  | starts {m' m₀ : EnumMemberMachine} (h : Waits l m') :
      EnumMemberOffer l p m uses m' [⟨p, enumMember m₀⟩] []
  /-- The machine goes on with the token. -/
  | goes {m' : EnumMemberMachine} (h : Waits l m') :
      EnumMemberOffer l p m uses m' (uses ++ [⟨p, enumMember m⟩]) []
  /-- The token ends a constant. -/
  | ends {d : EnumMemberDraft} {ended : Bool} :
      EnumMemberOffer l p m uses ⟨.head none, ended⟩ []
        [⟨enumMember ⟨.complete d, ended⟩, uses ++ [⟨p, enumMember m⟩], p, false⟩]

theorem EnumMemberOffer.waits {l : Language} {p : Nat} {m m' : EnumMemberMachine}
    {uses uses' : List Use} {items : List Item}
    (h : EnumMemberOffer l p m uses m' uses' items) : Waits l m' := by
  cases h with
  | idles => exact EnumMemberMachine.waits_idle l _
  | starts h => exact h
  | goes h => exact h
  | ends => exact EnumMemberMachine.waits_idle l _

/-- The machine starts anew, or nothing is read. -/
theorem restart_enumMember {o : Owner} {t : TokenTree} {p : Nat} (ht : t.kind ≠ .comment) :
    ((enumMember {}).accept o t).state.isComplete = false ∧
      ∃ m', (Tracked.restart o p t (enumMember {})).machine = enumMember m' ∧
        ((∃ ended, m' = ⟨.head none, ended⟩ ∧
            (Tracked.restart o p t (enumMember {})).uses = []) ∨
          Waits o.language m' ∧
            (Tracked.restart o p t (enumMember {})).uses = [⟨p, enumMember {}⟩]) := by
  have hs := EnumMemberMachine.accepts_accept (EnumMemberMachine.waits_idle o.language false) ht
  have haccept : (enumMember {}).accept o t =
    (EnumMemberMachine.accept o {} t).map enumMember := rfl
  simp only [Tracked.restart, haccept]
  generalize EnumMemberMachine.accept o ⟨.head none, false⟩ t = s at hs ⊢
  cases hs with
  | @goes m' h =>
      refine ⟨h.notEnded, m', ?_⟩
      simp only [Step.take, Step.map, isFailed, h.notFailed, Bool.false_eq_true, if_false,
        Tracked.going, isIdle, if_true, true_and]
      cases hidle : m'.isIdle with
      | true => exact Or.inl ⟨_, EnumMemberMachine.eq_idle_of_isIdle hidle, rfl⟩
      | false => exact Or.inr ⟨h, rfl⟩
  | ends hm => exact absurd hm (by decide)
  | fails hm => exact absurd hm (by decide)
  | idles => exact ⟨rfl, _, rfl, Or.inl ⟨_, rfl, rfl⟩⟩

/-- What an offer makes of a machine that reads constants. -/
theorem enumMemberOffer_of_offer {o : Owner} {t : TokenTree} {m : EnumMemberMachine} (p : Nat)
    (uses : List Use) (hw : Waits o.language m) (ht : t.kind ≠ .comment) :
    ∃ m' uses', ((⟨enumMember m, uses⟩ : Tracked).offer o p t).1 = ⟨enumMember m', uses'⟩ ∧
      EnumMemberOffer o.language p m uses m' uses'
        ((⟨enumMember m, uses⟩ : Tracked).offer o p t).2.1 := by
  have hs := EnumMemberMachine.accepts_accept hw ht
  have haccept : (Tracked.mk (enumMember m) uses).machine.accept o t =
    (m.accept o t).map enumMember := rfl
  generalize m.accept o t = s at hs haccept
  cases hs with
  | @goes m' h =>
      rw [Tracked.offer_of_going haccept (by exact h.notFailed) (by exact h.notEnded)]
      cases hidle : m'.isIdle with
      | true =>
          obtain ⟨stage, ended⟩ := m'
          obtain rfl : stage = .head none :=
            congrArg EnumMemberMachine.stage (EnumMemberMachine.eq_idle_of_isIdle hidle)
          exact ⟨_, [], rfl, .idles⟩
      | false =>
          exact ⟨m', uses ++ [⟨p, enumMember m⟩],
            by simp [Step.take, Step.map, Tracked.going, isIdle, hidle], .goes h⟩
  | ends hm =>
      rw [Tracked.offer_of_taken_complete haccept rfl rfl rfl]
      exact ⟨_, [], rfl, .ends⟩
  | fails hm =>
      obtain ⟨hreset, m', hm', hrest⟩ := restart_enumMember (p := p) ht
      obtain ⟨hw', hitems⟩ :=
        Tracked.offer_of_left_failed (p := p) haccept rfl rfl (by exact hreset)
      have hidle : (Tracked.mk (enumMember m) uses).machine.isIdle = false := hm
      have hrestart : ((⟨enumMember m, uses⟩ : Tracked).offer o p t).1 =
          ⟨enumMember m', (Tracked.restart o p t (enumMember {})).uses⟩ := by
        rw [hw', hidle, ← hm']
        rfl
      rw [hitems]
      refine ⟨m', _, hrestart, ?_⟩
      rcases hrest with ⟨ended, rfl, huses⟩ | ⟨hwaits, huses⟩
      · rw [huses]
        exact .idles
      · rw [huses]
        exact .starts hwaits
  | idles =>
      rw [Tracked.offer_of_going haccept rfl rfl]
      exact ⟨_, [], rfl, .idles⟩

end Extractor

end Outline
