import Outline.Proofs.Member.Beginnings

/-!
# A machine in step with the run of modifiers

A machine that reads fields or methods takes modifiers one by one, and starts anew at tokens that do
not fit.  So it may have lost a run of modifiers, or a part of it.

* `Extractor.Fits` — how the run relates to a machine that stands behind it.
* `Extractor.KeepsUp.step` — one token keeps them in step.
-/

namespace Outline

namespace Extractor

variable {l : Language} {role : Capability} {body : List TokenTree} {items : List Item} {p : Nat}
  {e : Extractor} {t : TokenTree} {uses : List Use}

/-! ## Machines and runs -/

/-- How the run in front of the place `p` relates to a machine that stands there. -/
inductive Fits (l : Language) (role : Capability) (body : List TokenTree) (items : List Item)
    (p : Nat) : Stance → List Use → Prop where
  /-- In front of a member the machine has read the last modifiers of the run, all of them exactly
  if the run is free; behind a modifier both stand at the same place inside annotations. -/
  | front {skip : Option AnnotationSkip} {started : Bool} {modifiers : List String}
      {uses : List Use} (lost : List (Nat × String))
      (tidy : started = false → modifiers = [])
      (leads : ∀ u ∈ uses, u.state.isLead = true)
      (words : (ModifierRun.before l body p).words = lost ++ marks l role body uses)
      (free : lost = [] ↔ (ModifierRun.before l body p).Free l role (Taken items))
      (inside : marks l role body uses ≠ [] → (ModifierRun.before l body p).skip = skip) :
      Fits l role body items p ⟨.lead skip started false, modifiers⟩ uses
  /-- Behind a list of type parameters both stand at the same place inside annotations. -/
  | behind {skip : Option AnnotationSkip} {listed : Bool} {modifiers : List String}
      {uses : List Use} (begun : Begun l role body items uses)
      (list : ∃ u ∈ uses, u.state.isLead = false)
      (inside : (ModifierRun.before l body p).skip = skip)
      (angled : (ModifierRun.before l body p).angled = true) :
      Fits l role body items p ⟨.lead skip true listed, modifiers⟩ uses
  /-- Within a member the run is lost. -/
  | middle {modifiers : List String} {uses : List Use} (begun : Begun l role body items uses)
      (lost : (ModifierRun.before l body p).Lost l role (Taken items)) :
      Fits l role body items p ⟨.middle, modifiers⟩ uses
  /-- Within an initializer the run belongs to it. -/
  | initializer {modifiers : List String} {uses : List Use} (begun : Begun l role body items uses)
      (used : ∀ x ∈ (ModifierRun.before l body p).words, ∃ u ∈ uses, u.place = x.1) :
      Fits l role body items p ⟨.initializer, modifiers⟩ uses
  /-- A list, a clause or an expression ends with a token that ends the run. -/
  | sealed {modifiers : List String} {uses : List Use} (begun : Begun l role body items uses) :
      Fits l role body items p ⟨.sealed, modifiers⟩ uses

/-- The modifiers of a machine are those among its tokens, and it fits the run. -/
structure KeepsUp (l : Language) (role : Capability) (body : List TokenTree) (items : List Item)
    (p : Nat) (a : Stance) (uses : List Use) : Prop where
  /-- The modifiers. -/
  texts : a.modifiers = (marks l role body uses).map (·.2)
  /-- The run. -/
  fits : Fits l role body items p a uses

/-- An item of a machine with the role that has ended in front of the place `p`. -/
structure Ended (l : Language) (role : Capability) (body : List TokenTree) (items : List Item)
    (p : Nat) (i : Item) : Prop where
  /-- The modifiers. -/
  texts : i.machine.stance.modifiers = (marks l role body i.uses).map (·.2)
  /-- The item has begun. -/
  begun : Begun l role body items i.uses
  /-- Its tokens stand in front of the place. -/
  below : ∀ u ∈ i.uses, u.place < p
  /-- It ends in front of the place. -/
  stop : i.stop < p

/-- A machine in front of a member that has no modifiers fits a run that is lost. -/
theorem fits_of_lost {skip : Option AnnotationSkip} {started : Bool} {modifiers : List String}
    (tidy : started = false → modifiers = []) (leads : ∀ u ∈ uses, u.state.isLead = true)
    (hnil : marks l role body uses = [])
    (h : (ModifierRun.before l body p).Lost l role (Taken items)) :
    Fits l role body items p ⟨.lead skip started false, modifiers⟩ uses :=
  .front (ModifierRun.before l body p).words tidy leads (by rw [hnil, List.append_nil])
    ⟨fun hwords => ModifierRun.free_of_words_eq_nil hwords, h⟩ fun hne => absurd hnil hne

/-- A machine that has read nothing of the run. -/
theorem keepsUp_idle (h : (ModifierRun.before l body p).Lost l role (Taken items)) :
    KeepsUp l role body items p .idle [] :=
  ⟨rfl, fits_of_lost (fun _ => rfl) (by simp) rfl h⟩

/-- A machine that is idle has no modifiers, so that its tokens do not matter. -/
theorem KeepsUp.of_isIdle {a : Stance} (h : KeepsUp l role body items p a uses)
    (ha : a.phase.isIdle = true) : KeepsUp l role body items p a [] := by
  obtain ⟨htexts, hfits⟩ := h
  cases hfits with
  | @front skip started modifiers uses lost tidy leads words free inside =>
      cases skip with
      | some s => exact absurd ha Bool.false_ne_true
      | none =>
          cases started with
          | true => exact absurd ha Bool.false_ne_true
          | false =>
              obtain rfl := tidy rfl
              have hmarks : marks l role body uses = [] := List.map_eq_nil_iff.1 htexts.symm
              refine ⟨rfl, .front lost (fun _ => rfl) (by simp) ?_ free (by simp [marks])⟩
              rw [words, hmarks]
              rfl
  | @behind skip => cases skip <;> exact absurd ha Bool.false_ne_true
  | middle => exact absurd ha Bool.false_ne_true
  | initializer => exact absurd ha Bool.false_ne_true
  | sealed => exact absurd ha Bool.false_ne_true

theorem KeepsUp.going (h : KeepsUp l role body items p e.stance uses) (he : e.role? = some role) :
    KeepsUp l role body items p (Tracked.going e uses).machine.stance
      (Tracked.going e uses).uses := by
  rw [Tracked.going]
  cases hidle : e.isIdle with
  | false => exact h
  | true =>
      rw [isIdle_eq he] at hidle
      exact h.of_isIdle hidle

/-- Members that end in front of a place or at it take the same tokens as all that have ended. -/
theorem free_takenBefore_iff {r : ModifierRun} (hitems : ∀ i ∈ items, i.stop ≤ p) :
    r.Free l role (TakenBefore items p) ↔ r.Free l role (Taken items) := by
  have htaken : TakenBefore items p = Taken items := by
    funext q
    refine propext ⟨?_, ?_⟩
    · rintro ⟨i, hi, -, hq⟩
      exact ⟨i, hi, hq⟩
    · rintro ⟨i, hi, hq⟩
      exact ⟨i, hi, hitems i hi, hq⟩
  rw [htaken]

/-- A token that the machine in front of a member neither passes over nor takes for a modifier loses
the run. -/
theorem Fits.lost {skip : Option AnnotationSkip} {started listed : Bool} {modifiers : List String}
    (h : Fits l role body items p ⟨.lead skip started listed, modifiers⟩ uses)
    (hp : body[p]? = some t) (ht : t.value.kind ≠ .comment)
    (hskip : (AnnotationSkip.step l skip t.value).2 = false)
    (hmarks : l.marks role t.value = false) :
    (ModifierRun.before l body (p + 1)).Lost l role (Taken items) := by
  rw [ModifierRun.before_succ hp]
  refine ModifierRun.lost_read ht hmarks fun hfree hwords => ?_
  cases h with
  | front lost tidy leads words free inside =>
      obtain rfl := free.2 hfree
      rw [inside (by rwa [words] at hwords)]
      exact hskip
  | behind begun list inside angled =>
      rw [inside]
      exact hskip

/-- A modifier of the role adds its word to a run that is free. -/
theorem free_read_iff {r : ModifierRun} (hmarks : l.marks role t.value = true)
    (hrole : role ∈ memberRoles) (hitems : ∀ i ∈ items, ∀ u ∈ i.uses, u.place < p) :
    (r.read l p t.value).Free l role (Taken items) ↔ r.Free l role (Taken items) := by
  rw [ModifierRun.read_modifier hrole hmarks]
  constructor
  · intro h
    exact ⟨h.single, fun x hx => h.fits x (List.mem_append_left _ hx)⟩
  · intro h
    refine ⟨h.single, fun x hx => ?_⟩
    rcases List.mem_append.1 hx with hx | hx
    · exact h.fits x hx
    · obtain rfl := List.mem_singleton.1 hx
      refine ⟨(Bool.and_eq_true_iff.1 hmarks).2, ?_⟩
      rintro ⟨i, hi, hq⟩
      obtain ⟨u, hu, hup⟩ := Item.mem_places.1 hq
      exact absurd (hitems i hi u hu) (by omega)

/-! ## One token -/

/-- A token of an annotation in front of a member. -/
theorem Fits.skips {skip skip' : Option AnnotationSkip} {started listed : Bool}
    {modifiers : List String} (he : e.isLead = true)
    (h : Fits l role body items p ⟨.lead skip started listed, modifiers⟩ uses)
    (hp : body[p]? = some t) (hstep : AnnotationSkip.step l skip t.value = (skip', true)) :
    Fits l role body items (p + 1) ⟨.lead skip' started listed, modifiers⟩
      (uses ++ [⟨p, e⟩]) := by
  have hkind := ModifierRun.kind_of_skipped hstep
  have hmarks : marks l role body (uses ++ [⟨p, e⟩]) = marks l role body uses := by
    rw [marks_append, marks_singleton_of_not_marks hp (not_marks_of_kind hkind.1), List.append_nil]
  have htaken : (AnnotationSkip.step l skip t.value).2 = true := by rw [hstep]
  cases h with
  | @front skip started modifiers uses lost tidy leads words free inside =>
      have hleads : ∀ u ∈ uses ++ [⟨p, e⟩], u.state.isLead = true := by
        intro u hu
        rcases List.mem_append.1 hu with hu | hu
        · exact leads u hu
        · rw [List.mem_singleton.1 hu]
          exact he
      rcases ModifierRun.read_cases (l := l) (p := p) (r := ModifierRun.before l body p)
        hkind.2.1 with ⟨-, hread⟩ | ⟨hleft, -⟩
      · -- the run passes over the token as well
        refine .front lost tidy hleads ?_ ?_ ?_
        · rw [hmarks, ModifierRun.before_succ hp, hread]
          exact words
        · rw [free, ModifierRun.before_succ hp, hread]
          exact ⟨fun h => ⟨h.single, h.fits⟩, fun h => ⟨h.single, h.fits⟩⟩
        · intro hne
          rw [hmarks] at hne
          rw [ModifierRun.before_succ hp, hread]
          dsimp only
          rw [inside hne, hstep]
      · -- the run does not, so that the machine has no modifiers
        have hnil : marks l role body uses = [] := by
          refine Classical.byContradiction fun hne => ?_
          rw [inside hne] at hleft
          exact absurd (hleft.symm.trans htaken) (by decide)
        have hlost : (ModifierRun.before l body (p + 1)).Lost l role (Taken items) := by
          rw [ModifierRun.before_succ hp]
          exact ModifierRun.lost_read hkind.2.1 (not_marks_of_kind hkind.1) fun _ _ => hleft
        exact fits_of_lost tidy hleads (hmarks.trans hnil) hlost
  | behind begun list inside angled =>
      have hread : (ModifierRun.before l body p).read l p t.value =
          { ModifierRun.before l body p with skip := skip' } := by
        rcases ModifierRun.read_cases (l := l) (p := p) (r := ModifierRun.before l body p)
          hkind.2.1 with ⟨-, hread⟩ | ⟨hleft, -⟩
        · rw [hread, inside, hstep]
        · rw [inside] at hleft
          exact absurd (hleft.symm.trans htaken) (by decide)
      refine .behind (begun.append (Or.inr list)) ?_ ?_ ?_
      · obtain ⟨u, hu, hlead⟩ := list
        exact ⟨u, List.mem_append_left _ hu, hlead⟩
      · rw [ModifierRun.before_succ hp, hread]
      · rw [ModifierRun.before_succ hp, hread]
        exact angled

/-- A modifier in front of a member. -/
theorem Fits.marks {skip : Option AnnotationSkip} {started listed : Bool}
    {modifiers words : List String} (he : e.isLead = true) (hrole : role ∈ memberRoles)
    (hitems : ∀ i ∈ items, ∀ u ∈ i.uses, u.place < p)
    (h : Fits l role body items p ⟨.lead skip started listed, modifiers⟩ uses)
    (hp : body[p]? = some t) (hmarks : l.marks role t.value = true) :
    Fits l role body items (p + 1) ⟨.lead none true listed, words⟩ (uses ++ [⟨p, e⟩]) := by
  have hread := ModifierRun.read_modifier (p := p) (r := ModifierRun.before l body p) hrole hmarks
  cases h with
  | @front skip started modifiers uses lost tidy leads words free inside =>
      refine .front lost (by simp) ?_ ?_ ?_ ?_
      · intro u hu
        rcases List.mem_append.1 hu with hu | hu
        · exact leads u hu
        · rw [List.mem_singleton.1 hu]
          exact he
      · rw [ModifierRun.before_succ hp, hread, marks_append, marks_singleton_of_marks hp he hmarks,
          ← List.append_assoc, ← words]
      · rw [ModifierRun.before_succ hp, free_read_iff hmarks hrole hitems]
        exact free
      · intro _
        rw [ModifierRun.before_succ hp, hread]
  | behind begun list inside angled =>
      refine .behind (begun.append (Or.inr list)) ?_ ?_ ?_
      · obtain ⟨u, hu, hlead⟩ := list
        exact ⟨u, List.mem_append_left _ hu, hlead⟩
      · rw [ModifierRun.before_succ hp, hread]
      · rw [ModifierRun.before_succ hp, hread]
        exact angled

/-- The token that begins a member. -/
theorem Fits.begun {skip : Option AnnotationSkip} {started listed : Bool}
    {modifiers : List String} (he : e.isLead = true) (hitems : ∀ i ∈ items, i.stop ≤ p)
    (h : Fits l role body items p ⟨.lead skip started listed, modifiers⟩ uses)
    (hp : body[p]? = some t) (hmarks : l.marks role t.value = false)
    (hbegins : beginsMember l role t.value = true) :
    Begun l role body items (uses ++ [⟨p, e⟩]) := by
  cases h with
  | @front skip started modifiers uses lost tidy leads words free inside =>
      have hleading : leading (uses ++ [⟨p, e⟩]) = uses ++ [⟨p, e⟩] := by
        refine leading_eq_self fun u hu => ?_
        rcases List.mem_append.1 hu with hu | hu
        · exact leads u hu
        · rw [List.mem_singleton.1 hu]
          exact he
      have hown : Extractor.marks l role body (leading (uses ++ [⟨p, e⟩])) =
          Extractor.marks l role body uses := by
        rw [hleading, marks_append, marks_singleton_of_not_marks hp hmarks, List.append_nil]
      have hwhole : Extractor.marks l role body uses = (ModifierRun.before l body p).words ↔
          (ModifierRun.before l body p).Free l role (TakenBefore items p) := by
        rw [free_takenBefore_iff hitems, ← free, words]
        constructor
        · intro hnil
          exact List.self_eq_append_left.1 hnil
        · intro hnil
          rw [hnil, List.nil_append]
      refine ⟨p, ?_, ⟨t, hp, hbegins⟩, ?_, ?_, ?_⟩
      · rw [start?, hleading]
        simp
      · rw [hown, words]
        exact List.suffix_append _ _
      · rw [hown]
        exact hwhole.1
      · rw [hown]
        exact fun hfree _ => hwhole.2 hfree
  | behind begun list inside angled => exact begun.append (Or.inr list)

/-- The end of a member is no part of an annotation. -/
theorem not_skipped_of_endsMember {t : Token} (h : endsMember t = true)
    (skip : Option AnnotationSkip) : (AnnotationSkip.step l skip t).2 = false := by
  rw [endsMember, Bool.or_eq_true, Bool.or_eq_true, or_assoc] at h
  rw [Bool.eq_false_iff]
  intro htaken
  have hblock : ∀ bracket, t.isBlock bracket = true → bracket = '\x7b' := by
    intro bracket hb
    rcases h with h | h | h
    · exact absurd (Token.kind_of_isSeparator h) (by rw [Token.kind_of_isBlock hb]; decide)
    · exact absurd (Token.kind_of_isSeparator h) (by rw [Token.kind_of_isBlock hb]; decide)
    · refine Classical.byContradiction fun hne => ?_
      rw [Token.isBlock_ne hb hne] at h
      exact absurd h Bool.false_ne_true
  rcases AnnotationSkip.step_taken (Prod.ext rfl htaken) with
    ⟨-, -, hb⟩ | ⟨-, ⟨-, -, hs⟩ | ⟨-, -, hi⟩ | ⟨-, -, hb⟩⟩
  · exact absurd (hblock _ hb) (by decide)
  · rcases h with h | h | h
    · rw [Token.isSeparator_ne hs (by decide)] at h
      exact absurd h Bool.false_ne_true
    · rw [Token.isSeparator_ne hs (by decide)] at h
      exact absurd h Bool.false_ne_true
    · exact absurd (Token.kind_of_isBlock h) (by rw [Token.kind_of_isSeparator hs]; decide)
  · rcases h with h | h | h
    · exact absurd (Token.kind_of_isSeparator h) (by rw [hi]; decide)
    · exact absurd (Token.kind_of_isSeparator h) (by rw [hi]; decide)
    · exact absurd (Token.kind_of_isBlock h) (by rw [hi]; decide)
  · exact absurd (hblock _ hb) (by decide)

/-- A token ends the run if it is an operator or ends a member. -/
theorem words_read_eq_nil {r : ModifierRun}
    (h : t.value.kind = .operator ∨ endsMember t.value = true) :
    (r.read l p t.value).words = [] := by
  rcases h with h | h
  · rw [ModifierRun.read_operator h]
  · have hskip := not_skipped_of_endsMember (l := l) h
    have hkind : t.value.kind ≠ .keyword ∧ t.value.kind ≠ .comment := by
      rw [endsMember, Bool.or_eq_true, Bool.or_eq_true] at h
      rcases h with (h | h) | h
      · rw [Token.kind_of_isSeparator h]; decide
      · rw [Token.kind_of_isSeparator h]; decide
      · rw [Token.kind_of_isBlock h]; decide
    rw [ModifierRun.read_other hkind.2 hskip hkind.1]

/-- The tokens of a machine behind the token at the place `p`. -/
theorem KeepsUp.texts_append {a : Stance} (h : KeepsUp l role body items p a uses)
    (hnil : marks l role body [⟨p, e⟩] = []) :
    a.modifiers = (marks l role body (uses ++ [⟨p, e⟩])).map (·.2) := by
  rw [marks_append, hnil, List.append_nil]
  exact h.texts

/-- A token after which the member goes on leaves the machine in step with the run. -/
theorem KeepsUp.goes {a b : Stance} {taken : Bool} (ha : e.stance = a) (hrole : role ∈ memberRoles)
    (hitems : ∀ i ∈ items, Ended l role body items p i)
    (h : KeepsUp l role body items p a uses) (hp : body[p]? = some t)
    (ht : t.value.kind ≠ .comment) (hmoves : Moves l role t.value a b taken)
    (hf : b.phase.isFailed = false) (hc : b.phase.isComplete = false) :
    KeepsUp l role body items (p + 1) b (if taken then uses ++ [⟨p, e⟩] else uses) := by
  have hlead : e.isLead = a.phase.isLead := by rw [isLead, ha]
  have hbelow : ∀ i ∈ items, ∀ u ∈ i.uses, u.place < p := fun i hi => (hitems i hi).below
  have hstops : ∀ i ∈ items, i.stop ≤ p := fun i hi => Nat.le_of_lt (hitems i hi).stop
  have hfits := h.fits
  -- behind the beginning of a member no token counts as a modifier
  have htexts : a.phase.isLead = false →
      a.modifiers = (marks l role body (uses ++ [⟨p, e⟩])).map (·.2) :=
    fun ha => h.texts_append (marks_singleton_of_not_lead (hlead.trans ha))
  cases hmoves with
  | @skips skip skip' started listed modifiers hstep =>
      have hmarks : l.marks role t.value = false := ModifierRun.not_marks_of_skipped hstep
      exact ⟨h.texts_append (marks_singleton_of_not_marks hp hmarks), hfits.skips hlead hp hstep⟩
  | @marks skip started listed modifiers hmarks =>
      refine ⟨?_, hfits.marks hlead hrole hbelow hp hmarks⟩
      rw [if_pos rfl, marks_append, marks_singleton_of_marks hp hlead hmarks, List.map_append,
        ← h.texts]
      rfl
  | begins hskip hmarks hbegins hphase =>
      have htexts := h.texts_append (marks_singleton_of_not_marks (e := e) hp hmarks)
      have hbegun := hfits.begun hlead hstops hp hmarks hbegins
      rcases hphase with rfl | rfl
      · exact ⟨htexts, .middle hbegun (hfits.lost hp ht hskip hmarks)⟩
      · exact ⟨htexts, .sealed hbegun⟩
  | @lingers skip listed modifiers hskip hmarks =>
      have hlost := hfits.lost hp ht hskip hmarks
      obtain ⟨htexts, -⟩ := h
      cases hfits with
      | front lost tidy leads words free inside =>
          obtain rfl := tidy rfl
          have hnil : marks l role body uses = [] := List.map_eq_nil_iff.1 htexts.symm
          exact ⟨htexts, fits_of_lost (fun _ => rfl) leads hnil hlost⟩
  | gives => exact absurd hf (by simp [Phase.isFailed])
  | breaks => exact absurd hf (by simp [Phase.isFailed])
  | reads hmarks =>
      cases hfits with
      | middle begun lost =>
          refine ⟨htexts rfl, .middle (begun.append (Or.inl hlead)) ?_⟩
          rw [ModifierRun.before_succ hp]
          exact lost.read hmarks
  | assigns hop =>
      cases hfits with
      | middle begun lost =>
          refine ⟨htexts rfl, .initializer (begun.append (Or.inl hlead)) ?_⟩
          rw [ModifierRun.before_succ hp, words_read_eq_nil (Or.inl hop)]
          simp
  | seals =>
      cases hfits with
      | middle begun lost => exact ⟨htexts rfl, .sealed (begun.append (Or.inl hlead))⟩
  | initializes =>
      cases hfits with
      | initializer begun used =>
          refine ⟨htexts rfl, .initializer (begun.append (Or.inl hlead)) fun x hx => ?_⟩
          rw [ModifierRun.before_succ hp] at hx
          rcases ModifierRun.mem_words_read hx with hx | rfl
          · obtain ⟨u, hu, hux⟩ := used x hx
            exact ⟨u, List.mem_append_left _ hu, hux⟩
          · exact ⟨⟨p, e⟩, by simp, rfl⟩
  | passes =>
      cases hfits with
      | sealed begun => exact ⟨htexts rfl, .sealed (begun.append (Or.inl hlead))⟩
  | closes hangles =>
      cases hfits with
      | sealed begun =>
          have hkind : t.value.kind = .operator :=
            beq_iff_eq.1 (Bool.and_eq_true_iff.1 hangles).1
          have hread := ModifierRun.read_operator (l := l) (p := p)
            (r := ModifierRun.before l body p) hkind
          refine ⟨htexts rfl, .behind (begun.append (Or.inl hlead))
            ⟨⟨p, e⟩, by simp, hlead⟩ ?_ ?_⟩
          · rw [ModifierRun.before_succ hp, hread]
          · rw [ModifierRun.before_succ hp, hread]
            exact hangles
  | ends => exact absurd hc (by simp [Phase.isComplete])
  | early => exact absurd hc (by simp [Phase.isComplete])
  | fails => exact absurd hf (by simp [Phase.isFailed])

variable {o : Owner}

/-- A machine that starts anew in front of the token `t` at the place `p` has lost the run, unless a
list of type parameters begins there for the second time. -/
structure Released (l : Language) (role : Capability) (body : List TokenTree) (items : List Item)
    (p : Nat) (t : Token) : Prop where
  /-- Behind a token that is no modifier of the role the run is lost. -/
  lost : l.marks role t = false →
    (ModifierRun.before l body (p + 1)).Lost l role (Taken items)
  /-- In front of such a modifier it is lost. -/
  clean : l.marks role t = true → (ModifierRun.before l body p).Lost l role (Taken items)
  /-- In front of a token that begins a member it is lost. -/
  begins : beginsMember l role t = true → ¬ ListTwice l body p →
    (ModifierRun.before l body p).Lost l role (Taken items)

theorem released_of_lost (hp : body[p]? = some t)
    (h : (ModifierRun.before l body p).Lost l role (Taken items)) :
    Released l role body items p t.value := by
  refine ⟨fun hmarks => ?_, fun _ => h, fun _ _ => h⟩
  rw [ModifierRun.before_succ hp]
  exact h.read hmarks

/-- A machine that starts anew with a token that begins a member and is no modifier has read the
modifiers of that member: none, and the run holds none for it. -/
theorem Released.begun (h : Released l role body items p t.value) (hp : body[p]? = some t)
    (hlead : e.isLead = true) (hitems : ∀ i ∈ items, i.stop ≤ p)
    (hbegin : beginsMember l role t.value = true) (hmarks : l.marks role t.value = false) :
    Begun l role body items [⟨p, e⟩] := by
  have hnil : marks l role body [⟨p, e⟩] = [] := marks_singleton_of_not_marks hp hmarks
  have hleading : leading [⟨p, e⟩] = [⟨p, e⟩] :=
    leading_eq_self fun u hu => by rw [List.mem_singleton.1 hu]; exact hlead
  refine ⟨p, ?_, ⟨t, hp, hbegin⟩, ?_, ?_, ?_⟩
  · rw [start?, hleading]
    rfl
  · rw [hleading, hnil]
    exact List.nil_suffix
  · rw [hleading, hnil]
    exact fun hwords => ModifierRun.free_of_words_eq_nil hwords.symm
  · rw [hleading, hnil, free_takenBefore_iff hitems]
    exact fun hfree htwice => (h.begins hbegin htwice hfree).symm

/-- A machine that starts anew in front of a token is in step with the run behind it. -/
theorem keepsUp_restart (he : e.role? = some role) (hidle : e.stance = .idle)
    (hw : e.Waits o.language) (hp : body[p]? = some t) (ht : t.kind ≠ .comment)
    (hitems : ∀ i ∈ items, i.stop ≤ p ∧ ∀ u ∈ i.uses, u.place < p)
    (hreleased : Released o.language role body items p t.value) :
    (e.accept o t).state.isComplete = false ∧
      KeepsUp o.language role body items (p + 1) (Tracked.restart o p t e).machine.stance
        (Tracked.restart o p t e).uses := by
  have hlead : e.isLead = true := by rw [isLead, hidle]; rfl
  have hmoves := moves_accept he hw ht
  have hstate : (e.accept o t).state.role? = some role := by
    rw [role?_of_name (Tracked.name_accept o e t)]
    exact he
  rw [hidle] at hmoves
  unfold Tracked.restart
  dsimp only
  rw [isComplete_eq hstate, isFailed_eq hstate]
  generalize hb : (e.accept o t).state.stance = b at hmoves
  generalize (e.accept o t).taken = taken at hmoves ⊢
  have hgoing : ∀ {uses : List Use},
      KeepsUp o.language role body items (p + 1) b uses →
      KeepsUp o.language role body items (p + 1)
        (Tracked.going (e.accept o t).state uses).machine.stance
        (Tracked.going (e.accept o t).state uses).uses :=
    fun h => KeepsUp.going (by rw [hb]; exact h) hstate
  have hnil : o.language.marks role t.value = false →
      marks o.language role body [⟨p, e⟩] = [] := marks_singleton_of_not_marks hp
  have hleads : ∀ u ∈ ([⟨p, e⟩] : List Use), u.state.isLead = true := by
    intro u hu
    rw [List.mem_singleton.1 hu]
    exact hlead
  have hbegun := fun hbegin hmarks => hreleased.begun hp hlead
    (fun i hi => (hitems i hi).1) hbegin hmarks
  obtain ⟨hlost, hclean, -⟩ := hreleased
  cases hmoves with
  | @skips _ skip' _ _ _ hstep =>
      have hmarks : o.language.marks role t.value = false :=
        ModifierRun.not_marks_of_skipped hstep
      exact ⟨rfl, hgoing ⟨by rw [if_pos rfl, hnil hmarks]; rfl,
        fits_of_lost (fun _ => rfl) hleads (hnil hmarks) (hlost hmarks)⟩⟩
  | marks hmarks =>
      have hread := ModifierRun.read_modifier (p := p)
        (r := ModifierRun.before o.language body p) (mem_memberRoles he) hmarks
      have hown := marks_singleton_of_marks (l := o.language) hp hlead hmarks
      refine ⟨rfl, hgoing ⟨by rw [if_pos rfl, hown]; rfl,
        .front (ModifierRun.before o.language body p).words (by simp) hleads ?_ ?_ ?_⟩⟩
      · rw [ModifierRun.before_succ hp, hread, if_pos rfl, hown]
      · rw [ModifierRun.before_succ hp,
          free_read_iff hmarks (mem_memberRoles he) fun i hi => (hitems i hi).2]
        exact ⟨fun hwords => ModifierRun.free_of_words_eq_nil hwords, hclean hmarks⟩
      · intro _
        rw [ModifierRun.before_succ hp, hread]
  | begins hskip hmarks hbegin hphase =>
      rcases hphase with rfl | rfl
      · exact ⟨rfl, hgoing ⟨by rw [if_pos rfl, hnil hmarks]; rfl,
          .middle (hbegun hbegin hmarks) (hlost hmarks)⟩⟩
      · exact ⟨rfl, hgoing ⟨by rw [if_pos rfl, hnil hmarks]; rfl, .sealed (hbegun hbegin hmarks)⟩⟩
  | lingers hskip hmarks => exact ⟨rfl, hgoing (keepsUp_idle (hlost hmarks))⟩
  | breaks hskip hmarks =>
      refine ⟨rfl, ?_⟩
      show KeepsUp o.language role body items (p + 1) (e.accept o t).state.reset.stance []
      rw [stance_reset hstate]
      exact keepsUp_idle (hlost hmarks)
  | ends hphase => rcases hphase with h | h | h <;> exact absurd h (by simp)
  | early hphase => rcases hphase with h | h <;> exact absurd h (by simp)

/-- A token that is used up where a member fails loses the run. -/
theorem KeepsUp.lost_of_failed {a b : Stance} (h : KeepsUp l role body items p a uses)
    (hp : body[p]? = some t) (ht : t.value.kind ≠ .comment)
    (hmoves : Moves l role t.value a b true) (hf : b.phase.isFailed = true) :
    (ModifierRun.before l body (p + 1)).Lost l role (Taken items) := by
  obtain ⟨-, hfits⟩ := h
  cases hmoves with
  | breaks hskip hmarks => exact hfits.lost hp ht hskip hmarks
  | fails hmarks =>
      cases hfits with
      | middle begun lost =>
          rw [ModifierRun.before_succ hp]
          exact lost.read (hmarks rfl)
  | begins hskip hmarks hbegins hphase =>
      rcases hphase with rfl | rfl <;> exact absurd hf Bool.false_ne_true
  | _ => exact absurd hf Bool.false_ne_true

/-- A token that is left where a member fails may begin another one. -/
theorem KeepsUp.released_of_failed {a b : Stance} (h : KeepsUp l role body items p a uses)
    (hp : body[p]? = some t) (ht : t.value.kind ≠ .comment)
    (hmoves : Moves l role t.value a b false) (hf : b.phase.isFailed = true) :
    Released l role body items p t.value := by
  obtain ⟨-, hfits⟩ := h
  cases hmoves with
  | gives hskip hmarks hbegins =>
      refine ⟨fun _ => hfits.lost hp ht hskip hmarks, ?_, ?_⟩
      · intro hmarks'
        exact absurd (hmarks.symm.trans hmarks') (by decide)
      · intro hbegin htwice
        obtain ⟨rfl, hangle⟩ := hbegins hbegin
        cases hfits with
        | behind begun list inside angled => exact absurd ⟨angled, t, hp, hangle⟩ htwice
  | fails hmarks =>
      cases hfits with
      | middle begun lost => exact released_of_lost hp lost
  | _ => exact absurd hf Bool.false_ne_true

/-- A member that ends has begun, and its modifiers stay. -/
theorem KeepsUp.of_complete {a b : Stance} {taken : Bool} (ha : e.stance = a)
    (h : KeepsUp l role body items p a uses) (hmoves : Moves l role t.value a b taken)
    (hc : b.phase.isComplete = true) :
    b.modifiers =
        (marks l role body (if taken then uses ++ [⟨p, e⟩] else uses)).map (·.2) ∧
      Begun l role body items uses ∧ e.isLead = false := by
  have hlead : e.isLead = a.phase.isLead := by rw [isLead, ha]
  obtain ⟨htexts, hfits⟩ := id h
  cases hmoves with
  | ends hphase hend =>
      rcases hphase with rfl | rfl | rfl
      all_goals
        refine ⟨h.texts_append (marks_singleton_of_not_lead hlead), ?_, hlead⟩
        cases hfits
        assumption
  | early hphase =>
      rcases hphase with rfl | rfl
      all_goals
        refine ⟨htexts, ?_, hlead⟩
        cases hfits
        assumption
  | begins hskip hmarks hbegins hphase =>
      rcases hphase with rfl | rfl <;> exact absurd hc Bool.false_ne_true
  | _ => exact absurd hc Bool.false_ne_true

/-- The token that ends a member ends the run. -/
theorem words_eq_nil_of_complete {a b : Stance} (hp : body[p]? = some t)
    (hmoves : Moves l role t.value a b true) (hc : b.phase.isComplete = true) :
    (ModifierRun.before l body (p + 1)).words = [] := by
  cases hmoves with
  | ends hphase hend =>
      rw [ModifierRun.before_succ hp, words_read_eq_nil (Or.inr hend)]
  | begins hskip hmarks hbegins hphase =>
      rcases hphase with rfl | rfl <;> exact absurd hc Bool.false_ne_true
  | _ => exact absurd hc Bool.false_ne_true

/-- A machine that fails without using the token up is not idle. -/
theorem not_isIdle_of_failed {t : Token} {a b : Stance} (hmoves : Moves l role t a b false)
    (hf : b.phase.isFailed = true) : a.phase.isIdle = false := by
  cases hmoves with
  | @gives skip => cases skip <;> rfl
  | fails => rfl
  | _ => exact absurd hf Bool.false_ne_true

/-- A token in front of which a member has ended may begin another one.  The words of the run in an
initializer belong to the member that has ended. -/
theorem KeepsUp.released_of_complete {a b : Stance} {i : Item}
    (h : KeepsUp l role body items p a uses) (hp : body[p]? = some t) (hi : i.uses = uses)
    (hmoves : Moves l role t.value a b false) (hc : b.phase.isComplete = true) :
    Released l role body (items ++ [i]) p t.value := by
  obtain ⟨-, hfits⟩ := h
  refine released_of_lost hp ?_
  cases hmoves with
  | early hphase =>
      rcases hphase with rfl | rfl
      · cases hfits with
        | middle begun lost =>
            intro hfree
            refine lost (hfree.mono ?_)
            rintro x - ⟨j, hj, hq⟩
            exact ⟨j, List.mem_append_left _ hj, hq⟩
      · cases hfits with
        | initializer begun used =>
            intro hfree
            refine List.eq_nil_iff_forall_not_mem.2 fun x hx => (hfree.fits x hx).2 ?_
            refine ⟨i, by simp, ?_⟩
            rw [Item.mem_places, hi]
            exact used x hx
  | _ => exact absurd hc Bool.false_ne_true

theorem Ended.later {i : Item} {later : List Item} (h : Ended l role body items p i)
    (hlater : ∀ j ∈ later, j.stop = p) :
    Ended l role body (items ++ later) (p + 1) i where
  texts := h.texts
  begun := h.begun.append_items fun j hj u hu => by
    rw [hlater j hj]
    exact h.below u hu
  below := fun u hu => Nat.lt_succ_of_lt (h.below u hu)
  stop := Nat.lt_succ_of_lt h.stop

theorem Fits.going {a : Stance} (h : Fits l role body items p a uses) :
    a.phase.isFailed = false ∧ a.phase.isComplete = false := by
  cases h <;> exact ⟨rfl, rfl⟩

/-- A comment changes neither the machine nor the run. -/
theorem KeepsUp.comment {a : Stance} (h : KeepsUp l role body items p a uses)
    (hp : body[p]? = some t) (ht : t.value.kind = .comment) :
    KeepsUp l role body items (p + 1) a uses := by
  have hrun : ModifierRun.before l body (p + 1) = ModifierRun.before l body p := by
    rw [ModifierRun.before_succ hp, ModifierRun.read_comment ht]
  obtain ⟨htexts, hfits⟩ := h
  refine ⟨htexts, ?_⟩
  cases hfits with
  | front lost tidy leads words free inside =>
      rw [← hrun] at words free inside
      exact .front lost tidy leads words free inside
  | behind begun list inside angled =>
      rw [← hrun] at inside angled
      exact .behind begun list inside angled
  | middle begun lost =>
      rw [← hrun] at lost
      exact .middle begun lost
  | initializer begun used =>
      rw [← hrun] at used
      exact .initializer begun used
  | sealed begun => exact .sealed begun

/-! ## Offers -/

/-- What an offer of the token `t` at the place `p` keeps: the machine that is left is in step with
the run behind the token, and so were the members that have ended. -/
def OfferKeepsUp (o : Owner) (role : Capability) (body : List TokenTree) (items : List Item) (p : Nat)
    (t : TokenTree) (w : Tracked) : Prop :=
  KeepsUp o.language role body (items ++ (w.offer o p t).2.1) (p + 1)
      (w.offer o p t).1.machine.stance (w.offer o p t).1.uses ∧
    ∀ i ∈ (w.offer o p t).2.1, Ended o.language role body (items ++ (w.offer o p t).2.1) (p + 1) i

section Offer

variable (hw : e.role? = some role) (hwaits : e.Waits o.language)
  (hstops : ∀ i ∈ items, i.stop ≤ p ∧ ∀ u ∈ i.uses, u.place < p)
  (h : KeepsUp o.language role body items p e.stance uses) (hp : body[p]? = some t)
  (ht : t.kind ≠ .comment)

include hw

theorem stance_reset_accept : (e.accept o t).state.reset.stance = .idle :=
  stance_reset (by rw [role?_of_name (Tracked.name_accept o e t)]; exact hw)

include hwaits h hp ht

/-- The member fails with the token. -/
theorem keepsUp_taken_failed (hf : (e.accept o t).state.isFailed = true)
    (htaken : (e.accept o t).taken = true) : OfferKeepsUp o role body items p t ⟨e, uses⟩ := by
  have hstate := (role?_of_name (Tracked.name_accept o e t)).trans hw
  have hmoves := moves_accept hw hwaits ht
  rw [htaken] at hmoves
  unfold OfferKeepsUp
  rw [Tracked.offer_of_taken_failed rfl hf htaken, List.append_nil, stance_reset_accept hw]
  exact ⟨keepsUp_idle (h.lost_of_failed hp ht hmoves ((isFailed_eq hstate).symm.trans hf)),
    by simp⟩

/-- The member ends with the token. -/
theorem keepsUp_taken_complete (hbelow : ∀ u ∈ uses, u.place < p)
    (hf : (e.accept o t).state.isFailed = false) (hc : (e.accept o t).state.isComplete = true)
    (htaken : (e.accept o t).taken = true) : OfferKeepsUp o role body items p t ⟨e, uses⟩ := by
  have hstate := (role?_of_name (Tracked.name_accept o e t)).trans hw
  have hcomplete := (isComplete_eq hstate).symm.trans hc
  have hmoves := moves_accept hw hwaits ht
  obtain ⟨htexts, hbegun, hlead⟩ := h.of_complete (e := e) rfl hmoves hcomplete
  rw [htaken] at hmoves htexts
  unfold OfferKeepsUp
  rw [Tracked.offer_of_taken_complete rfl hf hc htaken, stance_reset_accept hw]
  refine ⟨keepsUp_idle fun _ => words_eq_nil_of_complete hp hmoves hcomplete, ?_⟩
  intro i hi
  obtain rfl := List.mem_singleton.1 hi
  refine ⟨htexts, ?_, fun u hu => ?_, Nat.lt_succ_self p⟩
  · refine Begun.append (hbegun.append_items fun j hj u hu => ?_) (Or.inl hlead)
    rw [List.mem_singleton.1 hj]
    exact hbelow u hu
  · rcases List.mem_append.1 hu with hu | hu
    · exact Nat.lt_succ_of_lt (hbelow u hu)
    · rw [List.mem_singleton.1 hu]
      exact Nat.lt_succ_self p

include hstops

/-- The member fails in front of the token, which is offered again. -/
theorem keepsUp_left_failed (hf : (e.accept o t).state.isFailed = true)
    (htaken : (e.accept o t).taken = false) : OfferKeepsUp o role body items p t ⟨e, uses⟩ := by
  have hstate := (role?_of_name (Tracked.name_accept o e t)).trans hw
  have hreset := (role?_of_name (Tracked.name_reset _)).trans hstate
  have hfailed := (isFailed_eq hstate).symm.trans hf
  have hmoves := moves_accept hw hwaits ht
  rw [htaken] at hmoves
  obtain ⟨hopen, hfollows⟩ := keepsUp_restart hreset (stance_reset_accept hw)
    (waits_reset hstate) hp ht hstops (h.released_of_failed hp ht hmoves hfailed)
  obtain ⟨hrest, hnone⟩ := Tracked.offer_of_left_failed (w := ⟨e, uses⟩) (p := p) rfl hf htaken hopen
  have hbusy : e.isIdle = false := by
    rw [isIdle_eq hw]
    exact not_isIdle_of_failed hmoves hfailed
  unfold OfferKeepsUp
  rw [hrest, hnone, List.append_nil, if_neg (by rw [hbusy]; exact Bool.false_ne_true)]
  exact ⟨hfollows, by simp⟩

/-- The member has ended in front of the token, which is offered again. -/
theorem keepsUp_left_complete (hbelow : ∀ u ∈ uses, u.place < p)
    (hf : (e.accept o t).state.isFailed = false) (hc : (e.accept o t).state.isComplete = true)
    (htaken : (e.accept o t).taken = false) : OfferKeepsUp o role body items p t ⟨e, uses⟩ := by
  have hstate := (role?_of_name (Tracked.name_accept o e t)).trans hw
  have hreset := (role?_of_name (Tracked.name_reset _)).trans hstate
  have hcomplete := (isComplete_eq hstate).symm.trans hc
  have hmoves := moves_accept hw hwaits ht
  obtain ⟨htexts, hbegun, -⟩ := h.of_complete (e := e) rfl hmoves hcomplete
  rw [htaken] at hmoves htexts
  have hstops' : ∀ i ∈ items ++ [⟨(e.accept o t).state, uses, p, true⟩],
      i.stop ≤ p ∧ ∀ u ∈ i.uses, u.place < p := by
    intro i hi
    rcases List.mem_append.1 hi with hi | hi
    · exact hstops i hi
    · rw [List.mem_singleton.1 hi]
      exact ⟨Nat.le_refl p, hbelow⟩
  obtain ⟨hopen, hfollows⟩ := keepsUp_restart hreset (stance_reset_accept hw)
    (waits_reset hstate) hp ht hstops' (h.released_of_complete hp rfl hmoves hcomplete)
  obtain ⟨hrest, hitem⟩ :=
    Tracked.offer_of_left_complete (w := ⟨e, uses⟩) (p := p) rfl hf hc htaken hopen
  unfold OfferKeepsUp
  rw [hrest, hitem]
  refine ⟨hfollows, ?_⟩
  intro i hi
  obtain rfl := List.mem_singleton.1 hi
  refine ⟨htexts, hbegun.append_items fun j hj u hu => ?_,
    fun u hu => Nat.lt_succ_of_lt (hbelow u hu), Nat.lt_succ_self p⟩
  rw [List.mem_singleton.1 hj]
  exact hbelow u hu

end Offer

/-- One token keeps a machine in step with the run. -/
theorem KeepsUp.step {w : Tracked} (hw : w.machine.role? = some role)
    (hwaits : w.machine.Waits o.language) (hbelow : ∀ u ∈ w.uses, u.place < p)
    (hitems : ∀ i ∈ items, Ended o.language role body items p i)
    (h : KeepsUp o.language role body items p w.machine.stance w.uses) (hp : body[p]? = some t) :
    KeepsUp o.language role body (items ++ (w.offer o p t).2.1) (p + 1)
        (w.offer o p t).1.machine.stance (w.offer o p t).1.uses ∧
      ∀ i ∈ (w.offer o p t).2.1,
        Ended o.language role body (items ++ (w.offer o p t).2.1) (p + 1) i := by
  obtain ⟨e, uses⟩ := w
  have hstops : ∀ i ∈ items, i.stop ≤ p ∧ ∀ u ∈ i.uses, u.place < p :=
    fun i hi => ⟨Nat.le_of_lt (hitems i hi).stop, (hitems i hi).below⟩
  by_cases ht : t.kind = .comment
  · obtain ⟨hnotFailed, hnotComplete⟩ := h.fits.going
    rw [Tracked.offer_comment p uses (readsMembers_of_role hw) ht
      (by rw [isFailed_eq hw]; exact hnotFailed) (by rw [isComplete_eq hw]; exact hnotComplete),
      List.append_nil]
    exact ⟨(h.comment hp ht).going hw, by simp⟩
  · have hstate := (role?_of_name (Tracked.name_accept o e t)).trans hw
    cases hf : (e.accept o t).state.isFailed with
    | true =>
        cases htaken : (e.accept o t).taken with
        | true => exact keepsUp_taken_failed hw hwaits h hp ht hf htaken
        | false => exact keepsUp_left_failed hw hwaits hstops h hp ht hf htaken
    | false =>
        cases hc : (e.accept o t).state.isComplete with
        | true =>
            cases htaken : (e.accept o t).taken with
            | true => exact keepsUp_taken_complete hw hwaits h hp ht hbelow hf hc htaken
            | false => exact keepsUp_left_complete hw hwaits hstops h hp ht hbelow hf hc htaken
        | false =>
            have hgoes := h.goes rfl (mem_memberRoles hw) hitems hp ht (moves_accept hw hwaits ht)
              ((isFailed_eq hstate).symm.trans hf) ((isComplete_eq hstate).symm.trans hc)
            rw [Tracked.offer_of_going rfl hf hc, List.append_nil]
            exact ⟨hgoes.going hstate, by simp⟩

end Extractor

end Outline
