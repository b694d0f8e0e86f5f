import Outline.Proofs.Member.FieldOffer

/-!
# Runs of modifiers

The modifiers of a member are the keywords right in front of it that the language marks as such,
whatever declarations they are meant for; comments and annotations may stand between them.
`ModifierRun.before` reads the run that ends in front of a place of a body.

* `ModifierRun.Free` — when the reader of one kind of members takes the whole run.
* `ModifierRun.lost_read` — a token that this reader does not take loses the run for it.
-/

namespace Outline

/-- Whether a token is a keyword that may be a modifier of a declaration, a field or a method. -/
def Language.isModifier (l : Language) (t : Token) : Bool :=
  l.marks .classModifier t || l.marks .fieldModifier t || l.marks .methodModifier t

/-- The roles of the modifiers of members. -/
def memberRoles : List Capability := [.fieldModifier, .methodModifier]

/-- The modifiers right in front of a place, with the annotations between them. -/
structure ModifierRun where
  /-- The place inside an annotation. -/
  skip : Option AnnotationSkip := none
  /-- The modifiers with their places. -/
  words : List (Nat × String) := []
  /-- Whether behind a modifier an annotation without arguments is followed by another one. -/
  doubled : Bool := false
  /-- Whether the run stands behind angle brackets. -/
  angled : Bool := false

namespace ModifierRun

/-- Reads the token at the place `p`.  A token that is neither a comment, nor part of an annotation,
nor a modifier ends the run, and the next one begins behind it. -/
def read (l : Language) (p : Nat) (t : Token) (r : ModifierRun) : ModifierRun :=
  if t.kind == .comment then r
  else match AnnotationSkip.step l r.skip t with
    | (skip, true) => { r with skip }
    | (_, false) =>
      match AnnotationSkip.step l none t with
      | (again, true) => { r with skip := again, doubled := r.doubled || !r.words.isEmpty }
      | (_, false) =>
        if l.isModifier t then { r with skip := none, words := r.words ++ [(p, t.text)] }
        else { angled := TypeParamList.isAngles t }

/-- The run that ends in front of the place `p`. -/
def before (l : Language) (body : List TokenTree) : Nat → ModifierRun
  | 0 => {}
  | p + 1 =>
    match body[p]? with
    | some t => (before l body p).read l p t.value
    | none => before l body p

/-- Whether the reader of members with the given role takes the whole run: each word plays the role
and has not been taken before, and no annotation begins where another one may have arguments. -/
structure Free (l : Language) (role : Capability) (taken : Nat → Prop) (r : ModifierRun) :
    Prop where
  /-- Annotations are told apart. -/
  single : r.doubled = false
  /-- Each word is a modifier of such members and has not been taken. -/
  fits : ∀ x ∈ r.words, l.has role x.2 = true ∧ ¬ taken x.1

/-- The reader does not take the whole run, or there is nothing to take. -/
def Lost (l : Language) (role : Capability) (taken : Nat → Prop) (r : ModifierRun) : Prop :=
  r.Free l role taken → r.words = []

variable {l : Language} {role : Capability} {taken : Nat → Prop} {p : Nat} {t : Token}
  {r : ModifierRun}

/-! ## One token -/

theorem read_comment (ht : t.kind = .comment) : r.read l p t = r := by
  rw [read, if_pos (beq_iff_eq.2 ht)]

/-- What a token that is no comment makes of a run. -/
theorem read_cases (ht : t.kind ≠ .comment) :
    ((AnnotationSkip.step l r.skip t).2 = true ∧
        r.read l p t = { r with skip := (AnnotationSkip.step l r.skip t).1 }) ∨
      (AnnotationSkip.step l r.skip t).2 = false ∧
        (((AnnotationSkip.step l none t).2 = true ∧
            r.read l p t = { r with
              skip := (AnnotationSkip.step l none t).1
              doubled := r.doubled || !r.words.isEmpty }) ∨
          (l.isModifier t = true ∧
            r.read l p t = { r with skip := none, words := r.words ++ [(p, t.text)] }) ∨
          l.isModifier t = false ∧ r.read l p t = { angled := TypeParamList.isAngles t }) := by
  have hkind : (t.kind == .comment) = false := beq_eq_false_iff_ne.2 ht
  unfold read
  rw [if_neg (by rw [hkind]; exact Bool.false_ne_true)]
  split
  · rename_i hstep
    exact Or.inl (by rw [hstep]; exact ⟨rfl, rfl⟩)
  · rename_i hleft
    refine Or.inr ⟨by rw [hleft], ?_⟩
    split
    · rename_i hstep
      exact Or.inl (by rw [hstep]; exact ⟨rfl, rfl⟩)
    · split
      · exact Or.inr (Or.inl ⟨‹_›, rfl⟩)
      · exact Or.inr (Or.inr ⟨by simpa using ‹¬ l.isModifier t = true›, rfl⟩)

/-- A token of an annotation is neither a keyword nor a comment nor an operator. -/
theorem kind_of_skipped {skip skip' : Option AnnotationSkip}
    (h : AnnotationSkip.step l skip t = (skip', true)) :
    t.kind ≠ .keyword ∧ t.kind ≠ .comment ∧ t.kind ≠ .operator := by
  rcases AnnotationSkip.step_taken h with
    ⟨-, -, hb⟩ | ⟨-, ⟨-, -, hs⟩ | ⟨-, -, hi⟩ | ⟨-, -, hb⟩⟩
  · rw [Token.kind_of_isBlock hb]; decide
  · rw [Token.kind_of_isSeparator hs]; decide
  · rw [hi]; decide
  · rw [Token.kind_of_isBlock hb]; decide

theorem not_skipped_of_kind (ht : t.kind = .keyword ∨ t.kind = .operator)
    (skip : Option AnnotationSkip) : (AnnotationSkip.step l skip t).2 = false := by
  rw [Bool.eq_false_iff]
  intro h
  obtain ⟨hkeyword, -, hoperator⟩ := kind_of_skipped (Prod.ext rfl h)
  exact ht.elim hkeyword hoperator

theorem not_marks_of_skipped {skip skip' : Option AnnotationSkip}
    (h : AnnotationSkip.step l skip t = (skip', true)) : l.marks role t = false := by
  rw [Bool.eq_false_iff]
  exact fun hmarks => (kind_of_skipped h).1 (Language.kind_of_marks hmarks)

theorem isModifier_of_marks (hrole : role ∈ memberRoles) (h : l.marks role t = true) :
    l.isModifier t = true := by
  rcases List.mem_cons.1 hrole with rfl | hrole
  · simp [Language.isModifier, h]
  · obtain rfl := List.mem_singleton.1 hrole
    simp [Language.isModifier, h]

theorem kind_of_isModifier (h : l.isModifier t = true) : t.kind = .keyword := by
  rw [Language.isModifier, Bool.or_eq_true, Bool.or_eq_true] at h
  rcases h with (h | h) | h <;> exact Language.kind_of_marks h

/-- A modifier of members continues the run. -/
theorem read_modifier (hrole : role ∈ memberRoles) (h : l.marks role t = true) :
    r.read l p t = { r with skip := none, words := r.words ++ [(p, t.text)] } := by
  have hkind := Language.kind_of_marks h
  have hskip := not_skipped_of_kind (l := l) (Or.inl hkind)
  rcases read_cases (l := l) (p := p) (r := r) (t := t) (by rw [hkind]; decide) with
    ⟨hstep, -⟩ | ⟨-, ⟨hstep, -⟩ | ⟨-, hread⟩ | ⟨hnot, -⟩⟩
  · exact absurd ((hskip r.skip).symm.trans hstep) (by decide)
  · exact absurd ((hskip none).symm.trans hstep) (by decide)
  · exact hread
  · rw [isModifier_of_marks hrole h] at hnot
    exact absurd hnot (by decide)

/-- A token that is neither part of an annotation nor a modifier ends the run. -/
theorem read_other (ht : t.kind ≠ .comment)
    (hskip : ∀ skip, (AnnotationSkip.step l skip t).2 = false) (h : t.kind ≠ .keyword) :
    r.read l p t = { angled := TypeParamList.isAngles t } := by
  rcases read_cases (l := l) (p := p) (r := r) ht with
    ⟨hstep, -⟩ | ⟨-, ⟨hstep, -⟩ | ⟨hmod, -⟩ | ⟨-, hread⟩⟩
  · exact absurd ((hskip r.skip).symm.trans hstep) (by decide)
  · exact absurd ((hskip none).symm.trans hstep) (by decide)
  · exact absurd (kind_of_isModifier hmod) h
  · exact hread

theorem read_operator (ht : t.kind = .operator) :
    r.read l p t = { angled := TypeParamList.isAngles t } :=
  read_other (by rw [ht]; decide) (not_skipped_of_kind (Or.inr ht)) (by rw [ht]; decide)

theorem mem_words_read {x : Nat × String} (h : x ∈ (r.read l p t).words) :
    x ∈ r.words ∨ x = (p, t.text) := by
  by_cases ht : t.kind = .comment
  · rw [read_comment ht] at h
    exact Or.inl h
  · rcases read_cases (l := l) (p := p) (r := r) ht with
      ⟨-, hread⟩ | ⟨-, ⟨-, hread⟩ | ⟨-, hread⟩ | ⟨-, hread⟩⟩ <;> rw [hread] at h
    · exact Or.inl h
    · exact Or.inl h
    · rcases List.mem_append.1 h with h | h
      · exact Or.inl h
      · exact Or.inr (List.mem_singleton.1 h)
    · exact absurd h List.not_mem_nil

/-- A token that the reader takes for no modifier and passes over in no annotation loses the run. -/
theorem lost_read (ht : t.kind ≠ .comment) (hmarks : l.marks role t = false)
    (hskip : r.Free l role taken → r.words ≠ [] → (AnnotationSkip.step l r.skip t).2 = false) :
    (r.read l p t).Lost l role taken := by
  intro hfree
  rcases read_cases (l := l) (p := p) (r := r) ht with
    ⟨hstep, hread⟩ | ⟨-, ⟨-, hread⟩ | ⟨hmod, hread⟩ | ⟨-, hread⟩⟩ <;> rw [hread] at hfree ⊢
  · refine Classical.byContradiction fun hwords => ?_
    exact absurd ((hskip ⟨hfree.single, hfree.fits⟩ hwords).symm.trans hstep) (by decide)
  · have hsingle := hfree.single
    rw [Bool.or_eq_false_iff, Bool.not_eq_false'] at hsingle
    exact List.isEmpty_iff.1 hsingle.2
  · have hhas := (hfree.fits (p, t.text) (by simp)).1
    have hkind : (t.kind == .keyword) = true := beq_iff_eq.2 (kind_of_isModifier hmod)
    rw [Language.marks, hkind, hhas] at hmarks
    exact absurd hmarks (by decide)

theorem Lost.read (h : r.Lost l role taken) (hmarks : l.marks role t = false) :
    (r.read l p t).Lost l role taken := by
  by_cases ht : t.kind = .comment
  · rw [read_comment ht]
    exact h
  · exact lost_read ht hmarks fun hfree hwords => absurd (h hfree) hwords

theorem Free.mono {taken' : Nat → Prop} (h : r.Free l role taken)
    (hsub : ∀ x ∈ r.words, taken' x.1 → taken x.1) : r.Free l role taken' :=
  ⟨h.single, fun x hx => ⟨(h.fits x hx).1, fun hq => (h.fits x hx).2 (hsub x hx hq)⟩⟩

/-! ## The run in front of a place -/

variable {body : List TokenTree}

theorem before_succ {t : TokenTree} (hp : body[p]? = some t) :
    before l body (p + 1) = (before l body p).read l p t.value := by
  rw [before, hp]

/-- What one token keeps holds in front of every place. -/
theorem before_induction {P : Nat → ModifierRun → Prop} (start : P 0 {})
    (step : ∀ p r (t : Token), P p r → P (p + 1) (r.read l p t))
    (stay : ∀ p r, P p r → P (p + 1) r) (p : Nat) : P p (before l body p) := by
  induction p with
  | zero => exact start
  | succ p ih =>
      rw [before]
      split
      · exact step p _ _ ih
      · exact stay p _ ih

/-- Annotations stand in each other's way only behind a modifier. -/
theorem words_ne_nil_of_doubled (h : (before l body p).doubled = true) :
    (before l body p).words ≠ [] := by
  refine before_induction (P := fun _ r => r.doubled = true → r.words ≠ []) (by simp) ?_
    (fun _ _ ih => ih) p h
  intro p r t ih
  by_cases ht : t.kind = .comment
  · rw [read_comment ht]
    exact ih
  · rcases read_cases (l := l) (p := p) (r := r) ht with
      ⟨-, hread⟩ | ⟨-, ⟨-, hread⟩ | ⟨-, hread⟩ | ⟨-, hread⟩⟩ <;> rw [hread]
    · exact ih
    · intro h
      rcases Bool.or_eq_true_iff.1 h with h | h
      · exact ih h
      · simpa using h
    · simp
    · simp

/-- An empty run is taken as a whole. -/
theorem free_of_words_eq_nil (h : (before l body p).words = []) :
    (before l body p).Free l role taken := by
  refine ⟨?_, by simp [h]⟩
  rw [Bool.eq_false_iff]
  exact fun hdoubled => words_ne_nil_of_doubled hdoubled h

end ModifierRun

end Outline
