import Mathlib.Data.List.TakeWhile
import Outline.Proofs.Member.HeadSteps
import Outline.Proofs.Member.LastToken

/-!
# Where a member begins

The tokens of a field or a method are first those of annotations and modifiers, then the one that
begins it: its type or name, or the list of type parameters in front of the type.

* `Extractor.marks` — the modifiers among the tokens of a member.
* `Extractor.BeginsAt` — where the member begins, and its modifiers against the run in front of it.
-/

namespace Outline

/-! ## Machines with a role -/

namespace Phase

/-- Whether nothing is read. -/
def isIdle : Phase → Bool
  | lead none false _ => true
  | _ => false

/-- Whether annotations and modifiers are read. -/
def isLead : Phase → Bool
  | lead .. => true
  | _ => false

/-- Whether the member has ended. -/
def isComplete : Phase → Bool
  | complete => true
  | _ => false

/-- Whether there is no member. -/
def isFailed : Phase → Bool
  | failed => true
  | _ => false

end Phase

namespace Extractor

/-- The role of the modifiers that the machine reads. -/
def role? : Extractor → Option Capability
  | field _ => some .fieldModifier
  | method _ => some .methodModifier
  | _ => none

/-- The stance of the machine, if it reads fields or methods. -/
def stance : Extractor → Stance
  | field m => m.stance
  | method m => m.stance
  | _ => ⟨.failed, []⟩

/-- Whether the machine reads annotations and modifiers. -/
def isLead (e : Extractor) : Bool := e.stance.phase.isLead

variable {e : Extractor} {role : Capability}

theorem mem_memberRoles (h : e.role? = some role) : role ∈ memberRoles := by
  cases e <;> simp [role?, memberRoles] at h ⊢ <;> simp [← h]

theorem isIdle_eq (h : e.role? = some role) : e.isIdle = e.stance.phase.isIdle := by
  cases e with
  | field m =>
      show m.isIdle = m.stance.phase.isIdle
      cases m with
      | head skip modifiers => cases skip <;> cases modifiers <;> rfl
      | _ => rfl
  | method m =>
      show m.isIdle = m.stance.phase.isIdle
      cases m with
      | head started skip modifiers typeParams => cases started <;> cases skip <;> rfl
      | _ => rfl
  | _ => exact absurd h (by simp [role?])

theorem isComplete_eq (h : e.role? = some role) : e.isComplete = e.stance.phase.isComplete := by
  cases e with
  | field m => cases m <;> rfl
  | method m => cases m <;> rfl
  | _ => exact absurd h (by simp [role?])

theorem isFailed_eq (h : e.role? = some role) : e.isFailed = e.stance.phase.isFailed := by
  cases e with
  | field m => cases m <;> rfl
  | method m => cases m <;> rfl
  | _ => exact absurd h (by simp [role?])

theorem readsMembers_of_role (h : e.role? = some role) : e.readsMembers = true := by
  cases e <;> first | rfl | exact absurd h (by simp [role?])

theorem role?_of_name {e' : Extractor} (h : e'.name = e.name) : e'.role? = e.role? := by
  cases e <;> cases e' <;> first | rfl | simp [name] at h

theorem stance_reset (h : e.role? = some role) : e.reset.stance = .idle := by
  cases e <;> first | rfl | exact absurd h (by simp [role?])

/-- The machines for fields and methods move in the ways of `Moves`. -/
theorem moves_accept {o : Owner} {t : TokenTree} (h : e.role? = some role)
    (hw : e.Waits o.language) (ht : t.kind ≠ .comment) :
    Moves o.language role t.value e.stance (e.accept o t).state.stance (e.accept o t).taken := by
  cases e with
  | field m =>
      obtain rfl := Option.some.inj h
      exact FieldMachine.moves_accept hw ht
  | method m =>
      obtain rfl := Option.some.inj h
      exact MethodMachine.moves_accept hw ht
  | _ => exact absurd h (by simp [role?])

theorem waits_reset {l : Language} (h : e.role? = some role) : e.reset.Waits l := by
  cases e with
  | field m => exact FieldStage.waits_idle l
  | method m => exact waits_idle_method l
  | _ => exact absurd h (by simp [role?])

/-! ## Modifiers among the tokens of a member -/

/-- The token at a place with its text, if it is a modifier of members with the role. -/
def markAt? (l : Language) (role : Capability) (body : List TokenTree) (p : Nat) :
    Option (Nat × String) :=
  body[p]?.bind fun t => if l.marks role t.value then some (p, t.text) else none

/-- The modifiers among the tokens that a machine has used, with their places. -/
def marks (l : Language) (role : Capability) (body : List TokenTree) (uses : List Use) :
    List (Nat × String) :=
  (uses.filter (·.state.isLead)).filterMap fun u => markAt? l role body u.place

/-- The tokens up to the one that begins the member: its type or name, or the list of type
parameters in front of the type. -/
def leading (uses : List Use) : List Use := uses.takeWhile (·.state.isLead)

/-- The tokens behind the one that begins the member. -/
def trailing (uses : List Use) : List Use := uses.dropWhile (·.state.isLead)

/-- The place of the token that begins the member. -/
def start? (uses : List Use) : Option Nat := (leading uses).getLast?.map (·.place)

variable {l : Language} {body : List TokenTree} {uses : List Use} {p : Nat} {t : TokenTree}

theorem marks_append (us vs : List Use) :
    marks l role body (us ++ vs) = marks l role body us ++ marks l role body vs := by
  rw [marks, List.filter_append, List.filterMap_append]
  rfl

/-- The modifiers of a member stand in front of its beginning or behind it. -/
theorem marks_eq_append (uses : List Use) :
    marks l role body uses =
      marks l role body (leading uses) ++ marks l role body (trailing uses) := by
  rw [← marks_append, leading, trailing, List.takeWhile_append_dropWhile]

theorem marks_singleton_of_not_lead (h : e.isLead = false) : marks l role body [⟨p, e⟩] = [] := by
  simp [marks, h]

theorem marks_singleton_of_not_marks (hp : body[p]? = some t) (h : l.marks role t.value = false) :
    marks l role body [⟨p, e⟩] = [] := by
  cases hlead : e.isLead <;> simp [marks, hlead, markAt?, hp, h]

theorem marks_singleton_of_marks (hp : body[p]? = some t) (he : e.isLead = true)
    (h : l.marks role t.value = true) : marks l role body [⟨p, e⟩] = [(p, t.text)] := by
  simp [marks, he, markAt?, hp, h]

theorem leading_append {u : Use}
    (h : u.state.isLead = false ∨ ∃ v ∈ uses, v.state.isLead = false) :
    leading (uses ++ [u]) = leading uses := by
  unfold leading
  induction uses with
  | nil =>
      rcases h with h | ⟨v, hv, -⟩
      · simp [h]
      · exact absurd hv List.not_mem_nil
  | cons w uses ih =>
      rw [List.cons_append, List.takeWhile_cons, List.takeWhile_cons]
      cases hw : w.state.isLead with
      | false => rfl
      | true =>
          rw [if_pos rfl, if_pos rfl, ih]
          refine h.imp id ?_
          rintro ⟨v, hv, hlead⟩
          rcases List.mem_cons.1 hv with rfl | hv
          · exact absurd (hw.symm.trans hlead) (by decide)
          · exact ⟨v, hv, hlead⟩

theorem leading_eq_self (h : ∀ u ∈ uses, u.state.isLead = true) : leading uses = uses :=
  List.takeWhile_eq_self_iff.2 h

/-! ## Where a member begins -/

/-- The token at a place belongs to a member that has ended. -/
def Taken (items : List Item) (q : Nat) : Prop := ∃ i ∈ items, q ∈ i.places

/-- The token at the place `q` belongs to a member that has ended in front of the place `p` or with
its token. -/
def TakenBefore (items : List Item) (p q : Nat) : Prop := ∃ i ∈ items, i.stop ≤ p ∧ q ∈ i.places

/-- A list of type parameters begins at the place, and behind angle brackets there are only
modifiers, annotations and comments in front of it. -/
def ListTwice (l : Language) (body : List TokenTree) (p : Nat) : Prop :=
  (ModifierRun.before l body p).angled = true ∧
    ∃ t, body[p]? = some t ∧ t.value.isOperator "<" = true

/-- The tokens are those of a member that begins at the place `p`: the modifiers among them are the
last ones of the run in front of it, all of them if the run is free. -/
structure BeginsAt (l : Language) (role : Capability) (body : List TokenTree) (items : List Item)
    (uses : List Use) (p : Nat) : Prop where
  /-- The member begins at the place. -/
  start : start? uses = some p
  /-- The token there is a type, a name or the start of a list of type parameters. -/
  token : ∃ t, body[p]? = some t ∧ beginsMember l role t.value = true
  /-- Its modifiers are the last ones of the run. -/
  suffix : marks l role body (leading uses) <:+ (ModifierRun.before l body p).words
  /-- It has the whole run only if that is free. -/
  free : marks l role body (leading uses) = (ModifierRun.before l body p).words →
    (ModifierRun.before l body p).Free l role (TakenBefore items p)
  /-- It has the whole run if that is free. -/
  whole : (ModifierRun.before l body p).Free l role (TakenBefore items p) →
    ¬ ListTwice l body p → marks l role body (leading uses) = (ModifierRun.before l body p).words

/-- The tokens are those of a member that has begun. -/
def Begun (l : Language) (role : Capability) (body : List TokenTree) (items : List Item)
    (uses : List Use) : Prop :=
  ∃ p, BeginsAt l role body items uses p

theorem place_of_start? (h : start? uses = some p) : ∃ u ∈ uses, u.place = p := by
  obtain ⟨u, hu, rfl⟩ := Option.map_eq_some_iff.1 h
  exact ⟨u, (List.takeWhile_sublist _).subset (List.mem_of_getLast? hu), rfl⟩

theorem Begun.append {items : List Item} {u : Use} (h : Begun l role body items uses)
    (hu : u.state.isLead = false ∨ ∃ v ∈ uses, v.state.isLead = false) :
    Begun l role body items (uses ++ [u]) := by
  obtain ⟨p, h⟩ := h
  have hleading := leading_append hu
  refine ⟨p, ?_, h.token, ?_, ?_, ?_⟩
  · rw [start?, hleading]
    exact h.start
  · rw [hleading]
    exact h.suffix
  · rw [hleading]
    exact h.free
  · rw [hleading]
    exact h.whole

/-- Members that end later take nothing from the run. -/
theorem Begun.append_items {items later : List Item} (h : Begun l role body items uses)
    (hlater : ∀ i ∈ later, ∀ u ∈ uses, u.place < i.stop) :
    Begun l role body (items ++ later) uses := by
  obtain ⟨p, h⟩ := h
  obtain ⟨u, hu, rfl⟩ := place_of_start? h.start
  have htaken : TakenBefore (items ++ later) u.place = TakenBefore items u.place := by
    funext q
    refine propext ⟨?_, ?_⟩
    · rintro ⟨i, hi, hstop, hq⟩
      rcases List.mem_append.1 hi with hi | hi
      · exact ⟨i, hi, hstop, hq⟩
      · have := hlater i hi u hu
        omega
    · rintro ⟨i, hi, hstop, hq⟩
      exact ⟨i, List.mem_append_left _ hi, hstop, hq⟩
  refine ⟨u.place, h.start, h.token, h.suffix, ?_, ?_⟩
  · rw [htaken]
    exact h.free
  · rw [htaken]
    exact h.whole

end Extractor

end Outline
