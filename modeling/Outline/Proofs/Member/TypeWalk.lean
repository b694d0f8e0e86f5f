import Outline.Proofs.Member.Retry
import Outline.Proofs.Written.Words

/-!
# The walk over the tokens of a type

`TypeMachine.readFrom` stops at a token that the machine leaves.  Here the tokens of a group are
read by an index that moves on over a token that is used up and stays at one that is left, and only
the end of the machine or of the group ends the walk.  A machine that left a token and did not end
would be offered the same token for ever.

* `TypeMachine.ended_of_left` — there is no such machine.
* `TypeMachine.exists_walks` — a walk with one turn more than there are tokens left comes to its
  end, and reads what `TypeMachine.readFrom` reads.
* `TypeMachine.reads_onward` — both, with the place where a type ends.
-/

namespace Outline

namespace TypeMachine

variable {l : Language} {allowVoid : Bool} {m : TypeMachine} {t : TokenTree}

/-! ## One token -/

/-- The machine has ended, with a type or without one. -/
abbrev Ended (m : TypeMachine) : Prop := m.isComplete = true ∨ m.isFailed = true

/-- A token that is left ends the machine. -/
theorem ended_of_left {t : Token} (h : (m.accept l allowVoid t).taken = false) :
    (m.accept l allowVoid t).state.Ended := by
  have haccepts := accepts_accept l allowVoid m t
  generalize m.accept l allowVoid t = s at h haccepts ⊢
  cases haccepts with
  | goes | ends => cases h
  | left => exact .inl rfl
  | fails => exact .inr rfl

/-- A token that is left at the start of a type is no type. -/
theorem failed_of_left_idle {t : Token} (h : (idle.accept l allowVoid t).taken = false) :
    (idle.accept l allowVoid t).state = failed := by
  cases hstarts : starts l allowVoid t with
  | true =>
      rw [taken_of_starts hstarts] at h
      cases h
  | false =>
      rw [accept, hstarts]
      rfl

/-- A machine that has ended stays as it is. -/
theorem accept_of_ended (h : m.Ended) (t : Token) :
    m.accept l allowVoid t = .leave m := by
  cases m with
  | complete | failed => rfl
  | _ => simp [Ended, isComplete, isFailed] at h

theorem readFrom_of_ended (h : m.Ended) (ts : List TokenTree) :
    readFrom l allowVoid m ts = (m, ts, []) := by
  cases ts with
  | nil => rfl
  | cons t ts =>
      rw [readFrom, accept_of_ended h]
      rfl

theorem readFrom_of_left (h : (m.accept l allowVoid t.value).taken = false)
    (ts : List TokenTree) :
    readFrom l allowVoid m (t :: ts) =
      ((m.accept l allowVoid t.value).state, t :: ts,
        (m.accept l allowVoid t.value).malformed) := by
  rw [readFrom, h]
  rfl

/-- Behind a token that is used up, the rest is read from the state that the token leads to.  An
ended machine reads nothing, so that the end needs no case of its own. -/
theorem readFrom_of_taken (h : (m.accept l allowVoid t.value).taken = true)
    (ts : List TokenTree) :
    readFrom l allowVoid m (t :: ts) =
      let rest := readFrom l allowVoid (m.accept l allowVoid t.value).state ts
      (rest.1, rest.2.1, (m.accept l allowVoid t.value).malformed ++ rest.2.2) := by
  rw [readFrom, h]
  dsimp only
  rw [Bool.not_true, if_neg Bool.false_ne_true]
  split
  · rename_i hended
    rw [readFrom_of_ended (Bool.or_eq_true_iff.1 hended), List.append_nil]
  · rfl

/-! ## The walk -/

/-- What a walk over the tokens of a group has read. -/
structure Walk where
  /-- The machine behind the tokens. -/
  machine : TypeMachine
  /-- The index of the first token that is not used up. -/
  index : Nat
  /-- The malformed types. -/
  malformed : List MalformedType := []
  /-- The index of the token of each turn, and whether it is used up. -/
  offers : List (Nat × Bool) := []
  deriving DecidableEq, Repr

namespace Walk

/-- The type that is read. -/
def type? (w : Walk) : Option TypeRef := w.machine.finish.type?

/-- The indices of the tokens that are used up, turn by turn. -/
def used (w : Walk) : List Nat := (w.offers.filter (·.2)).map (·.1)

/-- The walk behind a turn in which the token at the index `i` leads to the step `s`. -/
def behind (i : Nat) (s : Step TypeMachine) (w : Walk) : Walk :=
  { w with malformed := s.malformed ++ w.malformed, offers := (i, s.taken) :: w.offers }

theorem used_behind (i : Nat) (s : Step TypeMachine) (w : Walk) :
    (w.behind i s).used = if s.taken then i :: w.used else w.used := by
  unfold used behind
  rw [List.filter_cons]
  cases s.taken <;> rfl

end Walk

/-- Offers the tokens of a group to the machine, from the index `i` on.  A turn offers the token at
the index, which stays where it is if the token is left, or finds that there is none.  The walk has
no answer if it does not come to its end in `turns` turns. -/
def walkAt (l : Language) (allowVoid : Bool) (group : List TokenTree) :
    (turns : Nat) → TypeMachine → (i : Nat) → Option Walk
  | 0, _, _ => none
  | turns + 1, m, i =>
    match group[i]? with
    | none => some { machine := m, index := i }
    | some t =>
      let s := m.accept l allowVoid t.value
      let next := if s.taken then i + 1 else i
      let rest? :=
        if s.state.isComplete || s.state.isFailed then some { machine := s.state, index := next }
        else walkAt l allowVoid group turns s.state next
      rest?.map (Walk.behind i s)

variable {group : List TokenTree} {i : Nat}

/-- What a walk has read that starts with the machine `m` at the index `i`. -/
structure Walks (l : Language) (allowVoid : Bool) (group : List TokenTree) (m : TypeMachine)
    (i : Nat) (w : Walk) : Prop where
  /-- It has read what is read from the front of the tokens from there on. -/
  reads : readFrom l allowVoid m (group.drop i) = (w.machine, group.drop w.index, w.malformed)
  /-- It does not go back. -/
  start_le : i ≤ w.index
  /-- It goes no further than the tokens. -/
  le_length : w.index ≤ max i group.length
  /-- The tokens in between are used up, one after another, and no others. -/
  used : w.used = List.range' i (w.index - i)
  /-- No more tokens are offered than there are. -/
  offers : w.offers.length ≤ group.length - i
  /-- A walk that has not moved has offered at most the first token, which is left. -/
  still : w.index = i → w.machine = m ∨ ∃ t, (m.accept l allowVoid t).taken = false ∧
    w.machine = (m.accept l allowVoid t).state

/-- Where nothing is read, the walk is over at once. -/
theorem walks_end (h : readFrom l allowVoid m (group.drop i) = (m, group.drop i, [])) :
    Walks l allowVoid group m i { machine := m, index := i } where
  reads := h
  start_le := Nat.le_refl i
  le_length := Nat.le_max_left ..
  used := by rw [Nat.sub_self]; rfl
  offers := Nat.zero_le _
  still := fun _ => .inl rfl

/-- The walk ends at a token that is left. -/
theorem walks_left (hget : group[i]? = some t)
    (hleft : (m.accept l allowVoid t.value).taken = false) :
    Walks l allowVoid group m i (Walk.behind i (m.accept l allowVoid t.value)
      { machine := (m.accept l allowVoid t.value).state, index := i }) := by
  obtain ⟨hlt, rfl⟩ := List.getElem?_eq_some_iff.1 hget
  exact {
    reads := by
      dsimp only [Walk.behind]
      rw [List.append_nil, List.drop_eq_getElem_cons hlt, readFrom_of_left hleft]
    start_le := Nat.le_refl i
    le_length := Nat.le_max_left ..
    used := by
      rw [Walk.used_behind, hleft]
      dsimp only [Walk.behind]
      rw [Nat.sub_self]
      rfl
    offers := Nat.sub_pos_of_lt hlt
    still := fun _ => .inr ⟨_, hleft, rfl⟩ }

/-- The walk goes on behind a token that is used up. -/
theorem walks_taken {w : Walk} (hget : group[i]? = some t)
    (htaken : (m.accept l allowVoid t.value).taken = true)
    (h : Walks l allowVoid group (m.accept l allowVoid t.value).state (i + 1) w) :
    Walks l allowVoid group m i (w.behind i (m.accept l allowVoid t.value)) := by
  obtain ⟨hlt, rfl⟩ := List.getElem?_eq_some_iff.1 hget
  have hmoved : i + 1 ≤ w.index := h.start_le
  exact {
    reads := by
      rw [List.drop_eq_getElem_cons hlt, readFrom_of_taken htaken, h.reads]
      rfl
    start_le := Nat.le_of_succ_le hmoved
    le_length := by
      have hlen := h.le_length
      rw [Nat.max_eq_right hlt] at hlen
      exact Nat.le_trans hlen (Nat.le_max_right ..)
    used := by
      have hcount : w.index - i = w.index - (i + 1) + 1 := by omega
      rw [Walk.used_behind, if_pos htaken, h.used, ← List.range'_succ, ← hcount]
      rfl
    offers := by
      have hoffers := h.offers
      dsimp only [Walk.behind]
      rw [List.length_cons]
      omega
    still := fun hstill => absurd hstill (Nat.ne_of_gt hmoved) }

/-- The walk ends in the turn that ends the machine. -/
theorem walkAt_of_ended (hget : group[i]? = some t)
    (hended : (m.accept l allowVoid t.value).state.Ended) (turns : Nat) :
    walkAt l allowVoid group (turns + 1) m i = some (Walk.behind i (m.accept l allowVoid t.value)
      { machine := (m.accept l allowVoid t.value).state,
        index := if (m.accept l allowVoid t.value).taken then i + 1 else i }) := by
  rw [walkAt, hget]
  dsimp only
  rw [if_pos (Bool.or_eq_true_iff.2 hended)]
  rfl

/-- The walk goes on in the turn behind a token that is used up. -/
theorem walkAt_of_taken (hget : group[i]? = some t)
    (htaken : (m.accept l allowVoid t.value).taken = true)
    (hgoing : ¬(m.accept l allowVoid t.value).state.Ended) (turns : Nat) :
    walkAt l allowVoid group (turns + 1) m i =
      (walkAt l allowVoid group turns (m.accept l allowVoid t.value).state (i + 1)).map
        (Walk.behind i (m.accept l allowVoid t.value)) := by
  rw [walkAt, hget]
  dsimp only
  rw [if_neg (mt Bool.or_eq_true_iff.1 hgoing), if_pos htaken]

/-- A walk with one turn more than there are tokens left comes to its end. -/
theorem exists_walks (l : Language) (allowVoid : Bool) (group : List TokenTree) (m : TypeMachine)
    (i : Nat) :
    ∃ w, Walks l allowVoid group m i w ∧
      ∀ turns, group.length - i ≤ turns → walkAt l allowVoid group (turns + 1) m i = some w := by
  -- by the number of tokens that are left: a turn that does not end the walk uses one up
  induction hleft : group.length - i generalizing m i with
  | zero =>
      have hlen : group.length ≤ i := Nat.le_of_sub_eq_zero hleft
      refine ⟨{ machine := m, index := i }, walks_end ?_, fun turns _ => ?_⟩
      · rw [List.drop_eq_nil_of_le hlen]
        rfl
      · rw [walkAt, List.getElem?_eq_none hlen]
  | succ left ih =>
      have hlt : i < group.length := by omega
      have hget : group[i]? = some group[i] := List.getElem?_eq_getElem hlt
      generalize group[i] = t at hget
      cases htaken : (m.accept l allowVoid t.value).taken with
      | false =>
          -- the token would be offered again if the machine had not ended
          refine ⟨_, walks_left hget htaken, fun turns _ => ?_⟩
          rw [walkAt_of_ended hget (ended_of_left htaken), htaken]
          rfl
      | true =>
          by_cases hended : (m.accept l allowVoid t.value).state.Ended
          · refine ⟨_, walks_taken hget htaken (walks_end (readFrom_of_ended hended _)),
              fun turns _ => ?_⟩
            rw [walkAt_of_ended hget hended, if_pos htaken]
          · obtain ⟨w, hw, hrest⟩ := ih (m.accept l allowVoid t.value).state (i + 1) (by omega)
            refine ⟨_, walks_taken hget htaken hw, fun turns hturns => ?_⟩
            obtain ⟨turns, rfl⟩ : ∃ n, turns = n + 1 := ⟨turns - 1, by omega⟩
            rw [walkAt_of_taken hget htaken hended, hrest turns (by omega)]
            rfl

/-- A type ends behind the place where the walk starts. -/
theorem Walks.start_lt {w : Walk} (h : Walks l allowVoid group idle i w) {r : TypeRef}
    (hr : w.type? = some r) : i < w.index := by
  refine Nat.lt_of_le_of_ne h.start_le fun hstill => ?_
  have hnone : w.type? = none := by
    unfold Walk.type?
    rcases h.still hstill.symm with hm | ⟨t, hleft, hm⟩
    · rw [hm]
      rfl
    · rw [hm, failed_of_left_idle hleft]
      rfl
  rw [hnone] at hr
  cases hr

/-- In every state, a token that the machine leaves ends it.  So the walk over the tokens of a
group, from any index on, offers no more tokens than there are left, ends in at most one turn more,
and reads the type that is read from the front of those tokens.  If it reads one, the type ends
behind the start and inside the group, and the tokens in between are the ones that are used up, each
of them once and in their order. -/
theorem reads_onward :
    (∀ (l : Language) (allowVoid : Bool) (m : TypeMachine) (t : Token),
      (m.accept l allowVoid t).taken = false →
        (m.accept l allowVoid t).state.isComplete = true ∨
          (m.accept l allowVoid t).state.isFailed = true) ∧
    ∀ (l : Language) (group : List TokenTree) (start : Nat), ∃ w : Walk,
      (∀ turns, group.length - start ≤ turns →
        walkAt l false group (turns + 1) idle start = some w) ∧
      w.offers.length ≤ group.length - start ∧
      read l (group.drop start) = (w.type?.map (·, group.drop w.index), w.malformed) ∧
      ∀ r, w.type? = some r →
        start < w.index ∧ w.index ≤ group.length ∧
          w.used = List.range' start (w.index - start) := by
  refine ⟨fun l allowVoid m t => ended_of_left, fun l group start => ?_⟩
  obtain ⟨w, hw, hends⟩ := exists_walks l false group idle start
  refine ⟨w, hends, hw.offers, ?_, fun r hr => ?_⟩
  · rw [read, hw.reads]
    rfl
  · have hlt := hw.start_lt hr
    have hle := hw.le_length
    exact ⟨hlt, by omega, hw.used⟩

/-- The tokens of a parameter with a function type, `done: (error) => void = ignore`. -/
def callback : List TokenTree :=
  [.bare .identifier "done", .bare .operator ":", .bare .block "(error)", .bare .operator "=>",
    .bare .keyword "void", .bare .operator "=", .bare .identifier "ignore"]

theorem walkAt_callback : walkAt .typescript false callback 6 idle 2 = some {
    machine := complete (.simple "Function"), index := 5,
    offers := [(2, true), (3, true), (4, true), (5, false)] } := by
  have hvoid : (TokenTree.bare .keyword "void").value.isKeyword "void" = true :=
    Token.isKeyword_iff.2 ⟨rfl, rfl⟩
  have hreturns : functionArrow.accept .typescript false (TokenTree.bare .keyword "void").value =
      .take (found (.simple "Function")) := by
    rw [accept, hvoid, Bool.or_true, if_pos rfl, find, TypeRef.parse_word (by decide +kernel)]
  have hparams : idle.accept .typescript false (TokenTree.bare .block "(error)").value =
      .take functionParams := rfl
  have harrow : functionParams.accept .typescript false (TokenTree.bare .operator "=>").value =
      .take functionArrow := rfl
  have hends : ∀ r, (found r).accept .typescript false (TokenTree.bare .operator "=").value =
      .leave (complete r) := fun r => rfl
  simp [walkAt, callback, hparams, harrow, hreturns, hends, Step.take, Step.leave, isComplete,
    isFailed, Walk.behind]

/-- Behind the parameters of a function type, an equals sign is no arrow; behind the function type
it is left, and the type that ends there consists of the three tokens in front of it. -/
theorem reads_onward_function :
    (functionParams.accept .typescript false ⟨.operator, {}, "="⟩).state.isFailed = true ∧
    ∃ w, walkAt .typescript false callback 6 idle 2 = some w ∧
      w.type? = some (.simple "Function") ∧ 2 < w.index ∧ w.index ≤ callback.length ∧
      w.used = List.range' 2 (w.index - 2) := by
  obtain ⟨hends, hwalk⟩ := reads_onward
  obtain ⟨w, hturns, -, -, htype⟩ := hwalk .typescript callback 2
  have hw := hturns 5 (by decide)
  have hfunction : w.type? = some (.simple "Function") := by
    rw [walkAt_callback] at hw
    rw [← Option.some.inj hw]
    rfl
  refine ⟨?_, w, hw, hfunction, htype _ hfunction⟩
  exact (hends .typescript false functionParams ⟨.operator, {}, "="⟩ rfl).resolve_left (by decide)

end TypeMachine

end Outline
