import Outline.Member.Extractor

/-!
# Which tokens a member is read from

`Extractor.run` keeps what the machines read, but not from which tokens.  `Tracked` is a machine
together with the tokens that it has used up since it last was idle, each with the state in which
it was used.  The log of a run lists the items that end, in order, with their tokens.

* `Extractor.log` — the items that end while the machines read a run of tokens.
* `run_eq_replay` — the log tells everything that the run reads.
-/

namespace Outline

namespace Extractor

/-! ## Machines with their tokens -/

/-- A token that a machine uses up: its place in the run and the state in which it is used. -/
structure Use where
  /-- The place in the run. -/
  place : Nat
  /-- The state in front of the token. -/
  state : Extractor

/-- An item that has ended. -/
structure Item where
  /-- The machine at the end of the item. -/
  machine : Extractor
  /-- The tokens of the item. -/
  uses : List Use
  /-- The place of the token at which the item ends, or the number of tokens if the run ends. -/
  stop : Nat
  /-- Whether the token at the end is left for others. -/
  early : Bool

namespace Item

/-- The places of the tokens of an item. -/
def places (i : Item) : List Nat := i.uses.map (·.place)

/-- Whether the item is a member of the declaration. -/
def isMember (i : Item) : Bool :=
  match i.machine with
  | field _ | method _ | enumMember _ => true
  | annotations _ | comment _ | imports _ => false

end Item

/-- A machine with the tokens that it has used since it last was idle. -/
structure Tracked where
  /-- The machine. -/
  machine : Extractor
  /-- The tokens. -/
  uses : List Use := []

/-- What happens while the machines read. -/
inductive Event where
  /-- An item ends. -/
  | ended (item : Item)
  /-- A block in braces that no machine takes drops what waits. -/
  | dropped

namespace Tracked

/-- The machine in a state that is neither that of an end nor of a failure. -/
def going (e : Extractor) (uses : List Use) : Tracked := ⟨e, if e.isIdle then [] else uses⟩

/-- Offers the token at the place `p` as `Extractor.offerUpTo` does.  Answers the machine, the
items that end, and whether the token is used up. -/
def offerUpTo (o : Owner) (p : Nat) (t : TokenTree) (again : Nat) (w : Tracked) :
    Tracked × List Item × Bool :=
  let s := w.machine.accept o t
  let uses := if s.taken then w.uses ++ [⟨p, w.machine⟩] else w.uses
  if s.state.isFailed then
    let rest := ⟨s.state.reset, []⟩
    if w.machine.isIdle then (rest, [], s.taken)
    else match s.taken, again with
      | false, again + 1 => offerUpTo o p t again rest
      | taken, _ => (rest, [], taken)
  else if s.state.isComplete then
    let rest := ⟨s.state.reset, []⟩
    let item := ⟨s.state, uses, p, !s.taken⟩
    match s.taken, again with
    | false, again + 1 =>
      let (w, items, taken) := offerUpTo o p t again rest
      (w, item :: items, taken)
    | taken, _ => (rest, [item], taken)
  else (going s.state uses, [], s.taken)

/-- Offers a token to a machine, at most twice. -/
def offer (o : Owner) (p : Nat) (t : TokenTree) (w : Tracked) : Tracked × List Item × Bool :=
  w.offerUpTo o p t 1

/-- Offers a token to each machine in turn. -/
def offerAll (o : Owner) (p : Nat) (t : TokenTree) :
    List Tracked → List Tracked × List Item × Bool
  | [] => ([], [], false)
  | w :: ws =>
    let (w, items, taken) := w.offer o p t
    let (ws, later, takenLater) := offerAll o p t ws
    (w :: ws, items ++ later, taken || takenLater)

/-- Offers a token to each machine in turn, as `Extractor.read` does. -/
def read (o : Owner) (p : Nat) (ws : List Tracked) (t : TokenTree) : List Tracked × List Event :=
  let (ws, items, taken) := offerAll o p t ws
  (ws, items.map .ended ++ if !taken && t.value.isBlock '\x7b' then [.dropped] else [])

/-- Offers the tokens of a run, the first of which is at the place `p`. -/
def readAll (o : Owner) (p : Nat) (ws : List Tracked) :
    List TokenTree → List Tracked × List Event
  | [] => (ws, [])
  | t :: ts =>
    let (ws, events) := read o p ws t
    let (ws, later) := readAll o (p + 1) ws ts
    (ws, events ++ later)

/-- The item that the end of the tokens ends. -/
def close? (o : Owner) (p : Nat) (w : Tracked) : Option Item :=
  let e := w.machine.bodyEnd o
  if e.isComplete then some ⟨e, w.uses, p, true⟩ else none

end Tracked

/-- Everything that happens while a list of machines reads a run of tokens. -/
def log (o : Owner) (es : List Extractor) (ts : List TokenTree) : List Event :=
  let (ws, events) := Tracked.readAll o 0 (es.map fun e => ⟨e, []⟩) ts
  events ++ (ws.filterMap (Tracked.close? o ts.length)).map .ended

/-! ## The log tells what is read -/

/-- What an event adds to what has been read. -/
def replay (o : Owner) (h : Harvest) : Event → Harvest
  | .ended i => i.machine.deliver o h
  | .dropped => h.dropPending

end Extractor

namespace Harvest

/-- The same without malformed types and without counts. -/
def bare (h : Harvest) : Harvest := { h with malformed := [], metrics := {} }

@[simp] theorem bare_countOffer (h : Harvest) (malformed : List MalformedType) :
    (h.countOffer malformed).bare = h.bare := rfl

@[simp] theorem bare_countAbandoned (h : Harvest) : h.countAbandoned.bare = h.bare := rfl

@[simp] theorem bare_dropPending (h : Harvest) : h.dropPending.bare = h.bare.dropPending := rfl

end Harvest

namespace Extractor

@[simp] theorem bare_deliver (o : Owner) (h : Harvest) (e : Extractor) :
    (e.deliver o h).bare = e.deliver o h.bare := by
  unfold deliver
  split <;> rfl

/-- Adds the items that end to what has been read. -/
def deliverAll (o : Owner) (h : Harvest) (items : List Item) : Harvest :=
  items.foldl (fun h i => i.machine.deliver o h) h

theorem deliverAll_append (o : Owner) (h : Harvest) (items later : List Item) :
    deliverAll o h (items ++ later) = deliverAll o (deliverAll o h items) later :=
  List.foldl_append

theorem foldl_replay_ended (o : Owner) (h : Harvest) (items : List Item) :
    (items.map Event.ended).foldl (replay o) h = deliverAll o h items := by
  rw [List.foldl_map]
  rfl

theorem offerUpTo_eq_tracked (o : Owner) (p : Nat) (t : TokenTree) (again : Nat) (w : Tracked)
    (h : Harvest) :
    (w.machine.offerUpTo o t again h).1 = (w.offerUpTo o p t again).1.machine ∧
      (w.machine.offerUpTo o t again h).2.1.bare =
        deliverAll o h.bare (w.offerUpTo o p t again).2.1 ∧
      (w.machine.offerUpTo o t again h).2.2 = (w.offerUpTo o p t again).2.2 := by
  induction again generalizing w h with
  | zero =>
      rw [offerUpTo, Tracked.offerUpTo]
      dsimp only
      cases (w.machine.accept o t).taken <;> split
      · split <;> exact ⟨rfl, rfl, rfl⟩
      · split
        · exact ⟨rfl, by simp [deliverAll], rfl⟩
        · exact ⟨rfl, rfl, rfl⟩
      · split <;> exact ⟨rfl, rfl, rfl⟩
      · split
        · exact ⟨rfl, by simp [deliverAll], rfl⟩
        · exact ⟨rfl, rfl, rfl⟩
  | succ again ih =>
      rw [offerUpTo, Tracked.offerUpTo]
      dsimp only
      cases htaken : (w.machine.accept o t).taken with
      | true =>
          split
          · split <;> exact ⟨rfl, rfl, rfl⟩
          · split
            · exact ⟨rfl, by simp [deliverAll], rfl⟩
            · exact ⟨rfl, rfl, rfl⟩
      | false =>
          split
          · split
            · exact ⟨rfl, rfl, rfl⟩
            · exact ih ⟨_, []⟩ _
          · split
            · obtain ⟨hw, hh, ht⟩ := ih ⟨(w.machine.accept o t).state.reset, []⟩
                ((w.machine.accept o t).state.deliver o
                  (h.countOffer (w.machine.accept o t).malformed))
              refine ⟨hw, ?_, ht⟩
              rw [hh, bare_deliver, Harvest.bare_countOffer]
              rfl
            · exact ⟨rfl, rfl, rfl⟩

theorem offerAll_eq_tracked (o : Owner) (p : Nat) (t : TokenTree) (ws : List Tracked)
    (h : Harvest) :
    (offerAll o t (ws.map (·.machine)) h).1 = (Tracked.offerAll o p t ws).1.map (·.machine) ∧
      (offerAll o t (ws.map (·.machine)) h).2.1.bare =
        deliverAll o h.bare (Tracked.offerAll o p t ws).2.1 ∧
      (offerAll o t (ws.map (·.machine)) h).2.2 = (Tracked.offerAll o p t ws).2.2 := by
  induction ws generalizing h with
  | nil => exact ⟨rfl, rfl, rfl⟩
  | cons w ws ih =>
      obtain ⟨hw, hh, ht⟩ := offerUpTo_eq_tracked o p t 1 w h
      obtain ⟨hws, hhs, hts⟩ := ih (w.machine.offerUpTo o t 1 h).2.1
      simp only [List.map_cons, offerAll, offer, Tracked.offerAll, Tracked.offer]
      refine ⟨by rw [hw, hws], ?_, by rw [ht, hts]⟩
      rw [hhs, hh, deliverAll_append]

theorem read_eq_tracked (o : Owner) (p : Nat) (t : TokenTree) (ws : List Tracked) (h : Harvest) :
    (read o (ws.map (·.machine)) h t).1 = (Tracked.read o p ws t).1.map (·.machine) ∧
      (read o (ws.map (·.machine)) h t).2.bare =
        (Tracked.read o p ws t).2.foldl (replay o) h.bare := by
  obtain ⟨hws, hh, ht⟩ := offerAll_eq_tracked o p t ws h
  simp only [read, Tracked.read]
  refine ⟨hws, ?_⟩
  rw [List.foldl_append, foldl_replay_ended, ht, ← hh]
  split
  · rfl
  · rfl

theorem readAll_eq_tracked (o : Owner) (p : Nat) (ts : List TokenTree) (ws : List Tracked)
    (h : Harvest) :
    (readAll o (ws.map (·.machine)) h ts).1 = (Tracked.readAll o p ws ts).1.map (·.machine) ∧
      (readAll o (ws.map (·.machine)) h ts).2.bare =
        (Tracked.readAll o p ws ts).2.foldl (replay o) h.bare := by
  induction ts generalizing p ws h with
  | nil => exact ⟨rfl, rfl⟩
  | cons t ts ih =>
      obtain ⟨hws, hh⟩ := read_eq_tracked o p t ws h
      obtain ⟨hrest, hlater⟩ := ih (p + 1) (Tracked.read o p ws t).1
        (read o (ws.map (·.machine)) h t).2
      have hcons : readAll o (ws.map (·.machine)) h (t :: ts) =
          readAll o (read o (ws.map (·.machine)) h t).1 (read o (ws.map (·.machine)) h t).2 ts :=
        rfl
      rw [hcons, hws]
      refine ⟨hrest, ?_⟩
      rw [hlater, hh]
      simp only [Tracked.readAll]
      rw [List.foldl_append]

/-- A machine that has not ended adds nothing. -/
theorem deliver_of_not_complete (o : Owner) (h : Harvest) {e : Extractor}
    (he : e.isComplete = false) : e.deliver o h = h := by
  unfold deliver
  split
  · simp [isComplete, FieldMachine.isComplete] at he
  · simp [isComplete, MethodMachine.isComplete] at he
  · simp [isComplete, EnumMemberMachine.isComplete] at he
  · simp [isComplete] at he
  · simp [isComplete] at he
  · simp [isComplete, ImportMachine.isComplete] at he
  · rfl

theorem bare_close (o : Owner) (h : Harvest) (p : Nat) (w : Tracked) :
    (close o h w.machine).bare = deliverAll o h.bare (w.close? o p).toList := by
  rw [close, bare_deliver, Tracked.close?]
  split
  · rfl
  · rename_i hopen
    exact deliver_of_not_complete o _ (by rwa [Bool.not_eq_true] at hopen)

theorem bare_foldl_close (o : Owner) (p : Nat) (ws : List Tracked) (h : Harvest) :
    ((ws.map (·.machine)).foldl (close o) h).bare =
      deliverAll o h.bare (ws.filterMap (Tracked.close? o p)) := by
  induction ws generalizing h with
  | nil => rfl
  | cons w ws ih =>
      rw [List.map_cons, List.foldl_cons, ih, bare_close o h p, List.filterMap_cons]
      cases w.close? o p with
      | none => rfl
      | some i => rfl

/-- The log of a run tells everything that is read in the run. -/
theorem run_eq_replay (o : Owner) (es : List Extractor) (ts : List TokenTree) :
    (run o es ts).bare = (log o es ts).foldl (replay o) {} := by
  have hes : es = (es.map fun e => (⟨e, []⟩ : Tracked)).map (·.machine) := by
    rw [List.map_map]
    exact (List.map_id es).symm
  obtain ⟨hws, hh⟩ := readAll_eq_tracked o 0 ts (es.map fun e => ⟨e, []⟩) {}
  rw [← hes] at hws hh
  simp only [run, log]
  rw [hws, bare_foldl_close o ts.length, hh, List.foldl_append, foldl_replay_ended]
  rfl

end Extractor

end Outline
