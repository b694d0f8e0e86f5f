import Mathlib.Data.List.Forall2
import Mathlib.Data.List.Nodup
import Outline.Tree.Basic

/-!
# Trees that grow in place stay trees

A `Tree` says twice how its entries hang together: each entry names the one above it, and each
entry lists those below it.  `Tree.Linked` says that the two agree.  It holds of a single entry and
is kept by both ways of changing the shape of a tree:

* `Linked.push` — adding an entry below another one, as long as there is a name for it;
  `not_linked_push` tells what happens behind that.
* `Linked.adopt` — moving trailing children one level down.

What lies below an entry is its nested form, `Tree.rose?`.  It depends only on the entries below
(`Tree.rose?_congr`) and not on how deep one looks (`Tree.rose?_mono`).
-/

namespace Outline

namespace Tree

variable {α : Type}

/-! ## Entries after a change -/

theorem entry?_modify (t : Tree α) (f : Entry α → Entry α) (n m : Nat) :
    Tree.entry? (t.modify f n) m = if m = n then (t.entry? m).map f else t.entry? m := by
  cases n with
  | zero => cases m <;> simp [modify, entry?]
  | succ n =>
      cases m with
      | zero => simp [modify, entry?]
      | succ m =>
          simp only [modify, entry?, Array.getElem?_modify, Nat.add_right_cancel_iff]
          by_cases h : n = m
          · rw [if_pos h, if_pos h.symm]
          · rw [if_neg h, if_neg (Ne.symm h)]

@[simp] theorem size_modify (t : Tree α) (f : Entry α → Entry α) (n : Nat) :
    (t.modify f n).size = t.size := by
  cases n <;> simp [modify, size]

theorem entry?_eq_none {t : Tree α} {n : Nat} (h : t.size ≤ n) : t.entry? n = none := by
  cases n with
  | zero => simp [size] at h
  | succ n =>
      rw [size] at h
      exact Array.getElem?_eq_none (by omega)

theorem exists_entry? {t : Tree α} {n : Nat} (h : n < t.size) : ∃ e, t.entry? n = some e := by
  cases n with
  | zero => exact ⟨t.root, rfl⟩
  | succ n =>
      rw [size] at h
      exact ⟨t.rest[n], Array.getElem?_eq_getElem (by omega)⟩

@[simp] theorem size_push (t : Tree α) (parent : Nat) (a : α) :
    (t.push parent a).size = t.size + 1 := by
  rw [push, size_modify]
  simp [size]

/-- While there are names, an entry is named by its place. -/
theorem nextName_eq {t : Tree α} (h : t.size < width) : t.nextName = t.size := Nat.mod_eq_of_lt h

/-- The entry that is pushed, the one below which it is pushed, and the others. -/
theorem entry?_push (t : Tree α) {parent : Nat} (a : α) (hp : parent < t.size) (m : Nat) :
    Tree.entry? (t.push parent a) m =
      if m = t.size then some ⟨a, some parent, []⟩
      else if m = parent then
        (t.entry? m).map (fun e => { e with children := e.children ++ [t.nextName] })
      else t.entry? m := by
  have hgrown : ∀ m, Tree.entry? { t with rest := t.rest.push ⟨a, some parent, []⟩ } m =
      if m = t.size then some ⟨a, some parent, []⟩ else t.entry? m := by
    intro m
    cases m with
    | zero => simp [ entry?, size]
    | succ m => simp [ entry?, size, Array.getElem?_push]
  rw [push, entry?_modify, hgrown]
  by_cases hm : m = t.size
  · rw [if_pos hm, if_neg (by omega), if_pos hm]
  · rw [if_neg hm, if_neg hm]

theorem children_eq_of_entry? {t : Tree α} {n : Nat} {e : Entry α} (h : t.entry? n = some e) :
    t.children n = e.children := by
  rw [children, h, Option.map_some, Option.getD_some]

theorem parent?_eq_of_entry? {t : Tree α} {n : Nat} {e : Entry α} (h : t.entry? n = some e) :
    t.parent? n = e.parent := by
  rw [parent?, h, Option.bind_some]

/-! ## Parents and children agree -/

/-- Parents and child lists tell the same tree: every entry but the root stands exactly once in
exactly one child list, which is that of the entry that it names as its parent. -/
structure Linked (t : Tree α) : Prop where
  /-- The root lies below nothing. -/
  root : t.parent? 0 = none
  /-- Child lists hold names of entries other than the root. -/
  bounds : ∀ q, ∀ m ∈ t.children q, 0 < m ∧ m < t.size
  /-- Every other entry stands once in the list of its parent and in no other list. -/
  once : ∀ n, 0 < n → n < t.size → ∃ p, t.parent? n = some p ∧
    ∀ q, (t.children q).count n = if q = p then 1 else 0

theorem linked_singleton (a : α) : (singleton a).Linked where
  root := rfl
  bounds := by
    intro q m hm
    cases q <;> simp [children, entry?, singleton] at hm
  once := by
    intro n hpos hn
    simp [size, singleton] at hn
    omega

/-! ### Adding an entry -/

theorem children_push (t : Tree α) {parent : Nat} (a : α) (hp : parent < t.size) (q : Nat) :
    (t.push parent a).children q =
      if q = parent then t.children q ++ [t.nextName] else t.children q := by
  have hnone : t.children t.size = [] := by rw [children, entry?_eq_none (Nat.le_refl _)]; rfl
  rw [children, entry?_push t a hp]
  by_cases hq : q = t.size
  · rw [if_pos hq, if_neg (by omega), hq, hnone]
    rfl
  · rw [if_neg hq]
    by_cases hqp : q = parent
    · obtain ⟨e, he⟩ := exists_entry? hp
      rw [if_pos hqp, if_pos hqp, hqp, he, children_eq_of_entry? he]
      rfl
    · rw [if_neg hqp, if_neg hqp]
      rfl

theorem parent?_push (t : Tree α) {parent : Nat} (a : α) (hp : parent < t.size) (n : Nat) :
    (t.push parent a).parent? n = if n = t.size then some parent else t.parent? n := by
  rw [parent?, entry?_push t a hp]
  by_cases hn : n = t.size
  · rw [if_pos hn, if_pos hn]
    rfl
  · rw [if_neg hn, if_neg hn]
    by_cases hnp : n = parent
    · obtain ⟨e, he⟩ := exists_entry? hp
      rw [if_pos hnp, hnp, he, parent?_eq_of_entry? he]
      rfl
    · rw [if_neg hnp]
      rfl

theorem Linked.push {t : Tree α} (h : t.Linked) (room : t.size < width) {parent : Nat} (a : α)
    (hp : parent < t.size) : (t.push parent a).Linked where
  root := by
    rw [parent?_push t a hp, if_neg (by omega)]
    exact h.root
  bounds := by
    intro q m hm
    rw [children_push t a hp, nextName_eq room] at hm
    rw [size_push]
    split at hm
    · rcases List.mem_append.1 hm with hm | hm
      · have := h.bounds q m hm
        omega
      · rw [List.mem_singleton.1 hm]
        omega
    · have := h.bounds q m hm
      omega
  once := by
    intro n hpos hn
    rw [size_push] at hn
    by_cases hnew : n = t.size
    · -- the new entry, which no list held before
      subst hnew
      refine ⟨parent, by rw [parent?_push t a hp, if_pos rfl], fun q => ?_⟩
      have habsent : (t.children q).count t.size = 0 :=
        List.count_eq_zero.2 fun hm => by have := h.bounds q _ hm; omega
      rw [children_push t a hp, nextName_eq room]
      split
      · rw [List.count_append, habsent, List.count_singleton_self]
      · exact habsent
    · obtain ⟨p, hparent, honce⟩ := h.once n hpos (by omega)
      refine ⟨p, by rw [parent?_push t a hp, if_neg hnew, hparent], fun q => ?_⟩
      rw [children_push t a hp, nextName_eq room, ← honce q]
      split
      · rw [List.count_append, List.count_singleton, beq_eq_false_iff_ne.2 (Ne.symm hnew)]
        rfl
      · rfl

/-- Where the names have run out, the next entry gets the name of the root. -/
theorem not_linked_push {t : Tree α} (hfull : t.size = width) {parent : Nat} (a : α)
    (hp : parent < t.size) : ¬ (t.push parent a).Linked := by
  intro h
  have hname : t.nextName = 0 := by rw [nextName, hfull, Nat.mod_self]
  have hzero : 0 ∈ (t.push parent a).children parent := by
    rw [children_push t a hp, if_pos rfl, hname]
    exact List.mem_append_right _ (List.mem_singleton.2 rfl)
  exact Nat.lt_irrefl 0 (h.bounds parent 0 hzero).1

/-! ### Moving children -/

/-- Gives the listed entries a new parent, as `adopt` does. -/
def reparent (target : Nat) (names : List Nat) (t : Tree α) : Tree α :=
  names.foldl (fun t n => t.modify (fun e => { e with parent := some target }) n) t

theorem entry?_reparent (target : Nat) (names : List Nat) (t : Tree α) (m : Nat) :
    Tree.entry? (reparent target names t) m =
      if m ∈ names then (t.entry? m).map (fun e => { e with parent := some target })
      else t.entry? m := by
  induction names generalizing t with
  | nil => simp [reparent]
  | cons n names ih =>
      have hstep : reparent target (n :: names) t =
          reparent target names (t.modify (fun e => { e with parent := some target }) n) := rfl
      rw [hstep, ih, entry?_modify]
      by_cases hm : m = n
      · subst hm
        by_cases hin : m ∈ names
        · rw [if_pos hin, if_pos rfl, if_pos (List.mem_cons_self ..), Option.map_map]
          rfl
        · rw [if_neg hin, if_pos rfl, if_pos (List.mem_cons_self ..)]
      · rw [if_neg hm]
        by_cases hin : m ∈ names
        · rw [if_pos hin, if_pos (List.mem_cons_of_mem _ hin)]
        · rw [if_neg hin, if_neg (by rw [List.mem_cons]; exact not_or_intro hm hin)]

@[simp] theorem size_reparent (target : Nat) (names : List Nat) (t : Tree α) :
    (reparent target names t).size = t.size := by
  induction names generalizing t with
  | nil => rfl
  | cons n names ih =>
      rw [show reparent target (n :: names) t =
        reparent target names (t.modify (fun e => { e with parent := some target }) n) from rfl,
        ih, size_modify]

/-- Whether `adopt` takes the entry named `n` for one that satisfies `p`. -/
def holds (t : Tree α) (p : α → Bool) (n : Nat) : Bool := ((t.value? n).map p).getD false

theorem append_of_trailingRun {p : Nat → Bool} {target : Nat} {names kept run : List Nat}
    (h : trailingRun p target names = (kept, run)) : kept ++ run = names := by
  obtain ⟨rfl, rfl⟩ := Prod.mk.inj h
  rw [← List.reverse_append, List.takeWhile_append_dropWhile, List.reverse_reverse]

section Adopt

variable {t : Tree α} {source target : Nat} {p : α → Bool} {kept run : List Nat}

theorem entry?_adopt (hne : source ≠ target)
    (hsplit : trailingRun (t.holds p) target (t.children source) = (kept, run)) (m : Nat) :
    Tree.entry? (t.adopt source target p).1 m = (t.entry? m).map fun e =>
      { value := e.value
        parent := if m ∈ run.erase target then some target else e.parent
        children :=
          if m = source then if run.contains target then kept ++ [target] else kept
          else if m = target then run.erase target ++ e.children
          else e.children } := by
  have hadopt : (t.adopt source target p).1 =
      let left := if run.contains target then kept ++ [target] else kept
      let cut := t.modify (fun e => { e with children := left }) source
      (reparent target (run.erase target) cut).modify
        (fun e => { e with children := run.erase target ++ e.children }) target := by
    have hrun : trailingRun (fun n => ((t.value? n).map p).getD false) target (t.children source) =
      (kept, run) := hsplit
    simp only [adopt, hrun]
    rfl
  rw [hadopt, entry?_modify, entry?_reparent, entry?_modify]
  cases he : t.entry? m with
  | none => simp
  | some e =>
      by_cases hs : m = source
      · subst hs
        by_cases hr : m ∈ run.erase target
        · simp [hne, hr]
        · simp [hne, hr]
      · by_cases ht : m = target
        · subst ht
          by_cases hr : m ∈ run.erase m
          · simp [hs, hr]
          · simp [hs, hr]
        · by_cases hr : m ∈ run.erase target
          · simp [hs, ht, hr]
          · simp [hs, ht, hr]

theorem size_adopt (t : Tree α) (source target : Nat) (p : α → Bool) :
    (t.adopt source target p).1.size = t.size := by
  have hsize : ∀ (names : List Nat) (u : Tree α), (names.foldl
      (fun t n => t.modify (fun e => { e with parent := some target }) n) u).size = u.size :=
    fun names u => size_reparent target names u
  simp only [adopt]
  rw [size_modify, hsize, size_modify]

theorem children_adopt (hne : source ≠ target) (hs : source < t.size) (ht : target < t.size)
    (hsplit : trailingRun (t.holds p) target (t.children source) = (kept, run)) (q : Nat) :
    (t.adopt source target p).1.children q =
      if q = source then if run.contains target then kept ++ [target] else kept
      else if q = target then run.erase target ++ t.children q
      else t.children q := by
  rw [children, entry?_adopt hne hsplit]
  by_cases hq : q < t.size
  · obtain ⟨e, he⟩ := exists_entry? hq
    rw [he, children_eq_of_entry? he]
    rfl
  · have hqs : q ≠ source := by omega
    have hqt : q ≠ target := by omega
    rw [if_neg hqs, if_neg hqt, children, entry?_eq_none (Nat.le_of_not_lt hq)]
    rfl

theorem parent?_adopt (hne : source ≠ target)
    (hsplit : trailingRun (t.holds p) target (t.children source) = (kept, run)) {n : Nat}
    (hn : n < t.size) :
    (t.adopt source target p).1.parent? n =
      if n ∈ run.erase target then some target else t.parent? n := by
  obtain ⟨e, he⟩ := exists_entry? hn
  rw [parent?, entry?_adopt hne hsplit, he, parent?_eq_of_entry? he]
  rfl

theorem value?_adopt (hne : source ≠ target)
    (hsplit : trailingRun (t.holds p) target (t.children source) = (kept, run)) (n : Nat) :
    (t.adopt source target p).1.value? n = t.value? n := by
  rw [value?, entry?_adopt hne hsplit, Option.map_map, value?]
  rfl

/-- How often a name is left below `source`: not at all if it moves, and as often as before
otherwise. -/
theorem count_left (hnodup : (kept ++ run).Nodup) (n : Nat) :
    (if run.contains target then kept ++ [target] else kept).count n =
      if n ∈ run.erase target then 0 else (kept ++ run).count n := by
  have hparts := List.nodup_append.1 hnodup
  have hcount := List.nodup_iff_count_le_one.1 hnodup n
  rw [List.count_append] at hcount ⊢
  by_cases hnt : n = target
  · subst hnt
    have hgone : n ∉ run.erase n := hparts.2.1.not_mem_erase
    rw [if_neg hgone]
    split
    · rename_i hin
      have := List.count_pos_iff.2 (List.contains_iff_mem.1 hin)
      rw [List.count_append, List.count_singleton_self]
      omega
    · rename_i hout
      rw [List.count_eq_zero.2 (mt List.contains_iff_mem.2 hout), Nat.add_zero]
  · have hleft : (if run.contains target then kept ++ [target] else kept).count n =
        kept.count n := by
      split
      · rw [List.count_append, List.count_singleton, beq_eq_false_iff_ne.2 (Ne.symm hnt)]
        rfl
      · rfl
    rw [hleft]
    by_cases hin : n ∈ run
    · have hpos := List.count_pos_iff.2 hin
      rw [if_pos ((List.mem_erase_of_ne hnt).2 hin)]
      omega
    · rw [if_neg (mt (List.mem_erase_of_ne hnt).1 hin), List.count_eq_zero.2 hin, Nat.add_zero]

theorem Linked.nodup_children (h : t.Linked) (q : Nat) : (t.children q).Nodup := by
  rw [List.nodup_iff_count_le_one]
  intro n
  by_cases hin : n ∈ t.children q
  · obtain ⟨p, -, honce⟩ := h.once n (h.bounds q n hin).1 (h.bounds q n hin).2
    rw [honce]
    split <;> omega
  · rw [List.count_eq_zero.2 hin]
    omega

theorem lt_size_of_mem_children {n m : Nat} (hm : m ∈ t.children n) : n < t.size := by
  by_contra hout
  rw [children, entry?_eq_none (by omega)] at hm
  exact absurd hm List.not_mem_nil

theorem mem_children_of_moved
    (hsplit : trailingRun (t.holds p) target (t.children source) = (kept, run)) {n : Nat}
    (hn : n ∈ run.erase target) : n ∈ t.children source := by
  rw [← append_of_trailingRun hsplit]
  exact List.mem_append_right _ (List.mem_of_mem_erase hn)

theorem Linked.nodup_split (h : t.Linked)
    (hsplit : trailingRun (t.holds p) target (t.children source) = (kept, run)) :
    (kept ++ run).Nodup := by
  rw [append_of_trailingRun hsplit]
  exact h.nodup_children source

theorem Linked.children_adopt (h : t.Linked) (hne : source ≠ target)
    (htarget : target ∈ t.children source)
    (hsplit : trailingRun (t.holds p) target (t.children source) = (kept, run)) (q : Nat) :
    (t.adopt source target p).1.children q =
      if q = source then if run.contains target then kept ++ [target] else kept
      else if q = target then run.erase target ++ t.children q
      else t.children q :=
  Tree.children_adopt hne (lt_size_of_mem_children htarget) (h.bounds source target htarget).2 hsplit q

/-- No child list holds a name that none of them held before. -/
theorem Linked.mem_children_of_adopt (h : t.Linked) (hne : source ≠ target)
    (htarget : target ∈ t.children source)
    (hsplit : trailingRun (t.holds p) target (t.children source) = (kept, run)) {q n : Nat}
    (hn : n ∈ (t.adopt source target p).1.children q) : ∃ r, n ∈ t.children r := by
  rw [h.children_adopt hne htarget hsplit] at hn
  split at hn
  · refine ⟨source, ?_⟩
    rw [← append_of_trailingRun hsplit, ← List.count_pos_iff]
    rw [← List.count_pos_iff, count_left (h.nodup_split hsplit)] at hn
    split at hn
    · omega
    · exact hn
  · split at hn
    · rcases List.mem_append.1 hn with hn | hn
      · exact ⟨source, mem_children_of_moved hsplit hn⟩
      · exact ⟨q, hn⟩
    · exact ⟨q, hn⟩

/-- A name that moves stands in the list of `target` only. -/
theorem Linked.count_moved (h : t.Linked) (hne : source ≠ target)
    (htarget : target ∈ t.children source)
    (hsplit : trailingRun (t.holds p) target (t.children source) = (kept, run)) {n : Nat}
    (hn : n ∈ run.erase target) (q : Nat) :
    ((t.adopt source target p).1.children q).count n = if q = target then 1 else 0 := by
  have hnodup := h.nodup_split hsplit
  have hbelow := mem_children_of_moved hsplit hn
  have hbound := h.bounds source n hbelow
  obtain ⟨r, -, honce⟩ := h.once n hbound.1 hbound.2
  have hr : r = source := by
    by_contra hr
    have hpos := List.count_pos_iff.2 hbelow
    rw [honce, if_neg (Ne.symm hr)] at hpos
    omega
  rw [h.children_adopt hne htarget hsplit]
  by_cases hq : q = source
  · rw [if_pos hq, count_left hnodup, if_pos hn, if_neg (by rw [hq]; exact hne)]
  · rw [if_neg hq]
    by_cases hqt : q = target
    · have hmoved : (run.erase target).count n = 1 :=
        List.count_eq_one_of_mem ((List.nodup_append.1 hnodup).2.1.erase target) hn
      rw [if_pos hqt, if_pos hqt, List.count_append, hmoved, honce, if_neg (by rw [hr]; exact hq)]
    · rw [if_neg hqt, if_neg hqt, honce, if_neg (by rw [hr]; exact hq)]

/-- A name that does not move stands where it stood. -/
theorem Linked.count_kept (h : t.Linked) (hne : source ≠ target)
    (htarget : target ∈ t.children source)
    (hsplit : trailingRun (t.holds p) target (t.children source) = (kept, run)) {n : Nat}
    (hn : n ∉ run.erase target) (q : Nat) :
    ((t.adopt source target p).1.children q).count n = (t.children q).count n := by
  rw [h.children_adopt hne htarget hsplit]
  by_cases hq : q = source
  · rw [if_pos hq, count_left (h.nodup_split hsplit), if_neg hn, append_of_trailingRun hsplit, hq]
  · rw [if_neg hq]
    split
    · rw [List.count_append, List.count_eq_zero.2 hn, Nat.zero_add]
    · rfl

theorem Linked.adopt (h : t.Linked) (hne : source ≠ target) (htarget : target ∈ t.children source)
    (p : α → Bool) : (t.adopt source target p).1.Linked := by
  obtain ⟨kept, run, hsplit⟩ : ∃ kept run,
      trailingRun (t.holds p) target (t.children source) = (kept, run) := ⟨_, _, rfl⟩
  refine ⟨?_, ?_, ?_⟩
  · have hzero : 0 ∉ run.erase target := fun hmem =>
      Nat.lt_irrefl 0 (h.bounds source 0 (mem_children_of_moved hsplit hmem)).1
    have hsize := lt_size_of_mem_children htarget
    rw [parent?_adopt hne hsplit (by omega), if_neg hzero]
    exact h.root
  · intro q n hn
    obtain ⟨r, hr⟩ := h.mem_children_of_adopt hne htarget hsplit hn
    rw [size_adopt]
    exact h.bounds r n hr
  · intro n hpos hn
    rw [size_adopt] at hn
    by_cases hin : n ∈ run.erase target
    · exact ⟨target, by rw [parent?_adopt hne hsplit hn, if_pos hin],
        h.count_moved hne htarget hsplit hin⟩
    · obtain ⟨q, hparent, honce⟩ := h.once n hpos hn
      refine ⟨q, by rw [parent?_adopt hne hsplit hn, if_neg hin, hparent], fun r => ?_⟩
      rw [h.count_kept hne htarget hsplit hin, honce]

theorem trailingRun_append {inside : Nat → Bool} {before inner : List Nat}
    (hbefore : ∀ n ∈ before.getLast?, n ≠ target ∧ inside n = false)
    (hinner : ∀ n ∈ inner, inside n = true) :
    trailingRun inside target (before ++ inner ++ [target]) = (before, inner ++ [target]) := by
  have hback : (before ++ inner ++ [target]).reverse =
      (inner ++ [target]).reverse ++ before.reverse := by
    rw [← List.reverse_append, List.append_assoc]
  have hrun : ∀ n ∈ (inner ++ [target]).reverse, (n == target || inside n) = true := by
    intro n hn
    rcases List.mem_append.1 (List.mem_reverse.1 hn) with hn | hn
    · rw [hinner n hn, Bool.or_true]
    · rw [List.mem_singleton.1 hn, beq_self_eq_true, Bool.true_or]
  have hstop : before.reverse.head?.all (fun n => !(n == target || inside n)) = true := by
    rw [List.head?_reverse]
    cases hlast : before.getLast? with
    | none => rfl
    | some n =>
        obtain ⟨hne, hout⟩ := hbefore n hlast
        rw [Option.all_some, hout, beq_eq_false_iff_ne.2 hne]
        rfl
  rw [trailingRun, hback, List.dropWhile_append_of_pos hrun, List.takeWhile_append_of_pos hrun]
  cases hrev : before.reverse with
  | nil =>
      obtain rfl := List.reverse_eq_nil_iff.1 hrev
      simp
  | cons n rest =>
      rw [hrev, List.head?_cons, Option.all_some, Bool.not_eq_true'] at hstop
      rw [List.dropWhile_cons, List.takeWhile_cons, hstop, ← hrev]
      simp

end Adopt

/-! ## Nested forms -/

theorem rose?_succ (t : Tree α) (depth n : Nat) :
    t.rose? (depth + 1) n =
      (t.value? n).bind fun a => ((t.children n).mapM (t.rose? depth)).map (.node a) := by
  rw [rose?, value?, children]
  cases t.entry? n with
  | none => rfl
  | some e =>
      simp only [Option.map_some, Option.getD_some, Option.bind_eq_bind, Option.bind_some]
      cases e.children.mapM (t.rose? depth) <;> rfl

theorem mapM_eq_some_iff_forall₂ {β γ : Type} {f : β → Option γ} {bs : List β} {cs : List γ} :
    bs.mapM f = some cs ↔ List.Forall₂ (fun b c => f b = some c) bs cs := by
  induction bs generalizing cs with
  | nil => simp [List.forall₂_nil_left_iff, eq_comm]
  | cons b bs ih =>
      rw [List.mapM_cons, List.forall₂_cons_left_iff]
      constructor
      · intro h
        obtain ⟨c, hc, h⟩ := Option.bind_eq_some_iff.1 h
        obtain ⟨cs', hcs, h⟩ := Option.bind_eq_some_iff.1 h
        exact ⟨c, cs', hc, ih.1 hcs, (Option.some.inj h).symm⟩
      · rintro ⟨c, cs', hc, hcs, rfl⟩
        rw [hc, ih.2 hcs]
        rfl

theorem mapM_congr_of_mem {β γ : Type} {f g : β → Option γ} {bs : List β}
    (h : ∀ b ∈ bs, f b = g b) : bs.mapM f = bs.mapM g := by
  induction bs with
  | nil => rfl
  | cons b bs ih =>
      rw [List.mapM_cons, List.mapM_cons, h b (List.mem_cons_self ..),
        ih fun b hb => h b (List.mem_cons_of_mem _ hb)]

/-- Looking deeper finds the same. -/
theorem rose?_mono {t : Tree α} {depth deeper n : Nat} {r : Rose α}
    (h : t.rose? depth n = some r) (hle : depth ≤ deeper) : t.rose? deeper n = some r := by
  induction depth generalizing deeper n r with
  | zero => simp [rose?] at h
  | succ depth ih =>
      obtain ⟨deeper, rfl⟩ : ∃ k, deeper = k + 1 := ⟨deeper - 1, by omega⟩
      rw [rose?_succ] at h ⊢
      obtain ⟨a, ha, h⟩ := Option.bind_eq_some_iff.1 h
      obtain ⟨below, hbelow, rfl⟩ := Option.map_eq_some_iff.1 h
      have hdeep : (t.children n).mapM (t.rose? deeper) = some below :=
        mapM_eq_some_iff_forall₂.2 ((mapM_eq_some_iff_forall₂.1 hbelow).imp
          fun _ _ hm => ih hm (by omega))
      rw [ha, Option.bind_some, hdeep, Option.map_some]

/-- Two trees that agree on a set of names have the same nested forms there, if the set is closed
under going down. -/
theorem rose?_congr {t t' : Tree α} {S : Nat → Prop}
    (hvalue : ∀ m, S m → t'.value? m = t.value? m)
    (hchildren : ∀ m, S m → t'.children m = t.children m)
    (hclosed : ∀ m, S m → ∀ c ∈ t.children m, S c) (depth : Nat) {n : Nat} (hn : S n) :
    t'.rose? depth n = t.rose? depth n := by
  induction depth generalizing n with
  | zero => rfl
  | succ depth ih =>
      have hbelow : (t.children n).mapM (t'.rose? depth) = (t.children n).mapM (t.rose? depth) :=
        mapM_congr_of_mem fun c hc => ih (hclosed n hn c hc)
      rw [rose?_succ, rose?_succ, hvalue n hn, hchildren n hn, hbelow]

end Tree

end Outline
