import Mathlib.Data.List.TakeWhile
import Mathlib.Data.Set.Card
import Mathlib.Order.Interval.Finset.Nat
import Outline.Proofs.Tree.Linked

/-!
# Trees that adding and moving lead to

A `Tree` starts as one value and changes its shape in two ways: an entry is added below another
one, and the trailing children of an entry move below one of its children.  `Tree.Built` says that
a tree comes about in this way, and that each entry was added while there was a name for it.

That parents and child lists agree does not tell that an entry lies below the root: entries that
name each other in a ring agree as well.  `Tree.Rooted` says that the way down from the root leads
to every entry.

* `Rooted.push`, `Rooted.adopt` — both ways of changing the shape of a tree keep it so.
* `Rooted.ncard_below` — in such a tree all entries but one lie below the root.
* `Descends` — the way down from one entry to another, with its length.
* `Linked.depth_unique` — the root has one way down to each entry, so that no entry lies below
  itself.
* `Built.linked`, `Built.rooted` — what is built hangs together.
* `Adoption` — what moving trailing children changes, and what it leaves alone.
* `Built.hangs_together` — every tree that is built is a tree, and each move is as it should be.
-/

namespace Outline

namespace Tree

variable {α : Type} {t : Tree α} {source target : Nat}

/-! ## What lies below the root -/

/-- The way down from the root leads to an entry. -/
inductive Reaches (t : Tree α) : Nat → Prop where
  /-- The root itself. -/
  | root : Reaches t 0
  /-- An entry directly below one that is reached. -/
  | child {n m : Nat} (above : Reaches t n) (hm : m ∈ t.children n) : Reaches t m

/-- Every entry is reached. -/
def Rooted (t : Tree α) : Prop := ∀ n < t.size, t.Reaches n

/-- Only entries are reached. -/
theorem Reaches.lt_size {n : Nat} (h : t.Reaches n) (hlinked : t.Linked) : n < t.size := by
  cases h with
  | root => exact Nat.succ_pos _
  | child above hm => exact (hlinked.bounds _ _ hm).2

theorem rooted_singleton (a : α) : (singleton a).Rooted := by
  intro n hn
  obtain rfl : n = 0 := Nat.lt_one_iff.1 hn
  exact .root

/-- What is reached before an entry is added is reached afterwards. -/
theorem Reaches.push {n : Nat} (h : t.Reaches n) {parent : Nat} (a : α) (hp : parent < t.size) :
    (t.push parent a).Reaches n := by
  induction h with
  | root => exact .root
  | @child n m _ hm ih =>
      refine .child ih ?_
      rw [children_push t a hp]
      split
      · exact List.mem_append_left _ hm
      · exact hm

theorem Rooted.push (h : t.Rooted) (room : t.size < width) {parent : Nat} (a : α)
    (hp : parent < t.size) : (t.push parent a).Rooted := by
  intro n hn
  by_cases hnew : n = t.size
  · -- the new entry stands below its parent
    refine .child ((h parent hp).push a hp) ?_
    rw [hnew, children_push t a hp, if_pos rfl, nextName_eq room]
    exact List.mem_append_right _ (List.mem_singleton.2 rfl)
  · rw [size_push] at hn
    exact (h n (by omega)).push a hp

/-- What is reached before entries move is reached afterwards, the moved ones by way of their new
parent. -/
theorem Reaches.adopt {n : Nat} (h : t.Reaches n) (hne : source ≠ target)
    (hsource : source < t.size) (htarget : target < t.size) (hchild : target ∈ t.children source)
    (p : α → Bool) : (t.adopt source target p).1.Reaches n := by
  obtain ⟨kept, run, hsplit⟩ : ∃ kept run,
      trailingRun (t.holds p) target (t.children source) = (kept, run) := ⟨_, _, rfl⟩
  have hchildren := children_adopt hne hsource htarget hsplit
  have hall := append_of_trailingRun hsplit
  -- `target` stays below `source`
  have hstays : target ∈ (t.adopt source target p).1.children source := by
    rw [hchildren, if_pos rfl]
    split
    next => exact List.mem_append_right _ (List.mem_singleton.2 rfl)
    next hout =>
        rw [← hall] at hchild
        exact (List.mem_append.1 hchild).resolve_right (mt List.contains_iff_mem.2 hout)
  induction h with
  | root => exact .root
  | @child n m _ hm ih =>
      by_cases hn : n = source
      · rw [hn] at ih hm
        by_cases hmt : m = target
        · rw [hmt]
          exact .child ih hstays
        · rw [← hall] at hm
          rcases List.mem_append.1 hm with hm | hm
          · refine .child ih ?_
            rw [hchildren, if_pos rfl]
            split
            · exact List.mem_append_left _ hm
            · exact hm
          · refine .child (.child ih hstays) ?_
            rw [hchildren, if_neg hne.symm, if_pos rfl]
            exact List.mem_append_left _ ((List.mem_erase_of_ne hmt).2 hm)
      · refine .child ih ?_
        rw [hchildren, if_neg hn]
        split
        · exact List.mem_append_right _ hm
        · exact hm

theorem Rooted.adopt (h : t.Rooted) (hne : source ≠ target) (hsource : source < t.size)
    (htarget : target < t.size) (hchild : target ∈ t.children source) (p : α → Bool) :
    (t.adopt source target p).1.Rooted := by
  intro n hn
  rw [size_adopt] at hn
  exact (h n hn).adopt hne hsource htarget hchild p

/-- All entries but the root lie below it. -/
theorem Rooted.ncard_below (h : t.Rooted) (hlinked : t.Linked) :
    {n | n ≠ 0 ∧ t.Reaches n}.ncard = t.size - 1 := by
  have hset : {n | n ≠ 0 ∧ t.Reaches n} = (Finset.Ioo 0 t.size : Set Nat) := by
    ext n
    rw [Set.mem_ofPred_eq, Finset.coe_Ioo, Set.mem_Ioo, Nat.pos_iff_ne_zero]
    exact and_congr_right fun _ => ⟨fun hn => hn.lt_size hlinked, h n⟩
  rw [hset, Set.ncard_coe_finset, Nat.card_Ioo, Nat.sub_zero]

/-! ## The way down -/

/-- So many steps from an entry to one of its children lead from `start` down to an entry. -/
inductive Descends (t : Tree α) (start : Nat) : Nat → Nat → Prop where
  /-- No step leads away. -/
  | here : Descends t start start 0
  /-- A step to a child. -/
  | down {n m depth : Nat} (above : Descends t start n depth) (hm : m ∈ t.children n) :
      Descends t start m (depth + 1)

theorem Descends.trans {a b c j k : Nat} (hab : t.Descends a b j) (hbc : t.Descends b c k) :
    t.Descends a c (j + k) := by
  induction hbc with
  | here => exact hab
  | down _ hm ih => exact ih.down hm

theorem Descends.of_child {n c m depth : Nat} (hc : c ∈ t.children n)
    (h : t.Descends c m depth) : t.Descends n m (depth + 1) := by
  rw [Nat.add_comm]
  exact (Descends.here.down hc).trans h

theorem Reaches.exists_descends {n : Nat} (h : t.Reaches n) : ∃ depth, t.Descends 0 n depth := by
  induction h with
  | root => exact ⟨0, .here⟩
  | child _ hm ih =>
      obtain ⟨depth, hdepth⟩ := ih
      exact ⟨depth + 1, hdepth.down hm⟩

namespace Linked

variable {a b n m j k : Nat}

/-- The entry in whose list a name stands is its parent. -/
theorem parent?_of_mem (h : t.Linked) (hm : m ∈ t.children n) : t.parent? m = some n := by
  obtain ⟨p, hparent, honce⟩ := h.once m (h.bounds n m hm).1 (h.bounds n m hm).2
  have hcount := List.count_pos_iff.2 hm
  rw [honce] at hcount
  split at hcount
  next hn => rw [hparent, hn]
  next => exact absurd hcount (Nat.lt_irrefl 0)

/-- A name stands in one list only. -/
theorem mem_children_unique (h : t.Linked) (ha : m ∈ t.children a) (hb : m ∈ t.children b) :
    a = b :=
  Option.some.inj ((h.parent?_of_mem ha).symm.trans (h.parent?_of_mem hb))

theorem lt_size_of_descends (h : t.Linked) (ha : a < t.size) (hd : t.Descends a m k) :
    m < t.size := by
  cases hd with
  | here => exact ha
  | down _ hm => exact (h.bounds _ _ hm).2

/-- An entry is as deep below the root as its way down from there is long, and there is one such
way only. -/
theorem depth_unique (h : t.Linked) (hj : t.Descends 0 n j) (hk : t.Descends 0 n k) : j = k := by
  induction hj generalizing k with
  | here =>
      cases hk with
      | here => rfl
      | down _ hm => exact absurd (h.bounds _ _ hm).1 (Nat.lt_irrefl 0)
  | down _ hm ih =>
      cases hk with
      | here => exact absurd (h.bounds _ _ hm).1 (Nat.lt_irrefl 0)
      | down above hm' =>
          obtain rfl := h.mem_children_unique hm hm'
          rw [ih above]

/-- Going up as many steps from the same entry ends at the same entry. -/
theorem start_unique (h : t.Linked) (ha : t.Descends a m k) (hb : t.Descends b m k) : a = b := by
  induction ha with
  | here =>
      cases hb
      rfl
  | down _ hm ih =>
      cases hb with
      | down above hm' =>
          obtain rfl := h.mem_children_unique hm hm'
          exact ih above

/-- No entry is a child of itself. -/
theorem ne_of_mem_children (h : t.Linked) (hrooted : t.Rooted) (hm : m ∈ t.children n) :
    n ≠ m := by
  rintro rfl
  obtain ⟨depth, hdepth⟩ := (hrooted n (h.bounds n n hm).2).exists_descends
  exact absurd (h.depth_unique hdepth (hdepth.down hm)) (Nat.ne_of_lt (Nat.lt_succ_self depth))

end Linked

/-! ## Building -/

/-- The trees that come from one value by adding entries and by moving the trailing children of an
entry below one of its children. -/
inductive Built : Tree α → Prop where
  /-- One value. -/
  | singleton (a : α) : Built (singleton a)
  /-- An entry is added below another one, and there is a name for it. -/
  | push {t : Tree α} (built : Built t) (room : t.size < width) {parent : Nat}
      (hp : parent < t.size) (a : α) : Built (t.push parent a)
  /-- Trailing children of an entry move below one of its children. -/
  | adopt {t : Tree α} (built : Built t) {source target : Nat}
      (child : target ∈ t.children source) (p : α → Bool) : Built (t.adopt source target p).1

theorem Built.linked_rooted (h : t.Built) : t.Linked ∧ t.Rooted := by
  induction h with
  | singleton a => exact ⟨linked_singleton a, rooted_singleton a⟩
  | push _ room hp a ih => exact ⟨ih.1.push room a hp, ih.2.push room a hp⟩
  | adopt _ child p ih =>
      have hne := ih.1.ne_of_mem_children ih.2 child
      exact ⟨ih.1.adopt hne child p, ih.2.adopt hne (lt_size_of_mem_children child)
        (ih.1.bounds _ _ child).2 child p⟩

/-- Parents and child lists of what is built agree. -/
theorem Built.linked (h : t.Built) : t.Linked := h.linked_rooted.1

/-- All of what is built lies below the root. -/
theorem Built.rooted (h : t.Built) : t.Rooted := h.linked_rooted.2

/-- There is a name for each entry of what is built. -/
theorem Built.size_le (h : t.Built) : t.size ≤ width := by
  induction h with
  | singleton a =>
      have hone : 1 ≤ width := by decide
      exact hone
  | push _ room hp a _ =>
      rw [size_push]
      exact room
  | adopt _ child p ih =>
      rw [size_adopt]
      exact ih

/-! ## Moving children -/

variable {p : α → Bool} {kept run : List Nat}

/-- The longest run of trailing children of `source` that satisfy `p`, where `target` does not end
the run. -/
structure IsTrailingRun (t : Tree α) (source target : Nat) (p : α → Bool) (run : List Nat) :
    Prop where
  /-- Nothing stands behind the run. -/
  suffix : run <:+ t.children source
  /-- Its names satisfy `p`, up to `target`. -/
  inside : ∀ n ∈ run, n = target ∨ t.holds p n = true
  /-- No run with these two properties is longer. -/
  longest : ∀ other, other <:+ t.children source →
    (∀ n ∈ other, n = target ∨ t.holds p n = true) → other <:+ run

/-- What a tree looks like after a run of trailing children has moved from below `source` to below
`target`, where those in `kept` stand in front of the run. -/
structure Adoption (t t' : Tree α) (source target : Nat) (kept run : List Nat) : Prop where
  /-- The run is gone, up to `target`. -/
  left : t'.children source = if target ∈ run then kept ++ [target] else kept
  /-- It stands in its old order in front of what `target` had before. -/
  moved : t'.children target = run.filter (· ≠ target) ++ t.children target
  /-- No other list changes. -/
  others : ∀ q, q ≠ source → q ≠ target → t'.children q = t.children q
  /-- Those that have moved, and no others, name a new parent. -/
  parents : ∀ n, t'.parent? n = if n ∈ run ∧ n ≠ target then some target else t.parent? n
  /-- Every value stays. -/
  values : ∀ n, t'.value? n = t.value? n
  /-- No entry comes or goes. -/
  size : t'.size = t.size

/-- A trailing stretch of a list whose names are all inside the run of `trailingRun` is a part
of it. -/
theorem suffix_of_trailingRun {inside : Nat → Bool} {names other : List Nat}
    (h : trailingRun inside target names = (kept, run)) (hother : other <:+ names)
    (hin : ∀ n ∈ other, n = target ∨ inside n = true) : other <:+ run := by
  obtain ⟨-, rfl⟩ := Prod.mk.inj h
  obtain ⟨front, rfl⟩ := hother
  rw [← List.reverse_prefix, List.reverse_reverse, List.reverse_append,
    List.takeWhile_append_of_pos]
  · exact List.prefix_append _ _
  · intro n hn
    rcases hin n (List.mem_reverse.1 hn) with rfl | hn
    · rw [beq_self_eq_true, Bool.true_or]
    · rw [hn, Bool.or_true]

theorem isTrailingRun_of_trailingRun
    (h : trailingRun (t.holds p) target (t.children source) = (kept, run)) :
    t.IsTrailingRun source target p run where
  suffix := ⟨kept, append_of_trailingRun h⟩
  inside := by
    obtain ⟨-, rfl⟩ := Prod.mk.inj h
    intro n hn
    have hin := List.mem_takeWhile_imp (List.mem_reverse.1 hn)
    rwa [Bool.or_eq_true, beq_iff_eq] at hin
  longest := fun _ hother hin => suffix_of_trailingRun h hother hin

/-- The number that is answered is the length of the run without `target`. -/
theorem snd_adopt (hsplit : trailingRun (t.holds p) target (t.children source) = (kept, run)) :
    (t.adopt source target p).2 = (run.erase target).length := by
  have hrun : trailingRun (fun n => ((t.value? n).map p).getD false) target (t.children source) =
    (kept, run) := hsplit
  rw [adopt, hrun]

/-- In a list in which no name stands twice, taking one out leaves the others. -/
theorem erase_run (h : t.Linked)
    (hsplit : trailingRun (t.holds p) target (t.children source) = (kept, run)) :
    run.erase target = run.filter (· ≠ target) := by
  rw [(List.nodup_append.1 (h.nodup_split hsplit)).2.1.erase_eq_filter]
  exact List.filter_congr fun n _ => Bool.eq_iff_iff.2 (by simp)

theorem Built.adoption (h : t.Built) (child : target ∈ t.children source)
    (hsplit : trailingRun (t.holds p) target (t.children source) = (kept, run)) :
    Adoption t (t.adopt source target p).1 source target kept run := by
  have hne := h.linked.ne_of_mem_children h.rooted child
  have hchildren := h.linked.children_adopt hne child hsplit
  have herase := erase_run h.linked hsplit
  refine ⟨?_, ?_, fun q hs ht => ?_, fun n => ?_, value?_adopt hne hsplit, size_adopt ..⟩
  · simp only [hchildren, if_pos, List.contains_iff_mem]
  · rw [hchildren, if_neg hne.symm, if_pos rfl, herase]
  · rw [hchildren, if_neg hs, if_neg ht]
  · by_cases hn : n < t.size
    · rw [parent?_adopt hne hsplit hn, herase]
      simp
    · -- names beyond the tree have no parent, and do not move
      have hout : n ∉ run := fun hin => hn (h.linked.bounds source n (by
        rw [← append_of_trailingRun hsplit]
        exact List.mem_append_right _ hin)).2
      rw [if_neg fun hin => hout hin.1, parent?, parent?, entry?_eq_none (Nat.le_of_not_lt hn),
        entry?_eq_none (by rw [size_adopt]; exact Nat.le_of_not_lt hn)]

/-! ## What is built is a tree -/

theorem isSome_entry?_iff {n : Nat} : (t.entry? n).isSome = true ↔ n < t.size := by
  constructor
  · intro h
    by_contra hout
    rw [entry?_eq_none (Nat.le_of_not_lt hout)] at h
    cases h
  · intro h
    obtain ⟨e, he⟩ := exists_entry? h
    rw [he]
    rfl

/-- A tree that is built stays a tree while there are names: every entry but the root stands once in
one child list, that of its parent, the way down from the root leads to every entry and to nothing
else, and there are as many entries as the size tells.  Moving trailing children moves the longest
run of them that satisfy the predicate, in their old order and in front of what the target had
before, answers their number, and changes nothing else. -/
theorem Built.hangs_together (h : t.Built) :
    t.Linked ∧ (∀ n, t.Reaches n ↔ (t.entry? n).isSome = true) ∧
      {n | (t.entry? n).isSome = true}.ncard = t.size ∧
      ∀ source target p, target ∈ t.children source → ∃ kept run,
        t.children source = kept ++ run ∧ t.IsTrailingRun source target p run ∧
          Adoption t (t.adopt source target p).1 source target kept run ∧
          (t.adopt source target p).2 = (run.filter (· ≠ target)).length := by
  refine ⟨h.linked, fun n => ?_, ?_, fun source target p child => ?_⟩
  · rw [isSome_entry?_iff]
    exact ⟨fun hn => hn.lt_size h.linked, h.rooted n⟩
  · have hset : {n | (t.entry? n).isSome = true} = (Finset.range t.size : Set Nat) := by
      ext n
      rw [Set.mem_ofPred_eq, isSome_entry?_iff, Finset.coe_range, Set.mem_Iio]
    rw [hset, Set.ncard_coe_finset, Finset.card_range]
  · obtain ⟨kept, run, hsplit⟩ : ∃ kept run,
        trailingRun (t.holds p) target (t.children source) = (kept, run) := ⟨_, _, rfl⟩
    have hadoption := h.adoption child hsplit
    refine ⟨kept, run, (append_of_trailingRun hsplit).symm, isTrailingRun_of_trailingRun hsplit,
      hadoption, ?_⟩
    rw [snd_adopt hsplit, erase_run h.linked hsplit]

/-- Five entries below the root, one of them below another one. -/
theorem built_sixEntries :
    ((((((Tree.singleton 0).push 0 1).push 0 5).push 0 4).push 3 9).push 0 6).Built := by
  have hroom {n : Nat} (hn : n < 6) : n < width := Nat.lt_trans hn (by decide)
  exact (((((Built.singleton 0).push (hroom (by decide)) (by decide) 1).push
    (hroom (by decide)) (by decide) 5).push (hroom (by decide)) (by decide) 4).push
    (hroom (by decide)) (by decide) 9).push (hroom (by decide)) (by decide) 6

/-- A run that goes on behind its target. -/
theorem Built.hangs_together_around :
    let t := (((((Tree.singleton 0).push 0 1).push 0 5).push 0 4).push 3 9).push 0 6
    let p : Nat → Bool := fun v => decide (4 ≤ v)
    t.Built ∧ 3 ∈ t.children 0 ∧ t.Linked ∧ {n | (t.entry? n).isSome = true}.ncard = t.size ∧
      (∃ kept run, t.children 0 = kept ++ run ∧ t.IsTrailingRun 0 3 p run ∧
        Adoption t (t.adopt 0 3 p).1 0 3 kept run ∧
        (t.adopt 0 3 p).2 = (run.filter (· ≠ 3)).length) ∧
      (t.adopt 0 3 p).1.children 0 = [1, 3] ∧ (t.adopt 0 3 p).1.children 3 = [2, 5, 4] := by
  intro t p
  have hbuilt : t.Built := built_sixEntries
  have hchild : 3 ∈ t.children 0 := by decide
  obtain ⟨hlinked, -, hcount, hadopts⟩ := hbuilt.hangs_together
  exact ⟨hbuilt, hchild, hlinked, hcount, hadopts 0 3 p hchild, by decide, by decide⟩

end Tree

end Outline
