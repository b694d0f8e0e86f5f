import Mathlib.Data.List.Nodup
import Outline.Proofs.Tree.Built

/-!
# Walks over a tree

`Tree.visit` walks with a stack of names and a bound on the number of steps.  In a tree that is
built the bound is never reached, and the walk is the recursive one: an entry first, then the walks
from its children, one after the other.

* `Built.shallow` — no way down is as long as the tree is large.
* `walk` — the recursive walk, as far down as a height allows.
* `visitStack_walk` — the walk with a stack reports for its first entry what `walk` reports, and
  then goes on with the others.
* `Built.walksFrom` — what is known of the walk from an entry.
-/

namespace Outline

namespace Tree

variable {α : Type} {t : Tree α} {n height : Nat}

/-! ## How far down a tree goes -/

/-- Every way down from an entry has fewer steps than `height`. -/
def Shallow (t : Tree α) (height n : Nat) : Prop :=
  ∀ m depth, t.Descends n m depth → depth < height

theorem Shallow.pos (h : t.Shallow height n) : 0 < height := h n 0 .here

theorem Shallow.child {c : Nat} (h : t.Shallow (height + 1) n) (hc : c ∈ t.children n) :
    t.Shallow height c :=
  fun m depth hd => Nat.lt_of_succ_lt_succ (h m (depth + 1) (hd.of_child hc))

/-- A way down other than the empty one begins with a step to a child. -/
theorem Descends.exists_child {m depth : Nat} (h : t.Descends n m (depth + 1)) :
    ∃ c ∈ t.children n, t.Descends c m depth := by
  generalize hk : depth + 1 = k at h
  induction h generalizing depth with
  | here => exact absurd hk (Nat.succ_ne_zero depth)
  | @down n' m k above hm ih =>
      obtain rfl := Nat.succ.inj hk
      cases depth with
      | zero =>
          cases above
          exact ⟨m, hm, .here⟩
      | succ depth =>
          obtain ⟨c, hc, hd⟩ := ih rfl
          exact ⟨c, hc, hd.down hm⟩

namespace Linked

/-- The entries on the way down from the root to an entry; no two of them are the same, since they
lie at different depths. -/
theorem exists_path (h : t.Linked) {k : Nat} (hd : t.Descends 0 n k) :
    ∃ path : List Nat, path.length = k + 1 ∧ path.Nodup ∧
      ∀ m ∈ path, ∃ j ≤ k, t.Descends 0 m j := by
  induction hd with
  | here => exact ⟨[0], rfl, List.nodup_singleton 0, by simp [Descends.here]⟩
  | @down n m k above hm ih =>
      obtain ⟨path, hlength, hnodup, hpath⟩ := ih
      have hnew : m ∉ path := by
        intro hin
        obtain ⟨j, hj, hdepth⟩ := hpath m hin
        have := h.depth_unique (above.down hm) hdepth
        omega
      refine ⟨m :: path, by rw [List.length_cons, hlength], List.nodup_cons.2 ⟨hnew, hnodup⟩, ?_⟩
      rintro m' (_ | ⟨_, hin⟩)
      · exact ⟨k + 1, le_rfl, above.down hm⟩
      · obtain ⟨j, hj, hdepth⟩ := hpath m' hin
        exact ⟨j, hj.trans (Nat.le_succ k), hdepth⟩

theorem depth_lt_size (h : t.Linked) {k : Nat} (hd : t.Descends 0 n k) : k < t.size := by
  obtain ⟨path, hlength, hnodup, hpath⟩ := h.exists_path hd
  have hrange : path ⊆ List.range t.size := by
    intro m hm
    obtain ⟨j, -, hdepth⟩ := hpath m hm
    exact List.mem_range.2 (h.lt_size_of_descends (Nat.succ_pos _) hdepth)
  have hle := (List.subperm_of_subset hnodup hrange).length_le
  rw [hlength, List.length_range] at hle
  exact hle

end Linked

theorem Built.shallow (h : t.Built) (hn : n < t.size) : t.Shallow t.size n := by
  intro m depth hd
  obtain ⟨k, hk⟩ := (h.rooted n hn).exists_descends
  have hlt := h.linked.depth_lt_size (hk.trans hd)
  omega

/-- The way down from one entry to another has one length only. -/
theorem Built.length_unique (h : t.Built) {m j k : Nat} (hn : n < t.size)
    (hj : t.Descends n m j) (hk : t.Descends n m k) : j = k := by
  obtain ⟨d, hd⟩ := (h.rooted n hn).exists_descends
  exact Nat.add_left_cancel (h.linked.depth_unique (hd.trans hj) (hd.trans hk))

/-! ## The recursive walk -/

/-- A report from one level further down. -/
def Visit.deeper (v : Visit α) : Visit α := { v with depth := v.depth + 1 }

/-- The reports of the entries at and below `n`, which lies `depth` levels below the start of the
walk, as far down as `height` allows. -/
def walk (t : Tree α) : (height depth n : Nat) → List (Visit α)
  | 0, _, _ => []
  | height + 1, depth, n =>
    match t.entry? n with
    | none => []
    | some e => ⟨n, e.value, depth, e.parent⟩ :: e.children.flatMap (t.walk height (depth + 1))

theorem walk_succ {e : Entry α} (he : t.entry? n = some e) (height depth : Nat) :
    t.walk (height + 1) depth n =
      ⟨n, e.value, depth, e.parent⟩ :: (t.children n).flatMap (t.walk height (depth + 1)) := by
  rw [walk, he, children_eq_of_entry? he]

theorem walk_of_none (he : t.entry? n = none) (height depth : Nat) :
    t.walk height depth n = [] := by
  cases height with
  | zero => rfl
  | succ height => rw [walk, he]

theorem walk_deeper (t : Tree α) (height depth n : Nat) :
    t.walk height (depth + 1) n = (t.walk height depth n).map Visit.deeper := by
  induction height generalizing depth n with
  | zero => rfl
  | succ height ih =>
      cases he : t.entry? n with
      | none => rw [walk_of_none he, walk_of_none he, List.map_nil]
      | some e =>
          rw [walk_succ he, walk_succ he, List.map_cons, List.map_flatMap]
          exact congrArg _ (List.flatMap_congr fun c _ => ih (depth + 1) c)

/-- Going further down than the tree does reports the same. -/
theorem walk_eq_of_le (h : t.Shallow height n) {taller : Nat} (hle : height ≤ taller)
    (depth : Nat) : t.walk taller depth n = t.walk height depth n := by
  induction height generalizing taller n depth with
  | zero => exact absurd h.pos (Nat.lt_irrefl 0)
  | succ height ih =>
      obtain ⟨taller, rfl⟩ := Nat.exists_eq_add_of_lt (Nat.lt_of_succ_le hle)
      cases he : t.entry? n with
      | none => rw [walk_of_none he, walk_of_none he]
      | some e =>
          rw [walk_succ he, walk_succ he]
          exact congrArg _ (List.flatMap_congr fun c hc =>
            ih (h.child hc) (Nat.le_add_right height taller) (depth + 1))

/-! ### What it reports -/

/-- A report tells what the tree holds. -/
def Reports (t : Tree α) (v : Visit α) : Prop :=
  t.value? v.name = some v.value ∧ t.parent? v.name = v.parent

theorem Reports.eq {v : Visit α} {e : Entry α} (h : t.Reports v) (he : t.entry? v.name = some e) :
    v = ⟨v.name, e.value, v.depth, e.parent⟩ := by
  obtain ⟨hvalue, hparent⟩ := h
  rw [value?, he, Option.map_some, Option.some.injEq] at hvalue
  rw [ parent?_eq_of_entry? he] at hparent
  rw [hvalue, hparent]

theorem exists_descends_of_mem_walk {depth : Nat} {v : Visit α} (hv : v ∈ t.walk height depth n) :
    ∃ k, t.Descends n v.name k ∧ v.depth = depth + k ∧ t.Reports v := by
  induction height generalizing depth n with
  | zero => cases hv
  | succ height ih =>
      cases he : t.entry? n with
      | none =>
          rw [walk_of_none he] at hv
          cases hv
      | some e =>
          rw [walk_succ he] at hv
          rcases List.mem_cons.1 hv with rfl | hv
          · exact ⟨0, .here, rfl, by rw [value?, he]; rfl, parent?_eq_of_entry? he⟩
          · obtain ⟨c, hc, hv⟩ := List.mem_flatMap.1 hv
            obtain ⟨k, hd, hdepth, hreports⟩ := ih hv
            exact ⟨k + 1, hd.of_child hc, by omega, hreports⟩

theorem mem_walk_of_descends (hlinked : t.Linked) (h : t.Shallow height n) (hn : n < t.size)
    {depth k : Nat} {v : Visit α} (hd : t.Descends n v.name k) (hdepth : v.depth = depth + k)
    (hreports : t.Reports v) : v ∈ t.walk height depth n := by
  induction height generalizing depth n k with
  | zero => exact absurd h.pos (Nat.lt_irrefl 0)
  | succ height ih =>
      obtain ⟨e, he⟩ := exists_entry? hn
      rw [walk_succ he]
      cases k with
      | zero =>
          obtain rfl : depth = v.depth := hdepth.symm
          cases hd
          rw [← hreports.eq he]
          exact List.mem_cons_self ..
      | succ k =>
          obtain ⟨c, hc, hd⟩ := hd.exists_child
          refine List.mem_cons_of_mem _ (List.mem_flatMap.2 ⟨c, hc, ?_⟩)
          exact ih (h.child hc) (hlinked.bounds _ _ hc).2 hd (by omega)

/-- No entry is reported twice. -/
theorem Built.nodup_walk (h : t.Built) (hn : n < t.size) (height depth : Nat) :
    ((t.walk height depth n).map (·.name)).Nodup := by
  induction height generalizing n depth with
  | zero => exact List.nodup_nil
  | succ height ih =>
      obtain ⟨e, he⟩ := exists_entry? hn
      have hbelow : ∀ c ∈ t.children n, ∀ m ∈ (t.walk height (depth + 1) c).map (·.name),
          ∃ k, t.Descends c m k := by
        intro c _ m hm
        obtain ⟨v, hv, rfl⟩ := List.mem_map.1 hm
        obtain ⟨k, hd, -⟩ := exists_descends_of_mem_walk hv
        exact ⟨k, hd⟩
      rw [walk_succ he, List.map_cons, List.map_flatMap, List.nodup_cons, List.nodup_flatMap]
      refine ⟨?_, fun c hc => ih (h.linked.bounds n c hc).2 (depth + 1), ?_⟩
      · -- an entry does not lie below itself
        intro hin
        obtain ⟨c, hc, hin⟩ := List.mem_flatMap.1 hin
        obtain ⟨k, hd⟩ := hbelow c hc n hin
        have := h.length_unique hn (hd.of_child hc) .here
        omega
      · -- what lies below two children is as far below both, so that they are the same
        refine (h.linked.nodup_children n).pairwise_of_forall_ne fun c hc c' hc' hne => ?_
        intro m hm hm'
        obtain ⟨j, hj⟩ := hbelow c hc m hm
        obtain ⟨k, hk⟩ := hbelow c' hc' m hm'
        obtain rfl : j = k :=
          Nat.succ.inj (h.length_unique hn (hj.of_child hc) (hk.of_child hc'))
        exact hne (h.linked.start_unique hj hk)

theorem Built.length_walk_le (h : t.Built) (hn : n < t.size) (height depth : Nat) :
    (t.walk height depth n).length ≤ t.size := by
  have hrange : (t.walk height depth n).map (·.name) ⊆ List.range t.size := by
    intro m hm
    obtain ⟨v, hv, rfl⟩ := List.mem_map.1 hm
    obtain ⟨k, hd, -⟩ := exists_descends_of_mem_walk hv
    exact List.mem_range.2 (h.linked.lt_size_of_descends hn hd)
  have hle := (List.subperm_of_subset (h.nodup_walk hn height depth) hrange).length_le
  rwa [List.length_map, List.length_range] at hle

/-! ## The walk with a stack -/

theorem visitStack_nil (t : Tree α) (steps : Nat) : t.visitStack steps [] = [] := by
  cases steps <;> rfl

/-- The entries of one level are reported one after the other if each of them is reported as a
whole. -/
theorem visitStack_flatMap {depth : Nat} (names : List Nat)
    (hnames : ∀ c ∈ names, ∀ steps stack,
      t.visitStack (steps + (t.walk height depth c).length) ((c, depth) :: stack) =
        t.walk height depth c ++ t.visitStack steps stack) (steps : Nat)
    (stack : List (Nat × Nat)) :
    t.visitStack (steps + (names.flatMap (t.walk height depth)).length)
        (names.map (fun c => (c, depth)) ++ stack) =
      names.flatMap (t.walk height depth) ++ t.visitStack steps stack := by
  induction names with
  | nil => rfl
  | cons c names ih =>
      have hrest := ih fun c' hc' => hnames c' (List.mem_cons_of_mem _ hc')
      rw [List.flatMap_cons, List.length_append, List.map_cons, List.cons_append,
        Nat.add_comm (List.length _), ← Nat.add_assoc, hnames c (List.mem_cons_self ..), hrest,
        List.append_assoc]

/-- The invariant of the loop: with a step for each report there is, the walk reports the entry on
top of the stack and what lies below it, and goes on with the rest of the stack. -/
theorem visitStack_walk (hlinked : t.Linked) (h : t.Shallow height n) (hn : n < t.size)
    (depth steps : Nat) (stack : List (Nat × Nat)) :
    t.visitStack (steps + (t.walk height depth n).length) ((n, depth) :: stack) =
      t.walk height depth n ++ t.visitStack steps stack := by
  induction height generalizing n depth steps stack with
  | zero => exact absurd h.pos (Nat.lt_irrefl 0)
  | succ height ih =>
      obtain ⟨e, he⟩ := exists_entry? hn
      have hbelow := visitStack_flatMap (t.children n)
        (fun c hc => ih (h.child hc) (hlinked.bounds n c hc).2 (depth + 1)) steps stack
      rw [walk_succ he, List.length_cons, ← Nat.add_assoc, visitStack, he, List.cons_append,
        ← hbelow, children_eq_of_entry? he]

theorem Built.visitStack_eq (h : t.Built) (hn : n < t.size) {steps : Nat}
    (hsteps : t.size ≤ steps) : t.visitStack steps [(n, 0)] = t.walk t.size 0 n := by
  have hlength := h.length_walk_le hn t.size 0
  obtain ⟨more, rfl⟩ : ∃ more, steps = more + (t.walk t.size 0 n).length :=
    ⟨steps - (t.walk t.size 0 n).length, by omega⟩
  rw [visitStack_walk h.linked (h.shallow hn) hn, visitStack_nil, List.append_nil]

theorem Built.visit_eq (h : t.Built) (hn : n < t.size) : t.visit n = t.walk t.size 0 n :=
  h.visitStack_eq hn le_rfl

/-! ## The walk from an entry -/

/-- What is known of the walk from an entry. -/
structure WalksFrom (t : Tree α) (n : Nat) : Prop where
  /-- It is the recursive one: first the entry, then the walks from its children. -/
  recursive : ∀ e, t.entry? n = some e → t.visit n =
    ⟨n, e.value, 0, e.parent⟩ :: e.children.flatMap fun c => (t.visit c).map Visit.deeper
  /-- It comes to its end without the bound on its steps. -/
  ends : ∀ steps, t.size ≤ steps → t.visitStack steps [(n, 0)] = t.visit n
  /-- It reports no entry twice. -/
  once : ((t.visit n).map (·.name)).Nodup
  /-- It reports the entries at and below its start, with their depth below it, and nothing
  else. -/
  reports : ∀ v, v ∈ t.visit n ↔ t.Descends n v.name v.depth ∧ t.Reports v

theorem Built.walksFrom (h : t.Built) (hn : n < t.size) : t.WalksFrom n where
  recursive := by
    intro e he
    obtain ⟨height, hheight⟩ : ∃ height, t.size = height + 1 := ⟨t.size - 1, by omega⟩
    have hshallow := h.shallow hn
    rw [h.visit_eq hn, hheight, walk_succ he, ← children_eq_of_entry? he]
    refine congrArg _ (List.flatMap_congr fun c hc => ?_)
    rw [hheight] at hshallow
    rw [h.visit_eq (h.linked.bounds n c hc).2, walk_deeper, hheight,
      walk_eq_of_le (hshallow.child hc) (Nat.le_succ height)]
  ends := fun steps hsteps => by rw [h.visitStack_eq hn hsteps, h.visit_eq hn]
  once := by
    rw [h.visit_eq hn]
    exact h.nodup_walk hn t.size 0
  reports := by
    intro v
    rw [h.visit_eq hn]
    constructor
    · intro hv
      obtain ⟨k, hd, hdepth, hreports⟩ := exists_descends_of_mem_walk hv
      rw [Nat.zero_add] at hdepth
      exact ⟨hdepth ▸ hd, hreports⟩
    · rintro ⟨hd, hreports⟩
      exact mem_walk_of_descends h.linked (h.shallow hn) hn hd (Nat.zero_add _).symm hreports

end Tree

end Outline
