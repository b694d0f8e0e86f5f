import Outline.Proofs.Tree.Walks

/-!
# Trees built anew from the values of another

`Tree.transform` walks over a tree with a stack and adds what it makes of each value to a new tree.
Its result is the tree of a nested form, `Tree.ofRose`, namely of what `Rose.mapDown` makes of the
nested form of the old tree, and the effects of the function come in the order of that recursion.
The new tree has a name for each of its entries, since the old one has.

* `IsAt` — a tree holds a nested form whose entries are named from the top down and from left to
  right.
* `isAt_pushRose` — adding a nested form to a tree puts it behind all that is there.
* `toRose?_ofRose`, `map_name_visit_ofRose` — the tree of a nested form, and its walk.
* `transformStack_rose` — what the walk makes of the entry on top of the stack.
* `exists_calls` — the calls of the function, in the order in which they are made.
* `Built.walks_and_transforms` — the walk over a tree that is built, and what is made of it.
-/

namespace Outline

namespace Tree

variable {α β : Type} {t t' : Tree β} {n : Nat}

/-! ## Nested forms at a place -/

/-- The names of the tops of some trees that are named one after the other, the first from `n`
on. -/
def places (n : Nat) : List (Rose β) → List Nat
  | [] => []
  | r :: rs => n :: places (n + r.size) rs

mutual

/-- The tree holds a nested form whose entries are named from `n` on, from the top down and from
left to right. -/
def IsAt (t : Tree β) (n : Nat) : Rose β → Prop
  | .node b rs => t.value? n = some b ∧ t.children n = places (n + 1) rs ∧ AllAt t (n + 1) rs

/-- The tree holds some nested forms, one after the other from `n` on. -/
def AllAt (t : Tree β) (n : Nat) : List (Rose β) → Prop
  | [] => True
  | r :: rs => IsAt t n r ∧ AllAt t (n + r.size) rs

end

mutual

/-- Whether a tree holds a nested form depends on the entries of the nested form only. -/
theorem IsAt.congr {n : Nat} (r : Rose β)
    (hsame : ∀ k, n ≤ k → k < n + r.size → t'.value? k = t.value? k ∧ t'.children k = t.children k)
    (h : t.IsAt n r) : t'.IsAt n r := by
  cases r with
  | node b rs =>
      rw [IsAt] at h ⊢
      rw [Rose.size] at hsame
      have htop := hsame n le_rfl (by omega)
      refine ⟨htop.1.trans h.1, htop.2.trans h.2.1, AllAt.congr rs (fun k hk hlt => ?_) h.2.2⟩
      exact hsame k (by omega) (by omega)

theorem AllAt.congr {n : Nat} (rs : List (Rose β))
    (hsame : ∀ k, n ≤ k → k < n + Rose.sizeAll rs →
      t'.value? k = t.value? k ∧ t'.children k = t.children k)
    (h : t.AllAt n rs) : t'.AllAt n rs := by
  cases rs with
  | nil => trivial
  | cons r rs =>
      rw [AllAt] at h ⊢
      rw [Rose.sizeAll] at hsame
      exact ⟨IsAt.congr r (fun k hk hlt => hsame k hk (by omega)) h.1,
        AllAt.congr rs (fun k hk hlt => hsame k (by omega) (by omega)) h.2⟩

end

mutual

/-- What is held at a place is the nested form there, and a walk over it goes by the names. -/
theorem IsAt.rose?_walk {n height : Nat} (r : Rose β) (h : t.IsAt n r) (hheight : r.size ≤ height)
    (depth : Nat) : t.rose? height n = some r ∧
      (t.walk height depth n).map (·.name) = List.range' n r.size := by
  cases r with
  | node b rs =>
      rw [IsAt] at h
      rw [Rose.size] at hheight ⊢
      obtain ⟨height, rfl⟩ : ∃ k, height = k + 1 := ⟨height - 1, by omega⟩
      obtain ⟨hforms, hnames⟩ := AllAt.rose?_walk rs h.2.2 (by omega : _ ≤ height) (depth + 1)
      obtain ⟨e, he⟩ : ∃ e, t.entry? n = some e := by
        cases he : t.entry? n with
        | none => rw [value?, he] at h; exact absurd h.1 (by simp)
        | some e => exact ⟨e, rfl⟩
      constructor
      · rw [rose?_succ, h.1, h.2.1, mapM_eq_some_iff_forall₂.2 hforms]
        rfl
      · rw [walk_succ he, List.map_cons, h.2.1, hnames, Nat.add_comm 1, List.range'_succ]

theorem AllAt.rose?_walk {n height : Nat} (rs : List (Rose β)) (h : t.AllAt n rs)
    (hheight : Rose.sizeAll rs ≤ height) (depth : Nat) :
    List.Forall₂ (fun m r => t.rose? height m = some r) (places n rs) rs ∧
      ((places n rs).flatMap (t.walk height depth)).map (·.name) =
        List.range' n (Rose.sizeAll rs) := by
  cases rs with
  | nil => exact ⟨.nil, rfl⟩
  | cons r rs =>
      rw [AllAt] at h
      rw [Rose.sizeAll] at hheight ⊢
      obtain ⟨hform, hname⟩ := IsAt.rose?_walk r h.1 (by omega : _ ≤ height) depth
      obtain ⟨hforms, hnames⟩ := AllAt.rose?_walk rs h.2 (by omega : _ ≤ height) depth
      refine ⟨.cons hform hforms, ?_⟩
      rw [places, List.flatMap_cons, List.map_append, hname, hnames, List.range'_append_1]

end

/-! ## Adding nested forms -/

/-- A tree with entries added, so many in number; those in `names` stand directly below `parent`,
and nothing else changes. -/
structure Extends (t t' : Tree β) (parent : Nat) (names : List Nat) (count : Nat) : Prop where
  /-- The entries that are added. -/
  size : t'.size = t.size + count
  /-- Every value stays. -/
  values : ∀ k < t.size, t'.value? k = t.value? k
  /-- One list grows. -/
  children : ∀ k < t.size, t'.children k =
    if k = parent then t.children k ++ names else t.children k

variable {parent : Nat}

theorem value?_push {b : β} (hp : parent < t.size) (n : Nat) :
    (t.push parent b).value? n = if n = t.size then some b else t.value? n := by
  rw [value?, entry?_push t b hp]
  by_cases hn : n = t.size
  · rw [if_pos hn, if_pos hn]
    rfl
  · rw [if_neg hn, if_neg hn, value?]
    split
    · rw [Option.map_map]
      rfl
    · rfl

theorem extends_push (room : t.size < width) (b : β) (hp : parent < t.size) :
    Extends t (t.push parent b) parent [t.size] 1 where
  size := size_push ..
  values := fun k hk => by rw [value?_push hp, if_neg (Nat.ne_of_lt hk)]
  children := fun k _ => by rw [children_push t b hp k, nextName_eq room]

mutual

/-- A nested form that is added is named from the size of the old tree on. -/
theorem isAt_pushRose (t : Tree β) {parent : Nat} (hp : parent < t.size) (r : Rose β)
    (room : t.size + r.size ≤ width) :
    Extends t (t.pushRose parent r) parent [t.size] r.size ∧
      (t.pushRose parent r).IsAt t.size r := by
  cases r with
  | node b rs =>
      rw [Rose.size] at room
      have hname : t.size < width := by omega
      have htop := extends_push hname b hp
      have hlt : t.size < (t.push parent b).size := by
        rw [htop.size]
        omega
      obtain ⟨hextends, hall⟩ := allAt_pushRoses (t.push parent b) hlt rs
        (by rw [htop.size]; omega)
      have hnew : (t.push parent b).children t.size = [] := by
        rw [children_push t b hp, if_neg (Nat.ne_of_gt hp), children,
          entry?_eq_none (Nat.le_refl _)]
        rfl
      rw [htop.size] at hextends hall
      rw [pushRose, nextName_eq hname, Rose.size, IsAt]
      refine ⟨⟨?_, fun k hk => ?_, fun k hk => ?_⟩, ?_, ?_, hall⟩
      · rw [hextends.size, htop.size, Nat.add_assoc]
      · rw [hextends.values k (by rw [htop.size]; omega), htop.values k hk]
      · rw [hextends.children k (by rw [htop.size]; omega), if_neg (Nat.ne_of_lt hk),
          htop.children k hk]
      · rw [hextends.values _ (by rw [htop.size]; omega), value?_push hp, if_pos rfl]
      · rw [hextends.children _ (by rw [htop.size]; omega), if_pos rfl, hnew, List.nil_append]

theorem allAt_pushRoses (t : Tree β) {parent : Nat} (hp : parent < t.size) (rs : List (Rose β))
    (room : t.size + Rose.sizeAll rs ≤ width) :
    Extends t (t.pushRoses parent rs) parent (places t.size rs) (Rose.sizeAll rs) ∧
      (t.pushRoses parent rs).AllAt t.size rs := by
  cases rs with
  | nil =>
      rw [pushRoses]
      exact ⟨⟨rfl, fun _ _ => rfl, fun k _ => by rw [places, List.append_nil, ite_self]⟩, trivial⟩
  | cons r rs =>
      rw [Rose.sizeAll] at room
      obtain ⟨hfirst, hat⟩ := isAt_pushRose t hp r (by omega)
      have hp' : parent < (t.pushRose parent r).size := by
        rw [hfirst.size]
        omega
      obtain ⟨hextends, hall⟩ := allAt_pushRoses (t.pushRose parent r) hp' rs
        (by rw [hfirst.size]; omega)
      rw [hfirst.size] at hall
      rw [pushRoses, Rose.sizeAll, AllAt, places]
      refine ⟨⟨?_, fun k hk => ?_, fun k hk => ?_⟩, IsAt.congr r (fun k hk hlt => ?_) hat, hall⟩
      · rw [hextends.size, hfirst.size, Nat.add_assoc]
      · rw [hextends.values k (by rw [hfirst.size]; omega), hfirst.values k hk]
      · rw [hextends.children k (by rw [hfirst.size]; omega), hfirst.children k hk, hfirst.size]
        split
        · rw [List.append_assoc, List.singleton_append]
        · rfl
      · have hk' : k < (t.pushRose parent r).size := by
          rw [hfirst.size]
          exact hlt
        rw [hextends.values k hk', hextends.children k hk', if_neg (by omega)]
        exact ⟨rfl, rfl⟩

end

mutual

theorem Built.pushRose {t : Tree β} (h : t.Built) {parent : Nat} (hp : parent < t.size)
    (r : Rose β) (room : t.size + r.size ≤ width) : (t.pushRose parent r).Built := by
  cases r with
  | node b rs =>
      rw [Rose.size] at room
      have hname : t.size < width := by omega
      rw [Tree.pushRose, nextName_eq hname]
      exact Built.pushRoses (h.push hname hp b) (by rw [size_push]; omega) rs
        (by rw [size_push]; omega)

theorem Built.pushRoses {t : Tree β} (h : t.Built) {parent : Nat} (hp : parent < t.size)
    (rs : List (Rose β)) (room : t.size + Rose.sizeAll rs ≤ width) :
    (t.pushRoses parent rs).Built := by
  cases rs with
  | nil =>
      rw [Tree.pushRoses]
      exact h
  | cons r rs =>
      rw [Rose.sizeAll] at room
      have hsize := (isAt_pushRose t hp r (by omega)).1.size
      rw [Tree.pushRoses]
      refine Built.pushRoses (h.pushRose hp r (by omega)) ?_ rs ?_ <;> omega

end

/-! ### The tree of a nested form -/

theorem isAt_ofRose (r : Rose β) (hnames : r.size ≤ width) :
    (ofRose r).size = r.size ∧ (ofRose r).IsAt 0 r := by
  cases r with
  | node b rs =>
      have hone : (singleton b).size = 1 := rfl
      obtain ⟨hextends, hall⟩ := allAt_pushRoses (singleton b) (Nat.zero_lt_one) rs hnames
      rw [ofRose, Rose.size, IsAt]
      refine ⟨hextends.size, ?_, ?_, hall⟩
      · rw [hextends.values 0 Nat.zero_lt_one]
        rfl
      · rw [hextends.children 0 Nat.zero_lt_one, if_pos rfl]
        rfl

theorem built_ofRose (r : Rose β) (hnames : r.size ≤ width) : (ofRose r).Built := by
  cases r with
  | node b rs =>
      rw [ofRose]
      exact (Built.singleton b).pushRoses Nat.zero_lt_one rs hnames

theorem toRose?_ofRose (r : Rose β) (hnames : r.size ≤ width) :
    (ofRose r).toRose? = some r := by
  obtain ⟨hsize, hat⟩ := isAt_ofRose r hnames
  exact (hat.rose?_walk r hsize.ge 0).1

/-- The entries of the tree of a nested form are named from the top down and from left to
right. -/
theorem map_name_visit_ofRose (r : Rose β) (hnames : r.size ≤ width) :
    ((ofRose r).visit 0).map (·.name) = List.range (ofRose r).size := by
  obtain ⟨hsize, hat⟩ := isAt_ofRose r hnames
  rw [(built_ofRose r hnames).visit_eq (Nat.succ_pos _), (hat.rose?_walk r hsize.ge 0).2, hsize,
    List.range_eq_range']

/-! ## The nested form of what is built -/

mutual

theorem length_preorder (depth : Nat) (r : Rose α) : (r.preorder depth).length = r.size := by
  cases r with
  | node a rs =>
      rw [Rose.preorder, Rose.size, List.length_cons, length_preorderAll (depth + 1) rs,
        Nat.add_comm]

theorem length_preorderAll (depth : Nat) (rs : List (Rose α)) :
    (Rose.preorderAll depth rs).length = Rose.sizeAll rs := by
  cases rs with
  | nil => rfl
  | cons r rs =>
      rw [Rose.preorderAll, Rose.sizeAll, List.length_append, length_preorder depth r,
        length_preorderAll depth rs]

end

section Forms

variable {t : Tree α} {height : Nat} {r : Rose α}

theorem exists_forms (names : List Nat) (h : ∀ c ∈ names, ∃ r, t.rose? height c = some r) :
    ∃ rs, names.mapM (t.rose? height) = some rs := by
  induction names with
  | nil => exact ⟨[], rfl⟩
  | cons c names ih =>
      obtain ⟨r, hr⟩ := h c (List.mem_cons_self ..)
      obtain ⟨rs, hrs⟩ := ih fun c hc => h c (List.mem_cons_of_mem _ hc)
      exact ⟨r :: rs, by rw [List.mapM_cons, hr, hrs]; rfl⟩

theorem exists_rose? (hlinked : t.Linked) (h : t.Shallow height n) (hn : n < t.size) :
    ∃ r, t.rose? height n = some r := by
  induction height generalizing n with
  | zero => exact absurd h.pos (Nat.lt_irrefl 0)
  | succ height ih =>
      obtain ⟨e, he⟩ := exists_entry? hn
      obtain ⟨below, hbelow⟩ := exists_forms (t.children n) fun c hc =>
        ih (h.child hc) (hlinked.bounds n c hc).2
      refine ⟨.node e.value below, ?_⟩
      rw [rose?_succ, hbelow, value?, he]
      rfl

/-- The entry at the top of a nested form, and what lies below it. -/
theorem exists_entry_of_rose? (h : t.rose? (height + 1) n = some r) :
    ∃ e below, t.entry? n = some e ∧
      List.Forall₂ (fun c r => t.rose? height c = some r) e.children below ∧
      r = .node e.value below := by
  rw [rose?_succ] at h
  obtain ⟨a, ha, h⟩ := Option.bind_eq_some_iff.1 h
  obtain ⟨below, hbelow, rfl⟩ := Option.map_eq_some_iff.1 h
  obtain ⟨e, he, rfl⟩ := Option.map_eq_some_iff.1 ha
  rw [ children_eq_of_entry? he] at hbelow
  exact ⟨e, below, he, mapM_eq_some_iff_forall₂.1 hbelow, rfl⟩

theorem map_flatMap_walk_of_forms {depth : Nat} {names : List Nat} {rs : List (Rose α)}
    (hone : ∀ {c r}, t.rose? height c = some r →
      (t.walk height depth c).map (fun v => (v.depth, v.value)) = r.preorder depth)
    (hforms : List.Forall₂ (fun c r => t.rose? height c = some r) names rs) :
    (names.flatMap (t.walk height depth)).map (fun v => (v.depth, v.value)) =
      Rose.preorderAll depth rs := by
  induction hforms with
  | nil => rfl
  | cons hform _ ih => rw [List.flatMap_cons, List.map_append, hone hform, ih, Rose.preorderAll]

/-- The walk over an entry is the walk over its nested form. -/
theorem map_walk_of_rose? (h : t.rose? height n = some r) (depth : Nat) :
    (t.walk height depth n).map (fun v => (v.depth, v.value)) = r.preorder depth := by
  induction height generalizing n r depth with
  | zero => simp [rose?] at h
  | succ height ih =>
      obtain ⟨e, below, he, hforms, rfl⟩ := exists_entry_of_rose? h
      rw [walk_succ he, children_eq_of_entry? he, List.map_cons, Rose.preorder,
        map_flatMap_walk_of_forms (fun hform => ih hform (depth + 1)) hforms]

theorem Built.size_le_of_rose? (h : t.Built) (hn : n < t.size)
    (hform : t.rose? height n = some r) : r.size ≤ t.size := by
  rw [← length_preorder 0 r, ← map_walk_of_rose? hform 0, List.length_map]
  exact h.length_walk_le hn height 0

end Forms

/-! ## Building anew -/

section Effects

variable {m : Type → Type} [Monad m] {t : Tree α} {f : α → Option β → m β}

theorem transformStack_nil (steps : Nat) (out : Tree β) :
    t.transformStack f steps [] out = pure out := by
  cases steps <;> rfl

variable [LawfulMonad m]

mutual

/-- What follows on a nested form that has been made may rely on its size. -/
theorem bind_mapDownM_congr {γ : Type} (f : α → Option β → m β) (above : Option β) (r : Rose α)
    {next next' : Rose β → m γ} (h : ∀ u, u.size = r.size → next u = next' u) :
    r.mapDownM f above >>= next = r.mapDownM f above >>= next' := by
  cases r with
  | node a rs =>
      rw [Rose.mapDownM, bind_assoc, bind_assoc]
      refine bind_congr fun b => ?_
      rw [bind_assoc, bind_assoc]
      refine bind_mapDownAllM_congr f b rs fun us hus => ?_
      rw [pure_bind, pure_bind]
      exact h _ (by rw [Rose.size, Rose.size, hus])

theorem bind_mapDownAllM_congr {γ : Type} (f : α → Option β → m β) (above : β)
    (rs : List (Rose α)) {next next' : List (Rose β) → m γ}
    (h : ∀ us, Rose.sizeAll us = Rose.sizeAll rs → next us = next' us) :
    Rose.mapDownAllM f above rs >>= next = Rose.mapDownAllM f above rs >>= next' := by
  cases rs with
  | nil =>
      rw [Rose.mapDownAllM, pure_bind, pure_bind]
      exact h [] rfl
  | cons r rs =>
      rw [Rose.mapDownAllM, bind_assoc, bind_assoc]
      refine bind_mapDownM_congr f (some above) r fun u hu => ?_
      rw [bind_assoc, bind_assoc]
      refine bind_mapDownAllM_congr f above rs fun us hus => ?_
      rw [pure_bind, pure_bind]
      exact h _ (by rw [Rose.sizeAll, Rose.sizeAll, hu, hus])

end

/-- The entries of one level are taken over one after the other if each of them is taken over as a
whole. -/
theorem transformStack_roses {height i : Nat} {b : β} {names : List Nat} {rs : List (Rose α)}
    (hforms : List.Forall₂ (fun c r => t.rose? height c = some r) names rs)
    (hone : ∀ {c r}, t.rose? height c = some r → ∀ {out : Tree β}, i < out.size →
      out.size + r.size ≤ width → ∀ steps stack,
        t.transformStack f (steps + r.size) ((c, i) :: stack) out =
          r.mapDownM f (out.value? i) >>= fun u =>
            t.transformStack f steps stack (out.pushRose i u))
    (out : Tree β) (hi : i < out.size) (room : out.size + Rose.sizeAll rs ≤ width)
    (hb : out.value? i = some b) (steps : Nat) (stack : List (Nat × Nat)) :
    t.transformStack f (steps + Rose.sizeAll rs) (names.map (fun c => (c, i)) ++ stack) out =
      Rose.mapDownAllM f b rs >>= fun us =>
        t.transformStack f steps stack (out.pushRoses i us) := by
  induction hforms generalizing out with
  | nil => rw [Rose.mapDownAllM, pure_bind, pushRoses]; rfl
  | @cons c r names rs hform _ ih =>
      rw [Rose.sizeAll] at room
      rw [Rose.sizeAll, List.map_cons, List.cons_append, Nat.add_comm r.size, ← Nat.add_assoc,
        hone hform hi (by omega), hb, Rose.mapDownAllM, bind_assoc]
      refine bind_mapDownM_congr f (some b) r fun u hu => ?_
      have hextends := (isAt_pushRose out hi u (by omega)).1
      have hsize := hextends.size
      rw [ih _ (by omega) (by omega) ((hextends.values i hi).trans hb), bind_assoc]
      refine bind_congr fun us => ?_
      rw [pure_bind, pushRoses]

/-- The invariant of the loop: with a step for each entry there is, the walk adds what is made of
the nested form on top of the stack, and goes on with the rest of the stack. -/
theorem transformStack_rose {height : Nat} {r : Rose α} (h : t.rose? height n = some r)
    {above : Nat} {out : Tree β} (habove : above < out.size)
    (room : out.size + r.size ≤ width) (steps : Nat) (stack : List (Nat × Nat)) :
    t.transformStack f (steps + r.size) ((n, above) :: stack) out =
      r.mapDownM f (out.value? above) >>= fun u =>
        t.transformStack f steps stack (out.pushRose above u) := by
  induction height generalizing n r above out steps stack with
  | zero => simp [rose?] at h
  | succ height ih =>
      obtain ⟨e, below, he, hforms, rfl⟩ := exists_entry_of_rose? h
      rw [Rose.size] at room
      have hname : out.size < width := by omega
      rw [Rose.size, Nat.add_comm 1, ← Nat.add_assoc, transformStack, he, Rose.mapDownM, bind_assoc]
      refine bind_congr fun b => ?_
      have hsize : (out.push above b).size = out.size + 1 := size_push ..
      have hb : (out.push above b).value? out.size = some b := by
        rw [value?_push habove, if_pos rfl]
      rw [nextName_eq hname, transformStack_roses hforms (fun hform _ hout => ih hform hout) _
        (by omega) (by omega) hb, bind_assoc]
      refine bind_congr fun us => ?_
      rw [pure_bind, pushRose, nextName_eq hname]

/-- What is made of a tree is the tree of what is made of its nested form. -/
theorem Built.transformM_eq (h : t.Built) {r : Rose α} (hr : t.toRose? = some r) :
    t.transformM f = ofRose <$> r.mapDownM f none := by
  obtain ⟨height, hheight⟩ : ∃ height, t.size = height + 1 := ⟨t.rest.size, rfl⟩
  have hsize := h.size_le_of_rose? (Nat.succ_pos _) hr
  rw [toRose?, hheight] at hr
  obtain ⟨e, below, he, hforms, rfl⟩ := exists_entry_of_rose? hr
  obtain rfl : t.root = e := Option.some.inj he
  obtain ⟨steps, hsteps⟩ : ∃ steps, t.size = steps + Rose.sizeAll below := by
    rw [Rose.size] at hsize
    exact ⟨t.size - Rose.sizeAll below, by omega⟩
  rw [transformM, Rose.mapDownM, map_eq_pure_bind, bind_assoc]
  refine bind_congr fun b => ?_
  have hone : (Tree.singleton b).size = 1 := rfl
  have hnames := hsize.trans h.size_le
  rw [Rose.size] at hnames
  have hroses := transformStack_roses hforms
    (fun hform _ hout => transformStack_rose (f := f) hform hout) (Tree.singleton b)
    Nat.zero_lt_one (by rwa [hone]) rfl steps []
  rw [List.append_nil] at hroses
  rw [hsteps, hroses, bind_assoc]
  refine bind_congr fun us => ?_
  rw [pure_bind, transformStack_nil, ofRose]

end Effects

mutual

/-- Without effects the recursion is a plain one. -/
theorem mapDownM_pure (f : α → Option β → β) (above : Option β) (r : Rose α) :
    r.mapDownM (m := Id) (fun a above => pure (f a above)) above = pure (r.mapDown f above) := by
  cases r with
  | node a rs =>
      rw [Rose.mapDownM, pure_bind, mapDownAllM_pure f (f a above) rs, pure_bind, Rose.mapDown]

theorem mapDownAllM_pure (f : α → Option β → β) (above : β) (rs : List (Rose α)) :
    Rose.mapDownAllM (m := Id) (fun a above => pure (f a above)) above rs =
      pure (Rose.mapDownAll f above rs) := by
  cases rs with
  | nil => rw [Rose.mapDownAllM, Rose.mapDownAll]
  | cons r rs =>
      rw [Rose.mapDownAllM, mapDownM_pure f (some above) r, pure_bind,
        mapDownAllM_pure f above rs, pure_bind, Rose.mapDownAll]

end

theorem Built.transform_eq {t : Tree α} (h : t.Built) {r : Rose α} (hr : t.toRose? = some r)
    (f : α → Option β → β) : t.transform f = ofRose (r.mapDown f none) := by
  rw [transform, h.transformM_eq hr, mapDownM_pure]
  rfl

/-! ## The calls of the function -/

/-- The function `f` as it takes down, call by call, what it is given. -/
def noting (f : α → Option β → β) (a : α) (above : Option β) :
    StateM (List (α × Option β)) β :=
  modifyGet fun calls => (f a above, calls ++ [(a, above)])

mutual

/-- The calls of `f` come in the order in which the entries are walked, one for each. -/
theorem exists_calls (f : α → Option β → β) (above : Option β) (r : Rose α) (depth : Nat) :
    ∃ calls, (∀ before, (r.mapDownM (noting f) above).run before =
        pure (r.mapDown f above, before ++ calls)) ∧
      calls.map (·.1) = (r.preorder depth).map (·.2) ∧
      calls.map (fun call => f call.1 call.2) =
        ((r.mapDown f above).preorder depth).map (·.2) := by
  cases r with
  | node a rs =>
      obtain ⟨calls, hrun, hgiven, hmade⟩ := exists_callsAll f (f a above) rs (depth + 1)
      refine ⟨(a, above) :: calls, fun before => ?_, ?_, ?_⟩
      · rw [Rose.mapDownM, Rose.mapDown, StateT.run_bind]
        have hfirst : (noting f a above).run before =
            pure (f a above, before ++ [(a, above)]) := rfl
        rw [hfirst, pure_bind, StateT.run_bind, hrun, pure_bind, List.append_assoc]
        rfl
      · rw [Rose.preorder, List.map_cons, List.map_cons, hgiven]
      · rw [Rose.mapDown, Rose.preorder, List.map_cons, List.map_cons, hmade]

theorem exists_callsAll (f : α → Option β → β) (above : β) (rs : List (Rose α)) (depth : Nat) :
    ∃ calls, (∀ before, (Rose.mapDownAllM (noting f) above rs).run before =
        pure (Rose.mapDownAll f above rs, before ++ calls)) ∧
      calls.map (·.1) = (Rose.preorderAll depth rs).map (·.2) ∧
      calls.map (fun call => f call.1 call.2) =
        (Rose.preorderAll depth (Rose.mapDownAll f above rs)).map (·.2) := by
  cases rs with
  | nil => exact ⟨[], fun before => by rw [List.append_nil]; rfl, rfl, rfl⟩
  | cons r rs =>
      obtain ⟨calls, hrun, hgiven, hmade⟩ := exists_calls f (some above) r depth
      obtain ⟨more, hrun', hgiven', hmade'⟩ := exists_callsAll f above rs depth
      refine ⟨calls ++ more, fun before => ?_, ?_, ?_⟩
      · rw [Rose.mapDownAllM, Rose.mapDownAll, StateT.run_bind, hrun, pure_bind, StateT.run_bind,
          hrun', pure_bind, List.append_assoc]
        rfl
      · rw [Rose.preorderAll, List.map_append, List.map_append, hgiven, hgiven']
      · rw [Rose.mapDownAll, Rose.preorderAll, List.map_append, List.map_append, hmade, hmade']

end

/-! ## The walk over what is built, and what is made of it -/

/-- The walk over the whole tree is the walk over its nested form. -/
theorem Built.map_visit_eq_preorder {t : Tree α} (h : t.Built) {r : Rose α}
    (hr : t.toRose? = some r) :
    (t.visit 0).map (fun v => (v.depth, v.value)) = r.preorder 0 := by
  rw [h.visit_eq (Nat.succ_pos _), map_walk_of_rose? hr]

theorem Built.size_eq_of_toRose? {t : Tree α} (h : t.Built) {r : Rose α}
    (hr : t.toRose? = some r) : r.size = t.size := by
  have hwalks := h.walksFrom (Nat.succ_pos _ : 0 < t.size)
  have hnames : ((t.visit 0).map (·.name)).Perm (List.range t.size) := by
    refine (List.perm_ext_iff_of_nodup hwalks.once List.nodup_range).2 fun n => ?_
    rw [List.mem_range, List.mem_map]
    constructor
    · rintro ⟨v, hv, rfl⟩
      exact h.linked.lt_size_of_descends (Nat.succ_pos _) ((hwalks.reports v).1 hv).1
    · intro hn
      obtain ⟨depth, hd⟩ := (h.rooted n hn).exists_descends
      obtain ⟨e, he⟩ := exists_entry? hn
      refine ⟨⟨n, e.value, depth, e.parent⟩, (hwalks.reports _).2 ⟨hd, ?_, ?_⟩, rfl⟩
      · rw [value?, he]
        rfl
      · exact parent?_eq_of_entry? he
  have hlength := hnames.length_eq
  rwa [List.length_map, List.length_range, ← List.length_map (fun v => (v.depth, v.value)),
    h.map_visit_eq_preorder hr, length_preorder] at hlength

mutual

/-- What is made of a nested form has its shape. -/
theorem depths_mapDown (f : α → Option β → β) (above : Option β) (r : Rose α) (depth : Nat) :
    ((r.mapDown f above).preorder depth).map (·.1) = (r.preorder depth).map (·.1) := by
  cases r with
  | node a rs =>
      rw [Rose.mapDown, Rose.preorder, Rose.preorder, List.map_cons, List.map_cons,
        depths_mapDownAll f (f a above) rs (depth + 1)]

theorem depths_mapDownAll (f : α → Option β → β) (above : β) (rs : List (Rose α)) (depth : Nat) :
    (Rose.preorderAll depth (Rose.mapDownAll f above rs)).map (·.1) =
      (Rose.preorderAll depth rs).map (·.1) := by
  cases rs with
  | nil => rw [Rose.mapDownAll, Rose.preorderAll, Rose.preorderAll, List.map_nil, List.map_nil]
  | cons r rs =>
      rw [Rose.mapDownAll, Rose.preorderAll, Rose.preorderAll, List.map_append, List.map_append,
        depths_mapDown f (some above) r depth, depths_mapDownAll f above rs depth]

end

theorem size_mapDown (f : α → Option β → β) (above : Option β) (r : Rose α) :
    (r.mapDown f above).size = r.size := by
  have hlength := congrArg List.length (depths_mapDown f above r 0)
  rwa [List.length_map, List.length_map, length_preorder, length_preorder] at hlength

theorem map_depth_visit (t : Tree α) (n : Nat) : (t.visit n).map (·.depth) =
    ((t.visit n).map fun v => (v.depth, v.value)).map (·.1) := by
  rw [List.map_map]
  rfl

theorem map_value_visit (t : Tree α) (n : Nat) : (t.visit n).map (·.value) =
    ((t.visit n).map fun v => (v.depth, v.value)).map (·.2) := by
  rw [List.map_map]
  rfl

/-- The walk over a tree that is built, from any of its entries, is the recursive one and reports
each entry there once.  What is made of the tree is the tree of what the recursion `Rose.mapDown`
makes of its nested form, with its entries named from the top down and from left to right; the
function is called once for each entry in the order of the walk, and its effects come in this
order.  The tree of a nested form has this nested form and such names, if there are enough. -/
theorem Built.walks_and_transforms {t : Tree α} (h : t.Built) :
    (∀ n < t.size, t.WalksFrom n) ∧ ∃ r, t.toRose? = some r ∧ r.size = t.size ∧
      (t.visit 0).map (fun v => (v.depth, v.value)) = r.preorder 0 ∧
      (∀ (β : Type) (m : Type → Type) [Monad m] [LawfulMonad m] (f : α → Option β → m β),
        t.transformM f = ofRose <$> r.mapDownM f none) ∧
      (∀ (β : Type) (f : α → Option β → β), t.transform f = ofRose (r.mapDown f none) ∧
        ((t.transform f).visit 0).map (·.name) = List.range t.size ∧
        ((t.transform f).visit 0).map (·.depth) = (t.visit 0).map (·.depth) ∧
        ∃ calls, (t.transformM (noting f)).run [] = pure (t.transform f, calls) ∧
          calls.map (·.1) = (t.visit 0).map (·.value) ∧
          calls.map (fun call => f call.1 call.2) = ((t.transform f).visit 0).map (·.value)) ∧
      ∀ (β : Type) (u : Rose β), u.size ≤ width → (ofRose u).Built ∧ (ofRose u).toRose? = some u ∧
        ((ofRose u).visit 0).map (·.name) = List.range u.size := by
  have hpos : 0 < t.size := Nat.succ_pos _
  obtain ⟨r, hr⟩ := exists_rose? h.linked (h.shallow hpos) hpos
  have hpreorder := h.map_visit_eq_preorder hr
  have hsize := h.size_eq_of_toRose? hr
  refine ⟨fun n hn => h.walksFrom hn, r, hr, hsize, hpreorder,
    fun β m _ _ f => h.transformM_eq hr, fun β f => ?_, fun β u hnames => ?_⟩
  · have hform := h.transform_eq hr f
    have hnames : (r.mapDown f none).size ≤ width := by
      rw [size_mapDown, hsize]
      exact h.size_le
    have hmade := (built_ofRose _ hnames).map_visit_eq_preorder (toRose?_ofRose _ hnames)
    obtain ⟨calls, hrun, hgiven, hcalls⟩ := exists_calls f none r 0
    refine ⟨hform, ?_, ?_, calls, ?_, ?_, ?_⟩
    · rw [hform, map_name_visit_ofRose _ hnames, (isAt_ofRose _ hnames).1, size_mapDown, hsize]
    · rw [hform, map_depth_visit, map_depth_visit, hpreorder, hmade, depths_mapDown]
    · rw [h.transformM_eq hr, StateT.run_map, hrun, map_pure, hform, List.nil_append]
    · rw [map_value_visit, hpreorder, hgiven]
    · rw [hform, map_value_visit, hmade, hcalls]
  · rw [← (isAt_ofRose u hnames).1]
    exact ⟨built_ofRose u hnames, toRose?_ofRose u hnames, map_name_visit_ofRose u hnames⟩

/-- A tree in which entries have moved, so that their names do not go from left to right. -/
theorem Built.walks_and_transforms_moved :
    let grown := (((((Tree.singleton 0).push 0 1).push 0 5).push 0 4).push 3 9).push 0 6
    let t := (grown.adopt 0 3 fun v => decide (4 ≤ v)).1
    let path : Nat → Option (List Nat) → List Nat := fun v above => above.getD [] ++ [v]
    t.Built ∧ t.WalksFrom 3 ∧ (t.visit 3).map (fun v => (v.name, v.depth)) =
        [(3, 0), (2, 1), (5, 1), (4, 1)] ∧
      (∃ r, t.toRose? = some r ∧ t.transform path = ofRose (r.mapDown path none)) ∧
      (∃ calls, (t.transformM (noting path)).run [] = pure (t.transform path, calls) ∧
        calls.map (·.1) = (t.visit 0).map (·.value)) ∧
      ((t.transform path).visit 0).map (·.value) =
        [[0], [0, 1], [0, 4], [0, 4, 5], [0, 4, 6], [0, 4, 9]] := by
  intro grown t path
  have hgrown : grown.Built := built_sixEntries
  have hbuilt : t.Built := hgrown.adopt (by decide) _
  obtain ⟨hwalks, r, hr, -, -, -, htransform, -⟩ := hbuilt.walks_and_transforms
  obtain ⟨hform, -, -, calls, hrun, hgiven, -⟩ := htransform _ path
  exact ⟨hbuilt, hwalks 3 (by decide), by decide, ⟨r, hr, hform⟩, ⟨calls, hrun, hgiven⟩, by decide⟩

end Tree

end Outline
