import Outline.Proofs.Token.Reading
import Outline.Proofs.Token.Rooted
import Outline.Unit.Basic

/-!
# What a unit says of itself

A unit counts the work that went into it at the places where the work is done: a declaration when
its head is found, members when its body has been read, tokens when the tree is complete.
Namespaces and packages are found like other declarations and dropped at the end.

* `SourceUnit.found_of_ok` — a unit is made of what the search of its tree finds.
* `Discovery.ofSiblings_induction` — what holds of the pieces of a search holds of its outcome.
* `Discovery.Counted` — the counts of a search are those of the declarations that it has found.
* `SourceUnit.metrics_of_read` — the counts of a unit describe the unit.
-/

namespace Outline

/-! ## Sizes -/

namespace Rose

variable {α : Type}

mutual

theorem length_subtrees (t : Rose α) : t.subtrees.length = t.size := by
  cases t with
  | node a ts =>
      rw [subtrees_node, List.length_cons, length_subtreesAll ts, size, Nat.add_comm]

theorem length_subtreesAll (ts : List (Rose α)) : (subtreesAll ts).length = sizeAll ts := by
  cases ts with
  | nil => simp [sizeAll]
  | cons t ts =>
      rw [subtreesAll_cons, List.length_append, length_subtrees t, length_subtreesAll ts, sizeAll]

end

end Rose

/-- The tokens that are counted are those below the one at the top. -/
theorem TokenTree.tokenCount_eq (t : TokenTree) :
    t.tokenCount = (Rose.subtreesAll t.children).length := by
  cases t with
  | node token ts =>
      rw [tokenCount, Rose.size, Rose.children_node, Rose.length_subtreesAll, Nat.add_sub_cancel_left]

/-! ## Searches -/

namespace Discovery

/-- What holds of findings without declarations and of the findings in a head and its body holds
of what a search finds, if it holds of two findings together. -/
theorem ofSiblings_induction {P : Discovery → Prop}
    (hbare : ∀ f : Discovery, f.declarations = [] → f.metrics = {} → P f)
    (hhead : ∀ s head fullName body, P (ofHead s head fullName body))
    (happend : ∀ f g, P f → P g → P (f ++ g)) (s : Surroundings) (scope : List String)
    (before ts : List TokenTree) : P (ofSiblings s scope before ts) := by
  fun_induction ofSiblings s scope before ts with
  | case1 => exact hbare {} rfl rfl
  | case2 s scope before token children after t hleaf name hname ih =>
      exact happend _ _ (hbare _ rfl rfl) ih
  | case3 s scope before token children after t hleaf hname ih => exact ih
  | case4 s scope before token children after t hblock head? malformed hsearch found hbody hinside
      hafter =>
      refine happend _ _ (happend _ _ (hbare _ rfl rfl) ?_) hafter
      cases head? with
      | none => exact hinside
      | some head => exact happend _ _ (hhead ..) (hbody head)

/-- The declarations without the namespaces and packages. -/
def kept (f : Discovery) : List (Declaration TypeRef) :=
  (f.declarations.map (·.declaration)).filter (·.kind != .package)

theorem kept_append (f g : Discovery) : (f ++ g).kept = f.kept ++ g.kept := by
  show ((f.declarations ++ g.declarations).map (·.declaration)).filter _ = _
  rw [List.map_append, List.filter_append, kept, kept]

theorem kept_eq_nil {f : Discovery} (h : f.declarations = []) : f.kept = [] := by
  rw [kept, h]
  rfl

/-- The counts of declarations and members are those of the declarations that are kept. -/
structure Counted (f : Discovery) : Prop where
  blocks : f.metrics.blocks = f.kept.length
  fields : f.metrics.fields = (f.kept.map (·.fields.length)).sum
  methods : f.metrics.methods = (f.kept.map (·.methods.length)).sum
  enumMembers : f.metrics.enumMembers = (f.kept.map (·.enumMembers.length)).sum

namespace Counted

variable {f g : Discovery}

theorem bare (h : f.declarations = []) (hmetrics : f.metrics = {}) : f.Counted := by
  constructor <;> rw [hmetrics, kept_eq_nil h] <;> rfl

theorem append (hf : f.Counted) (hg : g.Counted) : (f ++ g).Counted where
  blocks := by
    rw [kept_append, List.length_append, ← hf.blocks, ← hg.blocks]
    rfl
  fields := by
    rw [kept_append, List.map_append, List.sum_append, ← hf.fields, ← hg.fields]
    rfl
  methods := by
    rw [kept_append, List.map_append, List.sum_append, ← hf.methods, ← hg.methods]
    rfl
  enumMembers := by
    rw [kept_append, List.map_append, List.sum_append, ← hf.enumMembers, ← hg.enumMembers]
    rfl

/-- A declaration is counted with its members.  A namespace or package, which has none, is neither
counted nor kept. -/
theorem ofHead (s : Surroundings) (head : Head) (fullName : List String) (body : TokenTree) :
    (ofHead s head fullName body).Counted := by
  cases hkind : head.kind.hasMembers with
  | true =>
      have hkeep : (head.kind != .package) = true := by
        cases hk : head.kind <;> rw [hk] at hkind
        · cases hkind
        all_goals rfl
      constructor <;>
        simp [Discovery.ofHead, kept, hkind, hkeep, Members.ofBody]
  | false =>
      have hdrop : (head.kind != .package) = false := by
        cases hk : head.kind <;> rw [hk] at hkind
        · rfl
        all_goals cases hkind
      constructor <;> simp [Discovery.ofHead, kept, hkind, hdrop]

theorem ofDocument (l : Language) (document : TokenTree) : (ofDocument l document).Counted :=
  (bare rfl rfl).append (ofSiblings_induction (fun _ => bare) ofHead (fun _ _ => append) ..)

end Counted

end Discovery

/-! ## Units -/

namespace SourceUnit

variable {sourceId text : String} {d : Dialect} {policy : MalformedPolicy} {u : SourceUnit}

/-- A unit is made of what the search of its tree finds. -/
theorem found_of_ok (h : read sourceId text d policy = .ok u) :
    TokenTree.read d text = .ok u.tree ∧ u.language = d.language ∧
      u.declarations = (Discovery.ofDocument d.language u.tree).kept ∧
      u.imports = (Discovery.ofDocument d.language u.tree).imports ∧
      u.metrics = { (Discovery.ofDocument d.language u.tree).metrics with
        files := 1, tokens := u.tree.tokenCount } := by
  unfold read at h
  cases htree : TokenTree.read d text with
  | error e =>
      rw [htree] at h
      cases h
  | ok document =>
      cases hwarnings : warnings? sourceId policy
          (Discovery.ofDocument d.language document).malformed with
      | error e =>
          simp only [htree, Except.mapError, bind, Except.bind, hwarnings] at h
          cases h
      | ok warnings =>
          simp only [htree, Except.mapError, bind, Except.bind, hwarnings] at h
          cases h
          exact ⟨rfl, rfl, rfl, rfl, rfl⟩

/-- The counts of a unit describe the unit.  Its tokens are those below the root of its tree, and
all entries but the root of the tree that is grown in place.  If there is a name for each entry,
that is a tree of this nested form, and the way down from its root leads to so many others.  The
other counts are those of the declarations and their members. -/
theorem metrics_of_read (h : read sourceId text d policy = .ok u) :
    (u.metrics.tokens = (Rose.subtreesAll u.tree.children).length ∧
        ∃ t, TokenTree.grow d text = .ok t ∧ u.metrics.tokens = t.size - 1 ∧
          (t.size ≤ Tree.width → t.toRose? = some u.tree ∧
            u.metrics.tokens = {n | n ≠ 0 ∧ t.Reaches n}.ncard)) ∧
      u.metrics.blocks = u.declarations.length ∧
      u.metrics.fields = (u.declarations.map (·.fields.length)).sum ∧
      u.metrics.methods = (u.declarations.map (·.methods.length)).sum ∧
      u.metrics.enumMembers = (u.declarations.map (·.enumMembers.length)).sum := by
  obtain ⟨htree, -, hdeclarations, -, hmetrics⟩ := found_of_ok h
  obtain ⟨t, hgrow, hsize, hheld⟩ := TokenTree.exists_rooted_of_read htree
  have hcounted := Discovery.Counted.ofDocument d.language u.tree
  rw [hdeclarations, hmetrics]
  have hcount : u.tree.tokenCount = t.size - 1 := by rw [hsize, TokenTree.tokenCount]
  refine ⟨⟨u.tree.tokenCount_eq, t, hgrow, hcount, fun hnames => ?_⟩, hcounted.blocks,
    hcounted.fields, hcounted.methods, hcounted.enumMembers⟩
  obtain ⟨hlinked, hrooted, hrose⟩ := hheld (hsize.ge.trans hnames)
  refine ⟨hrose, ?_⟩
  rw [hrooted.ncard_below hlinked]
  exact hcount

/-- A namespace with a class that holds an enumeration: two declarations are counted. -/
theorem metrics_of_read_namespace : ∃ u,
    read "N.cs" "namespace N { class A { int x; void F() {} enum E { P, Q } } }" ⟨.csharp, 3⟩
        .skipMember = .ok u ∧
      (u.metrics.blocks = 2 ∧ u.metrics.fields = 1 ∧ u.metrics.methods = 1 ∧
        u.metrics.enumMembers = 2) ∧
      (u.metrics.tokens = (Rose.subtreesAll u.tree.children).length ∧
        ∃ t, TokenTree.grow ⟨.csharp, 3⟩
            "namespace N { class A { int x; void F() {} enum E { P, Q } } }" = .ok t ∧
          t.toRose? = some u.tree ∧ u.metrics.tokens = {n | n ≠ 0 ∧ t.Reaches n}.ncard) ∧
      u.metrics.blocks = u.declarations.length ∧
      u.metrics.fields = (u.declarations.map (·.fields.length)).sum ∧
      u.metrics.methods = (u.declarations.map (·.methods.length)).sum ∧
      u.metrics.enumMembers = (u.declarations.map (·.enumMembers.length)).sum := by
  have hfound : (read "N.cs" "namespace N { class A { int x; void F() {} enum E { P, Q } } }"
      ⟨.csharp, 3⟩ .skipMember).toOption.any (fun u => decide ((u.metrics.blocks = 2 ∧
        u.metrics.fields = 1 ∧ u.metrics.methods = 1 ∧ u.metrics.enumMembers = 2) ∧
        u.metrics.tokens < Tree.width)) = true := by
    decide +kernel
  obtain ⟨u, hread, hcounts⟩ := (Option.any_eq_true _ _).1 hfound
  obtain ⟨hcounts, hfew⟩ := of_decide_eq_true hcounts
  have hread := eq_ok_of_toOption hread
  obtain ⟨⟨htokens, t, hgrow, hsize, hheld⟩, hothers⟩ := metrics_of_read hread
  exact ⟨u, hread, hcounts, ⟨htokens, t, hgrow, hheld (by omega)⟩, hothers⟩

end SourceUnit

end Outline
