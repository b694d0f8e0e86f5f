import Outline.Proofs.Token.Layout
import Outline.Proofs.Tree.Linked

/-!
# Token trees that grow in place

`TokenTree.read` keeps the trees of each level apart and builds the tree of a block when the block
ends.  `TokenTree.grow` is the same walk over one indexed tree: every token is added below the
root, and when a block ends its token adopts the tokens inside it.  Nothing but the spans tells
which ones these are.  The indexed tree holds the tokens as long as it has a name for each of them.

* `Grown` — what holds of the indexed tree after every step while there are names.
* `Tracks` — what holds of it after every step.
* `grow_of_error`, `exists_grow_of_read` — both walks fail alike, and succeed with the same tree.
* `read_wellFormed` — the tree of a text is well formed and loses nothing of the text.
-/

namespace Outline

/-! ## The walk over an indexed tree -/

/-- A bracket whose partner has not been reached. -/
structure OpenBracket where
  /-- The opening bracket. -/
  opening : Char
  /-- The bracket that ends the block. -/
  closing : Char
  /-- The offset of the opening bracket. -/
  start : Nat

/-- The bracket of an open block. -/
def OpenBlock.bracket (b : OpenBlock) : OpenBracket := ⟨b.opening, b.closing, b.start⟩

namespace TokenTree

/-- The token of the block between the offsets `start` and `stop`. -/
def blockToken (source : Source) (start stop : Nat) : Token :=
  ⟨.block, source.span start (stop - start),
    String.ofList ((source.chars.drop start).take (stop - start))⟩

/-- Adds a block below the root and moves the tokens inside it below the block. -/
def growBlock (source : Source) (t : Tree Token) (start stop : Nat) : Tree Token :=
  let block := blockToken source start stop
  ((t.push 0 block).adopt 0 t.nextName (fun inner => block.span.contains inner.span)).1

theorem size_growBlock (source : Source) (t : Tree Token) (start stop : Nat) :
    (growBlock source t start stop).size = t.size + 1 := by
  rw [growBlock, Tree.size_adopt, Tree.size_push]

/-- Reads the text that is left at the offset `pos` into the tree `t`. -/
def growFrom (l : Language) (rules : RuleSet) (source : Source) (outer : List OpenBracket)
    (t : Tree Token) (pos : Nat) : List Char → Except TokenError (Tree Token)
  | [] =>
    match outer with
    | [] => .ok t
    | b :: _ => .error (.unclosed b.opening (source.position b.start))
  | c :: cs =>
    match outer, outer.head?.any (·.closing == c) with
    | b :: outer, true =>
      growFrom l rules source outer (growBlock source t b.start (pos + 1)) (pos + 1) cs
    | outer, _ =>
      if rules.isCloser c then .error (.unexpectedClose c (source.position pos))
      else match rules.match? c cs with
        | none => .error (.unrecognized c (source.position pos))
        | some (.opens closing) =>
          growFrom l rules source (⟨c, closing, pos⟩ :: outer) t (pos + 1) cs
        | some (.reads len classifier) =>
          let text := String.ofList ((c :: cs).take len)
          let grown := match classifier.kind? l text with
            | some kind => t.push 0 ⟨kind, source.span pos len, text⟩
            | none => t
          growFrom l rules source outer grown (pos + len) (cs.drop (len - 1))
termination_by cs => cs.length
decreasing_by
  all_goals simp only [List.length_cons, List.length_drop]
  all_goals omega

/-- The indexed token tree of a text. -/
def grow (d : Dialect) (text : String) : Except TokenError (Tree Token) :=
  let source := Source.ofString text
  growFrom d.language d.ruleSet source [] (.singleton ⟨.document, source.span 0 source.length, ""⟩)
    0 source.chars

variable {l : Language} {rules : RuleSet} {source : Source}

/-- A bracket that ends the innermost open block. -/
theorem growFrom_close (b : OpenBracket) (outer : List OpenBracket) (t : Tree Token) (pos : Nat)
    (cs : List Char) :
    growFrom l rules source (b :: outer) t pos (b.closing :: cs) =
      growFrom l rules source outer (growBlock source t b.start (pos + 1)) (pos + 1) cs := by
  rw [growFrom.eq_def]
  simp

/-- Any other character. -/
theorem growFrom_other {outer : List OpenBracket} {c : Char} (t : Tree Token) (pos : Nat)
    (cs : List Char) (hc : outer.head?.any (·.closing == c) = false) :
    growFrom l rules source outer t pos (c :: cs) =
      if rules.isCloser c then .error (.unexpectedClose c (source.position pos))
      else match rules.match? c cs with
        | none => .error (.unrecognized c (source.position pos))
        | some (.opens closing) =>
          growFrom l rules source (⟨c, closing, pos⟩ :: outer) t (pos + 1) cs
        | some (.reads len classifier) =>
          growFrom l rules source outer
            (match classifier.kind? l (String.ofList ((c :: cs).take len)) with
              | some kind =>
                t.push 0 ⟨kind, source.span pos len, String.ofList ((c :: cs).take len)⟩
              | none => t) (pos + len) (cs.drop (len - 1)) := by
  rw [growFrom.eq_def]
  cases outer with
  | nil => rfl
  | cons b outer => simp only [hc]

/-! ## The tree after each step -/

/-- The indexed tree `t` holds the given trees below a document and nothing else. -/
structure Grown (source : Source) (t : Tree Token) (trees : List TokenTree) : Prop where
  /-- Parents and child lists agree. -/
  linked : t.Linked
  /-- The document spans the text. -/
  root : t.value? 0 = some ⟨.document, source.span 0 source.length, ""⟩
  /-- The children of the root are the given trees, in order. -/
  below : List.Forall₂ (fun n r => t.rose? (t.size - 1) n = some r) (t.children 0) trees

theorem grown_singleton (source : Source) :
    Grown source (.singleton ⟨.document, source.span 0 source.length, ""⟩) [] where
  linked := Tree.linked_singleton _
  root := rfl
  below := .nil

namespace Grown

variable {t : Tree Token} {trees before inner : List TokenTree}

theorem size_pos (t : Tree Token) : 0 < t.size := Nat.succ_pos _

theorem sizeAll_append {α : Type} (ts us : List (Rose α)) :
    Rose.sizeAll (ts ++ us) = Rose.sizeAll ts + Rose.sizeAll us := by
  induction ts with
  | nil => simp [Rose.sizeAll]
  | cons t ts ih => simp [Rose.sizeAll, ih, Nat.add_assoc]

/-- The children of the root lie below it, and so does what lies below them. -/
theorem bounds (h : Grown source t trees) (q : Nat) : ∀ m ∈ t.children q, 0 < m ∧ m < t.size :=
  h.linked.bounds q

/-- The whole tree in its nested form. -/
theorem toRose? (h : Grown source t trees) : t.toRose? = some (document source trees) := by
  obtain ⟨k, hk⟩ : ∃ k, t.size = k + 1 := ⟨t.size - 1, by have := size_pos t; omega⟩
  have hbelow : (t.children 0).mapM (t.rose? k) = some trees := by
    rw [Tree.mapM_eq_some_iff_forall₂]
    have := h.below
    rwa [hk, Nat.add_sub_cancel] at this
  rw [Tree.toRose?, hk, Tree.rose?_succ, h.root, Option.bind_some, hbelow]
  rfl

/-- A new token at the end of the root does not change what is there already. -/
theorem rose?_push (h : Grown source t trees) (token : Token) (depth : Nat) {n : Nat}
    (hn : 0 < n ∧ n < t.size) : (t.push 0 token).rose? depth n = t.rose? depth n := by
  refine Tree.rose?_congr (S := fun m => 0 < m ∧ m < t.size) ?_ ?_ ?_ depth hn
  · intro m hm
    rw [Tree.value?, Tree.entry?_push t token (size_pos t), if_neg (by omega), if_neg (by omega)]
    rfl
  · intro m hm
    rw [Tree.children_push t token (size_pos t), if_neg (by omega)]
  · intro m _ c hc
    exact h.bounds m c hc

theorem value?_push_size (t : Tree Token) (token : Token) :
    (t.push 0 token).value? t.size = some token := by
  rw [Tree.value?, Tree.entry?_push t token (size_pos t), if_pos rfl]
  rfl

theorem value?_push_zero (t : Tree Token) (token : Token) :
    (t.push 0 token).value? 0 = t.value? 0 := by
  have hpos := size_pos t
  rw [Tree.value?, Tree.entry?_push t token hpos, if_neg (by omega), if_pos rfl, Option.map_map]
  rfl

theorem children_size (t : Tree Token) : t.children t.size = [] := by
  rw [Tree.children, Tree.entry?_eq_none (Nat.le_refl _)]
  rfl

/-- A leaf is added. -/
theorem leaf (h : Grown source t trees) (room : t.size < Tree.width) (token : Token) :
    Grown source (t.push 0 token) (trees ++ [TokenTree.leaf token]) where
  linked := h.linked.push room token (size_pos t)
  root := by rw [value?_push_zero, h.root]
  below := by
    have hpos := size_pos t
    rw [Tree.size_push, Nat.add_sub_cancel, Tree.children_push t token hpos, if_pos rfl,
      Tree.nextName_eq room]
    refine List.rel_append ?_ (.cons ?_ .nil)
    · refine ((List.forall₂_and_left _ _).2 ⟨h.bounds 0, h.below⟩).imp ?_
      intro n r hn
      rw [h.rose?_push token t.size hn.1]
      exact Tree.rose?_mono hn.2 (Nat.sub_le _ _)
    · obtain ⟨k, hk⟩ : ∃ k, t.size = k + 1 := ⟨t.size - 1, by omega⟩
      have hnone : (t.push 0 token).children t.size = [] := by
        rw [Tree.children_push t token hpos, if_neg (by omega), children_size]
      have hform := Tree.rose?_succ (t.push 0 token) k t.size
      rw [value?_push_size, hnone, ← hk] at hform
      exact hform

/-- The names below the root of `before` and of `inner`. -/
theorem split (h : Grown source t (before ++ inner)) :
    ∃ names moved, t.children 0 = names ++ moved ∧
      List.Forall₂ (fun n r => t.rose? (t.size - 1) n = some r) names before ∧
      List.Forall₂ (fun n r => t.rose? (t.size - 1) n = some r) moved inner :=
  ⟨_, _, (List.take_append_drop before.length (t.children 0)).symm,
    List.forall₂_take_append _ _ _ h.below, List.forall₂_drop_append _ _ _ h.below⟩

theorem value?_of_rose? {depth n : Nat} {r : TokenTree} (h : t.rose? depth n = some r) :
    t.value? n = some r.value := by
  cases depth with
  | zero => simp [Tree.rose?] at h
  | succ depth =>
      rw [Tree.rose?_succ] at h
      obtain ⟨a, ha, h⟩ := Option.bind_eq_some_iff.1 h
      obtain ⟨below, -, rfl⟩ := Option.map_eq_some_iff.1 h
      exact ha

theorem getLast?_of_forall₂ {α β : Type} {R : α → β → Prop} {as : List α} {bs : List β}
    (h : List.Forall₂ R as bs) {a : α} (ha : as.getLast? = some a) :
    ∃ b, bs.getLast? = some b ∧ R a b := by
  induction h with
  | nil => simp at ha
  | @cons a' b as' bs' hab htail ih =>
      cases htail with
      | nil => exact ⟨b, rfl, by simp_all⟩
      | cons _ _ => exact ih ha

theorem value?_push (t : Tree Token) (token : Token) {n : Nat} (hn : 0 < n ∧ n < t.size) :
    (t.push 0 token).value? n = t.value? n := by
  rw [Tree.value?, Tree.entry?_push t token (size_pos t), if_neg (by omega), if_neg (by omega)]
  rfl

/-- The trailing tokens that a new block adopts are those inside it. -/
theorem trailingRun_push (h : Grown source t (before ++ inner)) (room : t.size < Tree.width)
    {names moved : List Nat} (hnames : t.children 0 = names ++ moved)
    (hkept : List.Forall₂ (fun n r => t.rose? (t.size - 1) n = some r) names before)
    (hmoved : List.Forall₂ (fun n r => t.rose? (t.size - 1) n = some r) moved inner) (token : Token)
    (hbefore : ∀ x ∈ before.getLast?, token.span.contains x.span = false)
    (hinner : ∀ x ∈ inner, token.span.contains x.span = true) :
    Tree.trailingRun ((t.push 0 token).holds fun i => token.span.contains i.span) t.size
      ((t.push 0 token).children 0) = (names, moved ++ [t.size]) := by
  have hbounds : ∀ n ∈ names ++ moved, 0 < n ∧ n < t.size := by
    rw [← hnames]
    exact h.bounds 0
  have hholds : ∀ n (r : TokenTree), n ∈ names ++ moved → t.rose? (t.size - 1) n = some r →
      (t.push 0 token).holds (fun i => token.span.contains i.span) n =
        token.span.contains r.span := by
    intro n r hn hr
    rw [Tree.holds, value?_push t token (hbounds n hn), value?_of_rose? hr]
    rfl
  rw [Tree.children_push t token (size_pos t), if_pos rfl, Tree.nextName_eq room, hnames]
  refine Tree.trailingRun_append ?_ ?_
  · intro n hn
    have hin : n ∈ names ++ moved := List.mem_append_left _ (List.mem_of_getLast? hn)
    obtain ⟨r, hr, hform⟩ := getLast?_of_forall₂ hkept hn
    refine ⟨by have := hbounds n hin; omega, ?_⟩
    rw [hholds n r hin hform]
    exact hbefore r hr
  · intro n hn
    obtain ⟨r, hr, hform⟩ : ∃ r ∈ inner, t.rose? (t.size - 1) n = some r := by
      obtain ⟨i, hi, rfl⟩ := List.getElem_of_mem hn
      have hlen := hmoved.length_eq
      exact ⟨inner[i], List.getElem_mem _, hmoved.get hi (by omega)⟩
    rw [hholds n r (List.mem_append_right _ hn) hform]
    exact hinner r hr

/-- What a tree looks like after a block has ended: the new entry has adopted the names in `moved`,
which stood behind those in `names`. -/
structure Adopted (t t' : Tree Token) (token : Token) (names moved : List Nat) : Prop where
  /-- Parents and child lists agree. -/
  linked : t'.Linked
  /-- There is one entry more. -/
  size : t'.size = t.size + 1
  /-- The root is the same token. -/
  root : t'.value? 0 = t.value? 0
  /-- The new token. -/
  new : t'.value? t.size = some token
  /-- The block stands behind the names that are left. -/
  left : t'.children 0 = names ++ [t.size]
  /-- The block owns the others. -/
  owned : t'.children t.size = moved
  /-- Nothing else changes. -/
  frame : ∀ n, 0 < n ∧ n < t.size → t'.value? n = t.value? n ∧ t'.children n = t.children n

theorem adopted_of_growBlock (h : Grown source t (before ++ inner)) (room : t.size < Tree.width)
    {names moved : List Nat} {start stop : Nat} (hnames : t.children 0 = names ++ moved)
    (hkept : List.Forall₂ (fun n r => t.rose? (t.size - 1) n = some r) names before)
    (hmoved : List.Forall₂ (fun n r => t.rose? (t.size - 1) n = some r) moved inner)
    (hbefore : ∀ x ∈ before.getLast?, (blockToken source start stop).span.contains x.span = false)
    (hinner : ∀ x ∈ inner, (blockToken source start stop).span.contains x.span = true) :
    Adopted t (growBlock source t start stop) (blockToken source start stop) names moved := by
  have hpos := size_pos t
  have hne : (0 : Nat) ≠ t.size := by omega
  have hrun := h.trailingRun_push room hnames hkept hmoved _ hbefore hinner
  rw [growBlock, Tree.nextName_eq room]
  generalize blockToken source start stop = token at hrun ⊢
  have herase : (moved ++ [t.size]).erase t.size = moved := by
    have hnot : t.size ∉ moved := by
      intro hin
      have := (h.bounds 0 t.size (by rw [hnames]; exact List.mem_append_right _ hin)).2
      omega
    rw [List.erase_append_right _ hnot, List.erase_cons_head, List.append_nil]
  have hlt : t.size < (t.push 0 token).size := by
    rw [Tree.size_push]
    omega
  have hchildren := Tree.children_adopt hne (by omega) hlt hrun
  rw [herase, if_pos (by simp)] at hchildren
  have hvalue := Tree.value?_adopt hne hrun
  have hchild : t.size ∈ (t.push 0 token).children 0 := by
    rw [Tree.children_push t token hpos, if_pos rfl, Tree.nextName_eq room]
    simp
  exact {
    linked := (h.linked.push room token hpos).adopt hne hchild _
    size := by rw [Tree.size_adopt, Tree.size_push]
    root := by rw [hvalue, value?_push_zero]
    new := by rw [hvalue, value?_push_size]
    left := by rw [hchildren, if_pos rfl]
    owned := by
      rw [hchildren, if_neg (by omega), if_pos rfl, Tree.children_push t token hpos,
        if_neg (by omega), children_size, List.append_nil]
    frame := by
      intro n hn
      rw [hvalue, value?_push t token hn, hchildren, if_neg (by omega), if_neg (by omega),
        Tree.children_push t token hpos, if_neg (by omega)]
      exact ⟨rfl, rfl⟩ }

theorem Adopted.rose? {t' : Tree Token} {token : Token} {names moved : List Nat}
    (ha : Adopted t t' token names moved) (h : Grown source t trees) (depth : Nat) {n : Nat}
    (hn : 0 < n ∧ n < t.size) : t'.rose? depth n = t.rose? depth n := by
  refine Tree.rose?_congr (S := fun m => 0 < m ∧ m < t.size) ?_ ?_ ?_ depth hn
  · intro m hm
    exact (ha.frame m hm).1
  · intro m hm
    exact (ha.frame m hm).2
  · intro m _ c hc
    exact h.bounds m c hc

/-- A block ends: its token adopts exactly the trees inside it. -/
theorem block (h : Grown source t (before ++ inner)) (room : t.size < Tree.width)
    (start stop : Nat)
    (hbefore : ∀ x ∈ before.getLast?, (blockToken source start stop).span.contains x.span = false)
    (hinner : ∀ x ∈ inner, (blockToken source start stop).span.contains x.span = true) :
    Grown source (growBlock source t start stop)
      (before ++ [.node (blockToken source start stop) inner]) := by
  obtain ⟨names, moved, hnames, hkept, hmoved⟩ := h.split
  have ha := h.adopted_of_growBlock room hnames hkept hmoved hbefore hinner
  have hbounds : ∀ n ∈ names ++ moved, 0 < n ∧ n < t.size := by
    rw [← hnames]
    exact h.bounds 0
  refine ⟨ha.linked, by rw [ha.root, h.root], ?_⟩
  rw [ha.size, Nat.add_sub_cancel, ha.left]
  refine List.rel_append ?_ (.cons ?_ .nil)
  · have hin : ∀ n ∈ names, 0 < n ∧ n < t.size :=
      fun n hn => hbounds n (List.mem_append_left _ hn)
    refine ((List.forall₂_and_left _ _).2 ⟨hin, hkept⟩).imp ?_
    intro n r hn
    rw [ha.rose? h t.size hn.1]
    exact Tree.rose?_mono hn.2 (Nat.sub_le _ _)
  · obtain ⟨k, hk⟩ : ∃ k, t.size = k + 1 := ⟨t.size - 1, by have := size_pos t; omega⟩
    have hin : ∀ n ∈ moved, 0 < n ∧ n < t.size :=
      fun n hn => hbounds n (List.mem_append_right _ hn)
    have hmap : moved.mapM ((growBlock source t start stop).rose? k) = some inner := by
      rw [Tree.mapM_eq_some_iff_forall₂]
      refine ((List.forall₂_and_left _ _).2 ⟨hin, hmoved⟩).imp ?_
      intro n r hn
      rw [ha.rose? h k hn.1, ← hn.2, hk, Nat.add_sub_cancel]
    have hform := Tree.rose?_succ (growBlock source t start stop) k t.size
    rw [ha.new, ha.owned, Option.bind_some, hmap, ← hk] at hform
    exact hform

end Grown

/-! ## Both walks agree -/

/-- The trees of all levels that are open, in the order of the text. -/
def openTrees : List OpenBlock → List TokenTree → List TokenTree
  | [], done => done.reverse
  | b :: outer, done => openTrees outer b.before ++ done.reverse

theorem openTrees_cons (outer : List OpenBlock) (x : TokenTree) (done : List TokenTree) :
    openTrees outer (x :: done) = openTrees outer done ++ [x] := by
  cases outer with
  | nil => rw [openTrees, openTrees, List.reverse_cons]
  | cons b outer => rw [openTrees, openTrees, List.reverse_cons, List.append_assoc]

/-- Every tree of an open level ends before the place of the walk. -/
theorem Levels.of_mem_openTrees {d : Dialect} {outer : List OpenBlock} {done : List TokenTree}
    {pos : Nat} (h : Levels d.language d.ruleSet source outer done pos) {x : TokenTree}
    (hx : x ∈ openTrees outer done) : 0 < x.span.len ∧ x.span.stop ≤ pos := by
  induction outer generalizing done pos with
  | nil => exact (Reads.within h (Rose.mem_subtreesAll_of_mem hx)).2
  | cons b outer ih =>
      obtain ⟨hdone, -, houter⟩ := h
      rcases List.mem_append.1 hx with hx | hx
      · obtain ⟨hlen, hstop⟩ := ih houter hx
        have hle := hdone.le
        exact ⟨hlen, by omega⟩
      · exact (hdone.within (Rose.mem_subtreesAll_of_mem hx)).2

/-- The innermost block ends: its token adopts the trees of the innermost level. -/
theorem Grown.close {d : Dialect} {t : Tree Token} {b : OpenBlock} {outer : List OpenBlock}
    {done : List TokenTree} {pos : Nat} (h : Grown source t (openTrees (b :: outer) done))
    (room : t.size < Tree.width)
    (hlevels : Levels d.language d.ruleSet source (b :: outer) done pos) :
    Grown source (growBlock source t b.start (pos + 1))
      (openTrees outer (b.tree source done (pos + 1) :: b.before)) := by
  obtain ⟨hdone, ⟨hrest, -⟩, houter⟩ := hlevels
  have hle := hdone.le
  have htree : b.tree source done (pos + 1) =
      .node (blockToken source b.start (pos + 1)) done.reverse := by
    rw [blockToken, hrest, OpenBlock.tree]
  rw [openTrees_cons, htree]
  refine h.block room b.start (pos + 1) ?_ ?_
  · intro x hx
    obtain ⟨hlen, hstop⟩ := houter.of_mem_openTrees (List.mem_of_getLast? hx)
    rw [Bool.eq_false_iff, Ne, Span.contains_iff]
    simp only [blockToken, Source.span, Span.stop] at hstop ⊢
    omega
  · intro x hx
    obtain ⟨hstart, -, hstop⟩ := hdone.within (Rose.mem_subtreesAll_of_mem hx)
    rw [Span.contains_iff]
    simp only [blockToken, Source.span, Span.stop] at hstop ⊢
    omega

/-- The indexed tree `t` has an entry for the document and one for each token of the given trees.
It holds them if there is a name for each. -/
structure Tracks (source : Source) (t : Tree Token) (trees : List TokenTree) : Prop where
  /-- Every entry is one of the tokens. -/
  size : t.size = 1 + Rose.sizeAll trees
  /-- While there are names, the tree holds them. -/
  grown : t.size ≤ Tree.width → Grown source t trees

theorem tracks_singleton (source : Source) :
    Tracks source (.singleton ⟨.document, source.span 0 source.length, ""⟩) [] where
  size := by simp [Tree.size, Tree.singleton, Rose.sizeAll]
  grown := fun _ => grown_singleton source

theorem Tracks.leaf {t : Tree Token} {trees : List TokenTree} (h : Tracks source t trees)
    (token : Token) : Tracks source (t.push 0 token) (trees ++ [TokenTree.leaf token]) where
  size := by
    rw [Tree.size_push, h.size, Grown.sizeAll_append]
    simp only [Rose.sizeAll, Rose.size, TokenTree.leaf]
    omega
  grown := by
    intro hsize
    rw [Tree.size_push] at hsize
    exact (h.grown (Nat.le_of_succ_le hsize)).leaf hsize token

theorem Tracks.close {d : Dialect} {t : Tree Token} {b : OpenBlock} {outer : List OpenBlock}
    {done : List TokenTree} {pos : Nat} (h : Tracks source t (openTrees (b :: outer) done))
    (hlevels : Levels d.language d.ruleSet source (b :: outer) done pos) :
    Tracks source (growBlock source t b.start (pos + 1))
      (openTrees outer (b.tree source done (pos + 1) :: b.before)) := by
  constructor
  · rw [size_growBlock, h.size, openTrees_cons, openTrees, Grown.sizeAll_append,
      Grown.sizeAll_append]
    simp only [Rose.sizeAll, Rose.size, OpenBlock.tree]
    omega
  · intro hsize
    rw [size_growBlock] at hsize
    exact (h.grown (Nat.le_of_succ_le hsize)).close hsize hlevels

/-- The results of the two walks: the same error, or an indexed tree for the trees. -/
def Agree (source : Source) : Except TokenError (List TokenTree) →
    Except TokenError (Tree Token) → Prop
  | .error e, .error e' => e = e'
  | .ok ts, .ok t => Tracks source t ts
  | _, _ => False

theorem agree_of_levels {d : Dialect} {outer : List OpenBlock} {done : List TokenTree}
    {t : Tree Token} {pos : Nat} {cs : List Char} (hpos : pos ≤ source.chars.length)
    (hrest : source.chars.drop pos = cs)
    (hlevels : Levels d.language d.ruleSet source outer done pos)
    (htracks : Tracks source t (openTrees outer done)) :
    Agree source (readFrom d.language d.ruleSet source outer done pos cs)
      (growFrom d.language d.ruleSet source (outer.map OpenBlock.bracket) t pos cs) := by
  induction hn : cs.length using Nat.strong_induction_on generalizing outer done t pos cs with
  | _ n ih =>
  subst hn
  cases cs with
  | nil =>
      cases outer with
      | nil =>
          rw [readFrom, List.map_nil, growFrom]
          exact htracks
      | cons b outer =>
          rw [readFrom, List.map_cons, growFrom]
          rfl
  | cons c cs =>
      obtain ⟨htail, hnext, hget⟩ := drop_succ_of_drop hrest
      by_cases hc : outer.head?.any (·.closing == c) = true
      · -- the innermost block ends
        obtain ⟨b, outer, rfl⟩ : ∃ b rest, outer = b :: rest := by
          cases outer with
          | nil => simp at hc
          | cons b rest => exact ⟨b, rest, rfl⟩
        obtain rfl : b.closing = c := by simpa using hc
        rw [readFrom_close, List.map_cons, show b.closing = b.bracket.closing from rfl,
          growFrom_close]
        exact ih _ (by simp) hnext htail (hlevels.close hget) (htracks.close hlevels) rfl
      · rw [Bool.not_eq_true] at hc
        have hc' : (outer.map OpenBlock.bracket).head?.any (·.closing == c) = false := by
          rw [List.head?_map, Option.any_map]
          exact hc
        rw [readFrom_other done pos cs hc, growFrom_other t pos cs hc']
        cases hclose : d.ruleSet.isCloser c with
        | true => rfl
        | false =>
            simp only [Bool.false_eq_true, if_false]
            cases hfound : d.ruleSet.match? c cs with
            | none => rfl
            | some m =>
                cases m with
                | opens closing =>
                    -- a block begins
                    have hblock : Levels d.language d.ruleSet source
                        (⟨c, closing, pos, c :: cs, done⟩ :: outer) [] (pos + 1) :=
                      ⟨.nil _, ⟨hrest, cs, rfl, hclose, hfound⟩, hlevels⟩
                    refine ih _ (by simp) hnext htail hblock ?_ rfl
                    rw [openTrees, List.reverse_nil, List.append_nil]
                    exact htracks
                | reads len classifier =>
                    -- a rule reads some characters
                    obtain ⟨-, hlenpos, hlen⟩ := RuleSet.match?_reads hfound
                    obtain ⟨hafter, hbound⟩ := drop_add_of_drop hrest hlenpos hlen
                    have hshort : (cs.drop (len - 1)).length < (c :: cs).length := by
                      rw [List.length_drop, List.length_cons]
                      omega
                    dsimp only
                    cases hkind : classifier.kind? d.language (String.ofList ((c :: cs).take len)) with
                    | none =>
                        exact ih _ hshort hbound hafter
                          (hlevels.read (.skip hrest hclose hfound hkind (.nil _))) htracks rfl
                    | some kind =>
                        refine ih _ hshort hbound hafter
                          (hlevels.read (.leaf hrest hclose hfound hkind (.nil _))) ?_ rfl
                        dsimp only
                        rw [openTrees_cons]
                        exact htracks.leaf _

/-- The walk that grows one tree in place fails as the walk over levels fails, and otherwise ends
with an entry for each of its tokens. -/
theorem agree_of_text (d : Dialect) (text : String) :
    Agree (Source.ofString text)
      (readFrom d.language d.ruleSet (Source.ofString text) [] [] 0 (Source.ofString text).chars)
      (grow d text) := by
  have hlevels : Levels d.language d.ruleSet (Source.ofString text) [] [] 0 := .nil 0
  exact agree_of_levels (Nat.zero_le _) rfl hlevels (tracks_singleton _)

variable {d : Dialect} {text : String}

/-- A text that cannot be read cannot be grown, for the same reason. -/
theorem grow_of_error {e : TokenError} (h : read d text = .error e) : grow d text = .error e := by
  have hagree := agree_of_text d text
  simp only [read] at h
  cases hread : readFrom d.language d.ruleSet (Source.ofString text) [] [] 0
      (Source.ofString text).chars with
  | ok ts =>
      rw [hread] at h
      cases h
  | error e' =>
      rw [hread] at h hagree
      cases h
      cases hgrow : grow d text with
      | error e' =>
          rw [hgrow] at hagree
          obtain rfl : e = e' := hagree
          rfl
      | ok t =>
          rw [hgrow] at hagree
          exact hagree.elim

/-- A text that is read is also grown in place, into a tree with as many entries.  With a name for
each of them it is a tree of the same nested form, in which parents and child lists agree. -/
theorem exists_grow_of_read {doc : TokenTree} (h : read d text = .ok doc) :
    ∃ t, grow d text = .ok t ∧ t.size = doc.size ∧
      (doc.size ≤ Tree.width → t.toRose? = some doc ∧ t.Linked) := by
  have hagree := agree_of_text d text
  simp only [read] at h
  cases hread : readFrom d.language d.ruleSet (Source.ofString text) [] [] 0
      (Source.ofString text).chars with
  | error e =>
      rw [hread] at h
      cases h
  | ok ts =>
      rw [hread] at h hagree
      cases h
      cases hgrow : grow d text with
      | error e =>
          rw [hgrow] at hagree
          exact hagree.elim
      | ok t =>
          rw [hgrow] at hagree
          have htracks : Tracks (Source.ofString text) t ts := hagree
          have hsize : t.size = (document (Source.ofString text) ts).size := by
            rw [htracks.size, document, Rose.size]
          refine ⟨t, rfl, hsize, fun hnames => ?_⟩
          have hgrown := htracks.grown (hsize.le.trans hnames)
          exact ⟨hgrown.toRose?, hgrown.linked⟩

/-! ## What a token tree is -/

/-- The shape of the token tree of a text. -/
structure WellFormed (d : Dialect) (source : Source) (doc : TokenTree) : Prop where
  /-- The document spans the whole text. -/
  root : doc.value = ⟨.document, source.span 0 source.length, ""⟩
  /-- Only a document or a block owns tokens. -/
  compound : ∀ x ∈ doc.subtrees, x.children ≠ [] → x.value.kind.isCompound = true
  /-- The tokens that one token owns are in the order of the text and share no character. -/
  ordered : ∀ x ∈ doc.subtrees, x.children.Pairwise fun a b =>
    a.value.span.offset < b.value.span.offset ∧ a.value.span.overlaps b.value.span = false
  /-- They lie inside that token. -/
  contained : ∀ x ∈ doc.subtrees, ∀ c ∈ x.children,
    x.value.span.contains c.value.span = true
  /-- A token below the document is not empty. -/
  nonempty : ∀ x ∈ Rose.subtreesAll doc.children, 0 < x.value.span.len
  /-- Its text is the piece of the source at its span. -/
  text : ∀ x ∈ Rose.subtreesAll doc.children,
    source.slice? x.value.span.offset x.value.span.len = some x.value.text
  /-- A block begins and ends with the two brackets of one rule. -/
  brackets : ∀ x ∈ Rose.subtreesAll doc.children, x.value.kind = .block →
    ∃ r ∈ d.language.rules d.maxDepth, ∃ opening closing, r.recognizer = .block opening closing ∧
      x.value.text.toList.head? = some opening ∧ x.value.text.toList.getLast? = some closing
  /-- Every character lies in one leaf or is a bracket of one block, unless it is discarded. -/
  covered : ∀ i < source.length, Covered d.language source 0 (Rose.subtreesAll doc.children) i

/-- Tokens that are not empty and follow each other begin one behind the other and do not overlap. -/
theorem apart_of_ordered {us : List TokenTree} (hlen : ∀ x ∈ us, 0 < x.span.len)
    (hus : us.Pairwise (fun a b : TokenTree => a.span.stop ≤ b.span.offset)) :
    us.Pairwise fun a b =>
      a.value.span.offset < b.value.span.offset ∧ a.value.span.overlaps b.value.span = false := by
  refine hus.imp_of_mem ?_
  intro a b ha _ hab
  have hpos := hlen a ha
  simp only [TokenTree.span, Span.stop] at hpos hab
  refine ⟨by omega, ?_⟩
  rw [Span.overlaps, Span.stop, Bool.and_eq_false_iff, decide_eq_false_iff_not,
    decide_eq_false_iff_not]
  simp only [Span.stop]
  omega

theorem wellFormed_of_reads {d : Dialect} {ts : List TokenTree}
    (hsource : source.length = source.chars.length)
    (h : Reads d.language d.ruleSet source 0 source.length ts) :
    WellFormed d source (document source ts) := by
  have hsound : ∀ x ∈ Rose.subtreesAll ts, Sound d source x :=
    fun x hx => h.sound hsource hx
  have hinside : ∀ x ∈ Rose.subtreesAll ts, ∀ c ∈ x.children, c ∈ Rose.subtreesAll ts := by
    intro x hx c hc
    exact Rose.mem_subtreesAll_of_mem_children hx hc
  have hdoc : (document source ts).subtrees = document source ts :: Rose.subtreesAll ts :=
    Rose.subtrees_node _ _
  refine ⟨rfl, ?_, ?_, ?_, ?_, ?_, ?_, ?_⟩
  · intro x hx hne
    rw [hdoc] at hx
    rcases List.mem_cons.1 hx with rfl | hx
    · rfl
    · by_cases hblock : x.value.kind = .block
      · rw [hblock]
        rfl
      · exact absurd ((hsound x hx).leaf hblock) hne
  · intro x hx
    rw [hdoc] at hx
    rcases List.mem_cons.1 hx with rfl | hx
    · exact apart_of_ordered (fun x hx => (h.within (Rose.mem_subtreesAll_of_mem hx)).2.1) h.ordered
    · exact apart_of_ordered (fun c hc => (hsound c (hinside x hx c hc)).nonempty)
        (hsound x hx).ordered
  · intro x hx c hc
    rw [hdoc] at hx
    rcases List.mem_cons.1 hx with rfl | hx
    · obtain ⟨-, -, hstop⟩ := h.within (Rose.mem_subtreesAll_of_mem hc)
      rw [Span.contains_iff]
      simp only [document, Rose.value_node, Source.span, Span.stop, TokenTree.span] at hstop ⊢
      omega
    · exact (hsound x hx).contained c hc
  · intro x hx
    exact (hsound x hx).nonempty
  · intro x hx
    exact (hsound x hx).text
  · intro x hx hblock
    exact (hsound x hx).brackets hblock
  · intro i hi
    exact h.covered (Nat.zero_le i) hi

/-- A text that reads at all reads as a tree that is well formed and loses nothing.  It is also
grown in place, into a tree with as many entries.  With a name for each of them this is the same
tree, where every entry but the root stands exactly once in exactly one child list, which is that
of the entry above it. -/
theorem read_wellFormed {doc : TokenTree} (h : read d text = .ok doc) :
    WellFormed d (Source.ofString text) doc ∧
      ∃ t, grow d text = .ok t ∧ t.size = doc.size ∧
        (doc.size ≤ Tree.width → t.toRose? = some doc ∧ t.Linked) := by
  obtain ⟨ts, rfl, hreads⟩ := reads_of_read h
  exact ⟨wellFormed_of_reads rfl hreads, exists_grow_of_read h⟩

/-- A text with a block inside a block. -/
theorem read_wellFormed_nested : ∃ doc, read ⟨.java, 3⟩ "f(x) {g[1];}" = .ok doc ∧
    WellFormed ⟨.java, 3⟩ (Source.ofString "f(x) {g[1];}") doc ∧
      ∃ t, grow ⟨.java, 3⟩ "f(x) {g[1];}" = .ok t ∧ t.size = doc.size ∧
        t.toRose? = some doc ∧ t.Linked := by
  have hsmall : (read ⟨.java, 3⟩ "f(x) {g[1];}").toOption.any
      (fun doc => decide (doc.size ≤ Tree.width)) = true := by decide +kernel
  obtain ⟨doc, hread, hnames⟩ := (Option.any_eq_true _ _).1 hsmall
  have hread := eq_ok_of_toOption hread
  obtain ⟨hformed, t, hgrow, hsize, hheld⟩ := read_wellFormed hread
  exact ⟨doc, hread, hformed, t, hgrow, hsize, hheld (of_decide_eq_true hnames)⟩

end TokenTree

end Outline
