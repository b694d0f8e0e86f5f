import Outline.Proofs.Declaration.Nesting

/-!
# Siblings without declarations

Where no block is the body of a declaration, the search passes over the siblings and finds nothing.
Without a keyword that introduces declarations there is no such body, however the blocks nest.

* `Site.Bodiless` — no block among some siblings, or inside them, is a body.
* `Discovery.declarations_bodiless` — such siblings are passed over.
* `Head.search_skip`, `Head.search_barred` — the search for a keyword passes over tokens among which
  no head begins, but not over the end of a statement or a block among them.
* `Site.bodiless_of_keywordless` — siblings without keywords hold no body.
-/

namespace Outline

/-! ## Blocks that are no bodies -/

namespace Site

variable {l : Language} {before ts : List TokenTree} {t : TokenTree}

/-- What is around a run of siblings does not matter for the blocks themselves. -/
theorem own_ofSiblings (around around' : List SitedBlock) (before ts : List TokenTree) :
    (ofSiblings around before ts).map (·.own) = (ofSiblings around' before ts).map (·.own) := by
  match ts with
  | [] => rw [ofSiblings, ofSiblings]
  | .node token children :: after =>
    have hbehind := own_ofSiblings around around' (.node token children :: before) after
    have hinside := own_ofSiblings (around ++ [⟨before, .node token children⟩])
      (around' ++ [⟨before, .node token children⟩]) [] children
    rw [ofSiblings_cons, ofSiblings_cons, List.map_append, List.map_append, hbehind]
    congr 1
    split
    · exact congrArg (List.cons _) hinside
    · rfl
termination_by sizeOf ts

/-- No block among some siblings, or inside them, is the body of a declaration, where the siblings
before them are in `before`, the last one first. -/
def Bodiless (l : Language) (before ts : List TokenTree) : Prop :=
  ∀ p ∈ ofSiblings [] before ts, p.isBody l = false

theorem bodiless_iff (around : List SitedBlock) :
    Bodiless l before ts ↔ ∀ p ∈ ofSiblings around before ts, p.isBody l = false := by
  have hown (around : List SitedBlock) : (∀ p ∈ ofSiblings around before ts, p.isBody l = false) ↔
      ∀ b ∈ (ofSiblings around before ts).map (·.own), (b.head? l).isSome = false :=
    (List.forall_mem_map (P := fun b : SitedBlock => (b.head? l).isSome = false)).symm
  rw [Bodiless, hown, hown, own_ofSiblings [] around]

theorem bodiless_nil : Bodiless l before [] := by
  rw [Bodiless, ofSiblings]
  exact List.forall_mem_nil _

theorem bodiless_cons : Bodiless l before (t :: ts) ↔
    (t.kind = .block → (⟨before, t⟩ : SitedBlock).head? l = none ∧ Bodiless l [] t.children) ∧
      Bodiless l (t :: before) ts := by
  rw [Bodiless, ofSiblings_cons, List.forall_mem_append]
  refine and_congr ?_ Iff.rfl
  by_cases hkind : t.kind = .block
  · rw [if_pos hkind, List.forall_mem_cons, ← bodiless_iff, isBody, Option.isSome_eq_false_iff,
      Option.isNone_iff_eq_none]
    exact ⟨fun h _ => h, fun h => h hkind⟩
  · rw [if_neg hkind]
    exact ⟨fun _ h => absurd h hkind, fun _ => List.forall_mem_nil _⟩

/-- A token that is no block in braces is no body, whatever is before it. -/
theorem bodiless_of_forall
    (h : ∀ t ∈ ts, t.value.isBlock '\x7b' = false ∧ (t.kind = .block → Bodiless l [] t.children)) :
    Bodiless l before ts := by
  induction ts generalizing before with
  | nil => exact bodiless_nil
  | cons t ts ih =>
      obtain ⟨⟨hbrace, hinside⟩, hts⟩ := List.forall_mem_cons.1 h
      refine bodiless_cons.2 ⟨fun hkind => ⟨?_, hinside hkind⟩, ih hts⟩
      exact if_neg (by rw [hbrace]; exact Bool.false_ne_true)

end Site

namespace Discovery

open Site (Bodiless)

variable {s : Surroundings}

/-- Siblings without bodies are passed over.  Only package statements among them leave a trace. -/
theorem declarations_bodiless (s : Surroundings) (scope : List String) {before ts : List TokenTree}
    (h : Bodiless s.language before ts) (rest : List TokenTree) :
    (ofSiblings s scope before (ts ++ rest)).declarations =
      (ofSiblings s (scope ++ if s.isTop then packagesBefore s.language ts rest else [])
        (ts.reverse ++ before) rest).declarations := by
  match ts with
  | [] => simp [packagesBefore]
  | .node token children :: after =>
    obtain ⟨hblock, hafter⟩ := Site.bodiless_cons.1 h
    have hbehind (scope : List String) := declarations_bodiless s scope hafter rest
    rw [List.cons_append, List.reverse_cons, List.append_assoc, List.singleton_append]
    by_cases hkind : TokenTree.kind (.node token children) = .block
    · obtain ⟨hhead, hinside⟩ := hblock hkind
      rw [Rose.children_node] at hinside
      have hchildren := declarations_bodiless s.inside scope hinside []
      rw [List.append_nil, ofSiblings] at hchildren
      rw [(ofSiblings_block scope (after ++ rest) hkind hhead).1, Rose.children_node, hchildren,
        hbehind, packagesBefore, packageName?,
        show (TokenTree.kind (.node token children) == .keyword) = false by rw [hkind]; rfl]
      rfl
    · rw [(ofSiblings_leaf s scope before (after ++ rest) hkind).1, hbehind, addedParts,
        packagesBefore]
      cases s.isTop <;> simp
termination_by sizeOf ts

end Discovery

/-! ## The search for a keyword -/

namespace Head

variable {l : Language} {before : List TokenTree} {t : TokenTree}

theorem kind?_eq_none (h : l.marks .block t.value = false) : kind? l t.value = none :=
  if_neg (by rw [h]; exact Bool.false_ne_true)

/-- No head begins with a token among some and ends with those in `between` behind them. -/
def Headless (l : Language) : List TokenTree → List TokenTree → Prop
  | [], _ => True
  | t :: ts, between =>
    (∀ kind, kind? l t.value = some kind →
        ∀ before, (readAt l kind t (ts ++ between) before).1 = none) ∧
      Headless l ts between

theorem Headless.append {xs ys between : List TokenTree} (hxs : Headless l xs (ys ++ between))
    (hys : Headless l ys between) : Headless l (xs ++ ys) between := by
  induction xs with
  | nil => exact hys
  | cons x xs ih =>
      refine ⟨fun kind hkind before => ?_, ih hxs.2⟩
      show (readAt l kind x (xs ++ ys ++ between) before).1 = none
      rw [List.append_assoc]
      exact hxs.1 kind hkind before

/-- Without keywords that introduce declarations there is no head. -/
theorem headless_of_keywordless {xs between : List TokenTree}
    (h : ∀ x ∈ xs, l.marks .block x.value = false) : Headless l xs between := by
  induction xs with
  | nil => exact trivial
  | cons x xs ih =>
      obtain ⟨hx, hxs⟩ := List.forall_mem_cons.1 h
      refine ⟨fun kind hkind => ?_, ih hxs⟩
      rw [kind?_eq_none hx] at hkind
      cases hkind

/-- The search passes over tokens among which no head begins. -/
theorem search_skip {xs between : List TokenTree} (hbarrier : ∀ x ∈ xs, isBarrier x.value = false)
    (h : Headless l xs between) (before : List TokenTree) :
    (search l between (xs.reverse ++ before)).1 = (search l (xs ++ between) before).1 := by
  induction xs generalizing before with
  | nil => rfl
  | cons x xs ih =>
      obtain ⟨hx, hxs⟩ := List.forall_mem_cons.1 hbarrier
      rw [List.reverse_cons, List.append_assoc, ih hxs h.2, List.singleton_append, search, hx,
        if_neg Bool.false_ne_true, List.cons_append]
      cases hkind : kind? l x.value with
      | none => rfl
      | some kind =>
          have hread := h.1 kind hkind before
          rcases hfound : readAt l kind x (xs ++ between) before with ⟨_ | head, malformed⟩
          · dsimp only
            rw [hfound]
          · rw [hfound] at hread
            cases hread

/-- It does not get past the end of a statement or a block among them. -/
theorem search_barred {xs between : List TokenTree} (hbarrier : ∃ x ∈ xs, isBarrier x.value = true)
    (h : Headless l xs between) (before : List TokenTree) :
    (search l between (xs.reverse ++ before)).1 = none := by
  induction xs generalizing before with
  | nil =>
      obtain ⟨x, hx, -⟩ := hbarrier
      exact absurd hx List.not_mem_nil
  | cons x xs ih =>
      rw [List.reverse_cons, List.append_assoc, List.singleton_append]
      by_cases hlater : ∃ y ∈ xs, isBarrier y.value = true
      · exact ih hlater h.2 (x :: before)
      · have hskip : ∀ y ∈ xs, isBarrier y.value = false := fun y hy =>
          Bool.eq_false_iff.2 fun hbarrier => hlater ⟨y, hy, hbarrier⟩
        have hx : isBarrier x.value = true := by
          obtain ⟨y, hy, hyb⟩ := hbarrier
          rcases List.mem_cons.1 hy with rfl | hy
          · exact hyb
          · exact absurd ⟨y, hy, hyb⟩ hlater
        rw [search_skip hskip h.2, search, if_pos hx]

/-- No search among some tokens, the last one first, finds a head. -/
def Barred (l : Language) (before : List TokenTree) : Prop :=
  ∀ between, search l between before = (none, [])

theorem barred_nil : Barred l [] := fun _ => rfl

theorem barred_of_isBarrier (h : isBarrier t.value = true) : Barred l (t :: before) := by
  intro between
  rw [search, if_pos h]

theorem Barred.cons (hbefore : Barred l before) (h : l.marks .block t.value = false) :
    Barred l (t :: before) := by
  intro between
  rw [search]
  split
  · rfl
  · rw [kind?_eq_none h]
    exact hbefore _

end Head

namespace Site

open Rose (subtreesAll)

/-- There is no keyword that introduces declarations among some siblings or inside them. -/
def Keywordless (l : Language) (ts : List TokenTree) : Prop :=
  ∀ t ∈ subtreesAll ts, l.marks .block t.value = false

instance (l : Language) (ts : List TokenTree) : Decidable (Keywordless l ts) :=
  inferInstanceAs (Decidable (∀ t ∈ subtreesAll ts, l.marks .block t.value = false))

/-- Without keywords there is no body. -/
theorem bodiless_of_keywordless {l : Language} {before ts : List TokenTree}
    (hbefore : Head.Barred l before) (h : Keywordless l ts) : Bodiless l before ts := by
  match ts with
  | [] => exact bodiless_nil
  | .node token children :: after =>
    rw [Keywordless, Rose.subtreesAll_cons, Rose.subtrees_node, List.forall_mem_append,
      List.forall_mem_cons] at h
    obtain ⟨⟨htoken, hchildren⟩, hafter⟩ := h
    refine bodiless_cons.2 ⟨fun _ => ⟨?_, ?_⟩, ?_⟩
    · rw [SitedBlock.head?]
      split
      · rw [hbefore]
      · rfl
    · exact bodiless_of_keywordless Head.barred_nil hchildren
    · exact bodiless_of_keywordless (hbefore.cons htoken) hafter
termination_by sizeOf ts

end Site

end Outline
