import Outline.Declaration.Discovery
import Outline.Proofs.Token.Layout

/-!
# Blocks and what is around them

A block of a document is given by the blocks around it and by what stands in front of each of
them.  What is around a block decides its name and its imports; nothing else does.

* `Site` — a block with the blocks around it, the outermost one first.
* `Site.all` — the places of all blocks of a document, each before those inside it.
* `Site.fullName`, `Site.imports` — the name and the imports that a place gives to a declaration.
-/

namespace Outline

/-! ## Places -/

/-- A block with the siblings in front of it, the last one first. -/
structure SitedBlock where
  /-- The siblings in front of it. -/
  before : List TokenTree
  /-- The block. -/
  block : TokenTree

namespace SitedBlock

/-- The head of the declaration whose body the block is. -/
def head? (l : Language) (b : SitedBlock) : Option Head :=
  if b.block.value.isBlock '\x7b' then (Head.search l [] b.before).1 else none

/-- The parts that the block adds to the names of the declarations inside it. -/
def nameParts (l : Language) (b : SitedBlock) : List String := (b.head? l).elim [] (·.name)

/-- The imports that the block adds to those that are visible inside it: those of the body of a
namespace. -/
def addedImports (l : Language) (b : SitedBlock) : List Import :=
  match b.head? l with
  | some head => if head.kind = .package then Import.ofTokens l b.block.children else []
  | none => []

end SitedBlock

/-- A block of a document with the blocks around it. -/
structure Site where
  /-- The blocks around it, the outermost one first. -/
  around : List SitedBlock
  /-- The block itself. -/
  own : SitedBlock

namespace Site

open Rose (subtreesAll)

/-- The blocks around a place and its own one. -/
def blocks (p : Site) : List SitedBlock := p.around ++ [p.own]

/-- The places of the blocks of a run of siblings and of all blocks inside them, where the siblings
before the run are in `before`, the last one first, and the blocks around it in `around`. -/
def ofSiblings (around : List SitedBlock) (before : List TokenTree) : List TokenTree → List Site
  | [] => []
  | .node token children :: after =>
    let own : SitedBlock := ⟨before, .node token children⟩
    (if token.kind = .block then ⟨around, own⟩ :: ofSiblings (around ++ [own]) [] children
      else []) ++ ofSiblings around (.node token children :: before) after
termination_by ts => sizeOf ts

theorem ofSiblings_cons (around : List SitedBlock) (before : List TokenTree) (t : TokenTree)
    (after : List TokenTree) :
    ofSiblings around before (t :: after) =
      (if t.kind = .block then
        ⟨around, ⟨before, t⟩⟩ :: ofSiblings (around ++ [⟨before, t⟩]) [] t.children
      else []) ++ ofSiblings around (t :: before) after := by
  obtain ⟨token, children⟩ := t
  rw [ofSiblings]
  rfl

/-- The blocks at the places of a run of siblings, from the top down and from left to right. -/
theorem blocks_sublist (around : List SitedBlock) (before ts : List TokenTree) :
    ((ofSiblings around before ts).map (·.own.block)).Sublist (subtreesAll ts) := by
  match ts with
  | [] => rw [ofSiblings]; exact List.nil_sublist _
  | .node token children :: after =>
    have hbehind := blocks_sublist around (.node token children :: before) after
    rw [ofSiblings_cons, List.map_append, Rose.subtreesAll_cons]
    refine List.Sublist.append ?_ hbehind
    split
    · exact (blocks_sublist _ [] children).cons_cons _
    · exact List.nil_sublist _
termination_by sizeOf ts

/-- The places of the blocks of a document, each before those inside it. -/
def all (document : TokenTree) : List Site := ofSiblings [] [] document.children

/-- Each of the blocks around a place is inside the one before it. -/
theorem nested {around : List SitedBlock} {before ts : List TokenTree} {p : Site}
    (hp : p ∈ ofSiblings around before ts)
    (haround : around.Pairwise (fun a b => b.block ∈ subtreesAll a.block.children))
    (hts : ∀ b ∈ around, ∀ t ∈ ts, t ∈ subtreesAll b.block.children) :
    p.blocks.Pairwise (fun a b => b.block ∈ subtreesAll a.block.children) := by
  match ts with
  | [] => simp [ofSiblings] at hp
  | .node token children :: after =>
    rw [ofSiblings_cons, List.mem_append] at hp
    rcases hp with hp | hp
    · have hown : (around ++ [(⟨before, .node token children⟩ : SitedBlock)]).Pairwise
          (fun a b => b.block ∈ subtreesAll a.block.children) := by
        refine List.pairwise_append.2 ⟨haround, List.pairwise_singleton _ _, ?_⟩
        intro a ha b hb
        obtain rfl := List.mem_singleton.1 hb
        exact hts a ha _ List.mem_cons_self
      split at hp
      · rcases List.mem_cons.1 hp with rfl | hp
        · exact hown
        · refine nested hp hown ?_
          intro b hb t ht
          rcases List.mem_append.1 hb with hb | hb
          · exact Rose.mem_subtreesAll_of_mem_children (hts b hb _ List.mem_cons_self) ht
          · obtain rfl := List.mem_singleton.1 hb
            exact Rose.mem_subtreesAll_of_mem ht
      · exact absurd hp List.not_mem_nil
    · refine nested hp haround ?_
      intro b hb t ht
      exact hts b hb t (List.mem_cons_of_mem _ ht)
termination_by sizeOf ts

/-- The names that package statements among some tokens declare, one behind the other. -/
def packageParts (l : Language) : List TokenTree → List String
  | [] => []
  | t :: ts => (Discovery.packageName? l t ts).getD [] ++ packageParts l ts

/-- The parts of the full name that blocks, each inside the one before it, give to what is inside
the last one: the packages of the statements in front of the outermost block, and what each block
adds. -/
def scope (l : Language) : List SitedBlock → List String
  | [] => []
  | b :: bs => packageParts l b.before.reverse ++ (b :: bs).flatMap (·.nameParts l)

/-- The parts of the full name of the declaration whose body stands at a place. -/
def fullName (l : Language) (p : Site) : List String := scope l p.blocks

/-- The imports that the blocks around a place and its own one add. -/
def imports (l : Language) (p : Site) : List Import := p.blocks.flatMap (·.addedImports l)

/-- Whether the body of a declaration stands at a place. -/
def isBody (l : Language) (p : Site) : Bool := (p.own.head? l).isSome

end Site

end Outline
