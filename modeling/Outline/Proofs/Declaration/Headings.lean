import Mathlib.Data.List.Basic
import Outline.Proofs.Declaration.Collecting

/-!
# What heads tell of declarations

Each declaration is told by the head in front of its body and by the place of the body, and nothing
else tells of it.

* `Heading` — what is told of a declaration.
* `Site.heading?` — what the head at a place tells.
* `Discovery.headings_document` — what is told of those of a document.
-/

namespace Outline

/-! ## What is told of a declaration -/

/-- What is told of a declaration by its head and by what is around it. -/
structure Heading where
  /-- The parts of the full name. -/
  fullName : List String
  /-- What is declared. -/
  kind : DeclarationKind
  /-- The keyword. -/
  keyword : String
  /-- The modifiers, in order. -/
  modifiers : List String
  /-- The type parameters. -/
  typeParams : List TypeRef
  /-- The class that it extends. -/
  extended? : Option TypeRef
  /-- The other base types. -/
  implemented : List TypeRef
  /-- The annotations, in order. -/
  annotations : List Annotation
  /-- The comments, in order. -/
  comments : List String
  /-- The position of the keyword. -/
  position : Position
  /-- The body. -/
  body : TokenTree
  deriving Repr

/-- What is told of a declaration that has been found. -/
def Discovered.heading (found : Discovered) : Heading where
  fullName := found.declaration.fullName
  kind := found.declaration.kind
  keyword := found.declaration.keyword
  modifiers := found.declaration.modifiers
  typeParams := found.declaration.typeParams
  extended? := found.declaration.extended?
  implemented := found.declaration.implemented
  annotations := found.declaration.annotations
  comments := found.declaration.comments
  position := found.declaration.position
  body := found.body

/-- What a head tells of a declaration with the given full name and body. -/
def Head.heading (head : Head) (fullName : List String) (body : TokenTree) : Heading where
  fullName := fullName
  kind := head.kind
  keyword := head.keyword
  modifiers := head.modifiers
  typeParams := head.typeParams
  extended? := head.extended?
  implemented := head.implemented
  annotations := head.annotations
  comments := head.comments
  position := head.position
  body := body

/-- What the head at a place tells. -/
def Site.heading? (l : Language) (p : Site) : Option Heading :=
  (p.own.head? l).map (·.heading (p.fullName l) p.own.block)

/-- A full name ends with the parts that the head at the place gives. -/
theorem Site.fullName_eq (l : Language) (p : Site) :
    ∃ outer, p.fullName l = outer ++ p.own.nameParts l := by
  rw [Site.fullName, Site.blocks]
  cases p.around with
  | nil => exact ⟨Site.packageParts l p.own.before.reverse, by simp [Site.scope]⟩
  | cons b bs =>
      refine ⟨Site.scope l (b :: bs), ?_⟩
      simp [Site.scope]

namespace Discovery

theorem heading_ofHead (s : Surroundings) (head : Head) (fullName : List String)
    (body : TokenTree) :
    (ofHead s head fullName body).declarations.map (·.heading) = [head.heading fullName body] := by
  rw [ofHead]
  split <;> rfl

variable {l : Language}

/-- What is told of declarations is collected. -/
theorem collects_headings : Collects fun d => d.declarations.map (·.heading) where
  append a b := by rw [declarations_append, List.map_append]
  packages _ := rfl
  imports _ := rfl

/-- The declarations of a document are told by the heads at its places. -/
theorem headings_document (l : Language) (document : TokenTree) :
    (ofDocument l document).declarations.map (·.heading) =
      (Site.all document).filterMap (·.heading? l) := by
  rw [List.filterMap_eq_flatMap_toList]
  refine collects_headings.document (fun s p hs => ?_) document
  rw [collected, hs, Site.heading?]
  cases p.own.head? l with
  | none => rfl
  | some head => exact heading_ofHead s head (p.fullName l) p.own.block

/-- A head in front of a block in braces tells of a declaration. -/
theorem exists_declaration {document : TokenTree} {p : Site} {head : Head}
    (hp : p ∈ Site.all document) (hhead : p.own.head? l = some head) :
    ∃ x ∈ (ofDocument l document).declarations,
      x.heading = head.heading (p.fullName l) p.own.block := by
  have htold : p.heading? l = some (head.heading (p.fullName l) p.own.block) := by
    rw [Site.heading?, hhead]
    rfl
  have hmem : head.heading (p.fullName l) p.own.block ∈
      (Site.all document).filterMap (·.heading? l) := List.mem_filterMap.2 ⟨p, hp, htold⟩
  rw [← headings_document] at hmem
  exact List.mem_map.1 hmem

end Discovery

end Outline
