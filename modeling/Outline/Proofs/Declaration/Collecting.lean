import Outline.Proofs.Declaration.Nesting

/-!
# What is collected at places

The search for declarations puts together what it finds at one block after another.  Whatever is
collected from the pieces is therefore what the places of the blocks give, one after the other.

* `Discovery.Collects` — a part of what is found that is collected from its pieces.
* `Discovery.collected` — what is collected at a place.
* `Discovery.Collects.sites`, `Discovery.Collects.document` — the places give all of it.
-/

namespace Outline

/-- The malformed types that the search for a head in front of the block notes. -/
def SitedBlock.noted (l : Language) (b : SitedBlock) : List MalformedType :=
  if b.block.value.isBlock '\x7b' then (Head.search l [] b.before).2 else []

namespace Discovery

variable {α : Type} {F : Discovery → List α} {l : Language}

/-- A part of what is found that is collected from its pieces, where names of packages and imports
give nothing. -/
structure Collects (F : Discovery → List α) : Prop where
  append : ∀ a b, F (a ++ b) = F a ++ F b
  packages : ∀ names, F { packages := names } = []
  imports : ∀ imports, F { imports } = []

/-- What is collected at a place: from the search for the head, and from the head and the body. -/
def collected (F : Discovery → List α) (s : Surroundings) (p : Site) : List α :=
  F { malformed := p.own.noted s.language } ++
    match p.own.head? s.language with
    | some head => F (ofHead s head (p.fullName s.language) p.own.block)
    | none => []

namespace Collects

variable {s : Surroundings} {before : List TokenTree} {t : TokenTree}

theorem nil (hF : Collects F) : F {} = [] := hF.packages []

theorem leaf (hF : Collects F) (scope : List String) (after : List TokenTree)
    (ht : t.kind ≠ .block) :
    F (ofSiblings s scope before (t :: after)) =
      F (ofSiblings s (scope ++ addedParts s t after) (t :: before) after) := by
  obtain ⟨token, children⟩ := t
  have hkind : (token.kind != .block) = true := bne_iff_ne.2 ht
  rw [ofSiblings, addedParts]
  simp only [hkind, if_true]
  cases htop : s.isTop with
  | false => simp
  | true =>
      cases hname : packageName? s.language (.node token children) after with
      | none => simp
      | some name => simp [hF.append, hF.packages]

theorem block (hF : Collects F) (scope : List String) (after : List TokenTree)
    (ht : t.kind = .block) :
    F (ofSiblings s scope before (t :: after)) =
      F { malformed := (⟨before, t⟩ : SitedBlock).noted s.language } ++
        (match (⟨before, t⟩ : SitedBlock).head? s.language with
        | some head => F (ofHead s head (scope ++ head.name) t) ++
            F (ofSiblings (s.body head.kind (bodyImports s.language head.kind t))
              (scope ++ head.name) [] t.children)
        | none => F (ofSiblings s.inside scope [] t.children)) ++
        F (ofSiblings s scope (t :: before) after) := by
  obtain ⟨token, children⟩ := t
  have hkind : (token.kind != .block) = false := bne_eq_false_iff_eq.2 ht
  rw [ofSiblings, SitedBlock.head?, SitedBlock.noted, Rose.value_node, Rose.children_node]
  simp only [hkind, Bool.false_eq_true, if_false, hF.append]
  split
  · cases (Head.search s.language [] before).1 <;> simp [hF.append]
  · rfl

/-- What is collected from a run of siblings is what its places give. -/
theorem sites (hF : Collects F) {g : Site → List α}
    (hg : ∀ s p, s.language = l → collected F s p = g p) {s : Surroundings} {scope : List String}
    {around : List SitedBlock} {before : List TokenTree} (ts : List TokenTree)
    (hl : s.language = l) (htop : s.isTop = around.isEmpty)
    (hscope : scope = scopeBefore l around before ts) :
    F (ofSiblings s scope before ts) = (Site.ofSiblings around before ts).flatMap g := by
  match ts with
  | [] =>
    rw [ofSiblings, Site.ofSiblings]
    exact hF.nil
  | .node token children :: after =>
    let own : SitedBlock := ⟨before, .node token children⟩
    by_cases hkind : TokenTree.kind (.node token children) = .block
    · have hbehind := hF.sites hg after hl htop
        (hscope.trans (scopeBefore_behind l around before after hkind).symm)
      have hscope' : scope ++ own.nameParts l = scopeBefore l (around ++ [own]) [] children := by
        rw [scopeBefore_inside, ← scopeBefore_block l around before after hkind, ← hscope]
      rw [Site.ofSiblings_cons, if_pos hkind, List.flatMap_append, List.flatMap_cons, ← hbehind,
        hF.block scope after hkind, ← hg s ⟨around, own⟩ hl, collected, hl, Rose.children_node]
      cases hhead : own.head? l with
      | none =>
          rw [SitedBlock.nameParts, hhead, Option.elim_none, List.append_nil] at hscope'
          have hinside := hF.sites hg (s := s.inside) children hl (by simp [Surroundings.inside])
            hscope'
          rw [List.append_nil, ← hinside]
      | some head =>
          rw [SitedBlock.nameParts, hhead, Option.elim_some] at hscope'
          have hinside := hF.sites hg
            (s := s.body head.kind (bodyImports l head.kind own.block)) children hl
            (by simp [Surroundings.body]) hscope'
          have hname : Site.fullName l ⟨around, own⟩ = scope ++ head.name := by
            rw [Site.fullName, Site.blocks, ← scopeBefore_block l around before after hkind,
              ← hscope, SitedBlock.nameParts, hhead, Option.elim_some]
          rw [hname, ← hinside]
          simp only [List.append_assoc]
          rfl
    · have hbehind := hF.sites hg after hl htop
        (scopeBefore_skip l around before after (.node token children)).symm
      rw [hF.leaf scope after hkind, Site.ofSiblings_cons, if_neg hkind, List.nil_append,
        ← hbehind, addedParts, htop, hl, hscope]
termination_by sizeOf ts

/-- What is collected from a document is what its places give. -/
theorem document (hF : Collects F) {g : Site → List α}
    (hg : ∀ s p, s.language = l → collected F s p = g p) (document : TokenTree) :
    F (ofDocument l document) = (Site.all document).flatMap g := by
  rw [ofDocument, hF.append, hF.imports, List.nil_append]
  exact hF.sites hg document.children rfl rfl rfl

end Collects

end Discovery

end Outline
