import Mathlib.Data.List.Basic
import Outline.Proofs.Declaration.Naming
import Outline.Proofs.Declaration.Nesting
import Outline.Proofs.Relayout.Heads

/-!
# Declarations without their layout

What is found in a document differs at most in what the layout may change.

* `Spelling.declaration` — what is compared of a declaration.
* `Spelling.declarations_ofDocument` — the declarations of a document are the same.
-/

namespace Outline.Spelling

open Discovery

variable (σ : Spelling)

/-- What is compared of a declaration: everything but its place, its imports, the arguments of
annotations, the texts of values, and what the spelling does not tell of names. -/
def declaration (d : Declaration TypeRef) : Declaration TypeRef :=
  { d with
    fullName := d.fullName.map σ.name
    typeParams := d.typeParams.map σ.typeParam
    annotations := []
    fields := d.fields.map σ.field
    methods := d.methods.map σ.method
    enumMembers := d.enumMembers.map σ.enumMember
    imports := []
    position := {} }

/-- What is compared of what is found. -/
def declarations (found : Discovery) : List (Declaration TypeRef) :=
  found.declarations.map (σ.declaration ·.declaration)

/-- What is around two runs of siblings that are compared. -/
structure Alike (s s' : Surroundings) : Prop where
  language : s'.language = s.language
  typeFirst : s.language.memberOrder = .typeFirst
  isTop : s'.isTop = s.isTop
  parent : s'.parent? = s.parent?

variable {s s' : Surroundings} {scope scope' : List String} {t t' : TokenTree}
  {before before' : List TokenTree}

/-! ## One declaration -/

theorem children_congr (ht : σ.tree t' = σ.tree t) :
    t'.children.map σ.tree = t.children.map σ.tree := by
  rw [← children_tree, ht, children_tree]

theorem declarations_ofHead (hs : Alike s s') {h h' : Head} (hh : σ.head h' = σ.head h)
    (hname : h.name ≠ []) (hscope : scope'.map σ.name = scope.map σ.name)
    (ht : σ.tree t' = σ.tree t) :
    σ.declarations (ofHead s' h' (scope' ++ h'.name) t') =
        σ.declarations (ofHead s h (scope ++ h.name) t) ∧
      (scope' ++ h'.name).map σ.name = (scope ++ h.name).map σ.name := by
  obtain ⟨kind, keyword, name, typeParams, extended?, implemented, modifiers, annotations,
    comments, position⟩ := h
  obtain ⟨kind', keyword', name', typeParams', extended?', implemented', modifiers', annotations',
    comments', position'⟩ := h'
  simp only [head, Head.mk.injEq] at hh
  obtain ⟨rfl, rfl, hnames, htypeParams, rfl, rfl, rfl, -, rfl, -⟩ := hh
  have hfull : (scope' ++ name').map σ.name = (scope ++ name).map σ.name := by
    rw [List.map_append, List.map_append, hscope]
    congr 1
    rw [headName, headName] at hnames
    split at hnames
    · rw [hnames]
    · exact hnames
  refine ⟨?_, hfull⟩
  unfold ofHead
  dsimp only
  cases hkind : kind'.hasMembers with
  | false =>
      simp only [Bool.false_eq_true, if_false, declarations, List.map_cons, List.map_nil,
        declaration, hfull, htypeParams, hs.language, hs.parent]
  | true =>
      rw [headName, headName, if_pos hkind, if_pos hkind] at hnames
      subst hnames
      have howners : σ.Owners ⟨s.language, scope ++ name'⟩ ⟨s'.language, scope' ++ name'⟩ := by
        refine ⟨hs.language, hs.typeFirst, ?_, hfull⟩
        rw [Owner.name?, Owner.name?, List.getLast?_append_of_ne_nil _ hname,
          List.getLast?_append_of_ne_nil _ hname]
      have hmembers := members_ofBody σ howners kind' (children_congr σ ht)
      simp only [members, Members.mk.injEq, and_true, hs.language] at hmembers
      simp only [if_true, declarations, List.map_cons, List.map_nil, declaration, hfull,
        htypeParams, hs.language, hs.parent, hmembers]

/-! ## Runs of siblings -/

/-- The head of a declaration in front of its body. -/
theorem head?_congr {l : Language} (hbefore : before'.map σ.tree = before.map σ.tree)
    (ht : σ.tree t' = σ.tree t) :
    ((⟨before', t'⟩ : SitedBlock).head? l).map σ.head =
      ((⟨before, t⟩ : SitedBlock).head? l).map σ.head := by
  have hblock : t'.value.isBlock '\x7b' = t.value.isBlock '\x7b' := by
    rw [← isBlock_token (σ := σ), ← value_tree, ht, value_tree, isBlock_token]
  rw [SitedBlock.head?, SitedBlock.head?, hblock]
  split
  · have h := search_trees σ l [] before
    have h' := search_trees σ l [] before'
    rw [hbefore] at h'
    exact h'.symm.trans h
  · rfl

theorem packageName?_trees (l : Language) (t : TokenTree) (after : List TokenTree) :
    (packageName? l (σ.tree t) (after.map σ.tree)).map (List.map σ.name) =
      (packageName? l t after).map (List.map σ.name) := by
  have hfilter := filter_trees σ after (!·.isTrivial)
  unfold packageName?
  rw [hfilter, kind_tree, text_tree]
  by_cases hkeyword : t.value.kind = .keyword
  · rw [text_keyword hkeyword]
    split
    · generalize after.filter (fun t => !t.kind.isTrivial) = ts
      rcases ts with _ | ⟨name, _ | ⟨stop, rest⟩⟩
      · rfl
      · rfl
      · simp only [List.map_cons, kind_tree, value_tree, isSeparator_token]
        split
        · rename_i h
          have hid : name.value.kind = .identifier := by
            simpa using (Bool.and_eq_true_iff.1 h).1
          rw [text_tree, text_identifier hid, Option.map_some, Option.map_some, σ.parts_word]
        · rfl
    · rfl
  · rw [beq_eq_false_iff_ne.2 hkeyword, Bool.false_and, Bool.false_and]
    rfl

theorem packageName?_congr (l : Language) {after after' : List TokenTree}
    (hafter : after'.map σ.tree = after.map σ.tree) (ht : σ.tree t' = σ.tree t) :
    (packageName? l t' after').map (List.map σ.name) =
      (packageName? l t after).map (List.map σ.name) := by
  rw [← packageName?_trees σ l t' after', hafter, ht, packageName?_trees]

theorem declarations_append (a b : Discovery) :
    σ.declarations (a ++ b) = σ.declarations a ++ σ.declarations b := by
  rw [declarations, Discovery.declarations_append, List.map_append]
  rfl

theorem declarations_leaf (s : Surroundings) (scope : List String) (before after : List TokenTree)
    (ht : t.kind ≠ .block) :
    σ.declarations (ofSiblings s scope before (t :: after)) =
      σ.declarations (ofSiblings s (scope ++ addedParts s t after) (t :: before) after) :=
  congrArg (List.map fun x : Discovered => σ.declaration x.declaration)
    (ofSiblings_leaf s scope before after ht).1

theorem declarations_block (scope : List String) (after : List TokenTree) (ht : t.kind = .block)
    (hhead : (⟨before, t⟩ : SitedBlock).head? s.language = none) :
    σ.declarations (ofSiblings s scope before (t :: after)) =
      σ.declarations (ofSiblings s.inside scope [] t.children) ++
        σ.declarations (ofSiblings s scope (t :: before) after) := by
  rw [declarations, (ofSiblings_block scope after ht hhead).1, List.map_append]
  rfl

theorem declarations_body (scope : List String) (after : List TokenTree) {h : Head}
    (hhead : (⟨before, t⟩ : SitedBlock).head? s.language = some h) :
    σ.declarations (ofSiblings s scope before (t :: after)) =
      σ.declarations (ofHead s h (scope ++ h.name) t) ++
        σ.declarations (ofSiblings (s.body h.kind (bodyImports s.language h.kind t))
          (scope ++ h.name) [] t.children) ++
        σ.declarations (ofSiblings s scope (t :: before) after) := by
  rw [declarations, (ofSiblings_head s scope after hhead).1, List.map_append, List.map_append]
  rfl

/-- A package statement adds the same names. -/
theorem addedParts_congr {s s' : Surroundings} (hs : Alike s s') {after after' : List TokenTree}
    (hafter : after'.map σ.tree = after.map σ.tree) (ht : σ.tree t' = σ.tree t) :
    (addedParts s' t' after').map σ.name = (addedParts s t after).map σ.name := by
  have hname := packageName?_congr σ s.language hafter ht
  rw [addedParts, addedParts, hs.isTop, hs.language]
  split
  · revert hname
    cases packageName? s.language t after <;>
      cases packageName? s.language t' after' <;> intro hname <;> simp_all
  · rfl

/-- What is found in a run of siblings is the same. -/
theorem declarations_siblings {s s' : Surroundings} {scope scope' : List String}
    {before before' : List TokenTree} (hs : Alike s s')
    (hscope : scope'.map σ.name = scope.map σ.name)
    (hbefore : before'.map σ.tree = before.map σ.tree) (ts : List TokenTree)
    {ts' : List TokenTree} (hts : ts'.map σ.tree = ts.map σ.tree) :
    σ.declarations (ofSiblings s' scope' before' ts') =
      σ.declarations (ofSiblings s scope before ts) := by
  match ts with
  | [] =>
      obtain rfl : ts' = [] := by simpa using hts
      rw [ofSiblings, ofSiblings]
  | .node token children :: after =>
      obtain ⟨t', after', rfl⟩ : ∃ t' rest, ts' = t' :: rest := by
        cases ts' with
        | nil => exact absurd hts (by simp)
        | cons t' ts' => exact ⟨t', ts', rfl⟩
      obtain ⟨ht, hafter⟩ := List.cons_eq_cons.1 hts
      have hlater : (t' :: before').map σ.tree = (.node token children :: before).map σ.tree :=
        congrArg₂ List.cons ht hbefore
      have hnone : ([] : List TokenTree).map σ.tree = ([] : List TokenTree).map σ.tree := rfl
      have hchildren : t'.children.map σ.tree = children.map σ.tree := children_congr σ ht
      have hkind : t'.kind = TokenTree.kind (.node token children) := by
        rw [← kind_tree σ, ht, kind_tree]
      by_cases hblock : TokenTree.kind (.node token children) = .block
      · have hbehind := declarations_siblings hs hscope hlater after hafter
        have hhead := head?_congr σ (l := s.language) hbefore ht
        cases h : (⟨before, .node token children⟩ : SitedBlock).head? s.language with
        | none =>
            rw [h, Option.map_none, Option.map_eq_none_iff, ← hs.language] at hhead
            have halike : Alike s.inside s'.inside := ⟨hs.language, hs.typeFirst, rfl, hs.parent⟩
            have hinside := declarations_siblings halike hscope hnone children hchildren
            rw [declarations_block σ scope after hblock h,
              declarations_block σ scope' after' (hkind.trans hblock) hhead, hbehind, hinside,
              Rose.children_node]
        | some found =>
            rw [h, Option.map_some] at hhead
            obtain ⟨found', h', hfound⟩ := Option.map_eq_some_iff.1 hhead
            rw [← hs.language] at h'
            have hne : found.name ≠ [] := by
              rw [SitedBlock.head?] at h
              split at h
              · exact Head.name_ne_nil_of_search h
              · cases h
            obtain ⟨hown, hnames⟩ := declarations_ofHead σ hs hfound hne hscope ht
            have hkinds : (σ.head found').kind = (σ.head found).kind := by rw [hfound]
            have halike : Alike
                (s.body found.kind (bodyImports s.language found.kind (.node token children)))
                (s'.body found'.kind (bodyImports s'.language found'.kind t')) :=
              ⟨hs.language, hs.typeFirst, rfl, congrArg some hkinds⟩
            have hinside := declarations_siblings halike hnames hnone children hchildren
            rw [declarations_body σ scope after h, declarations_body σ scope' after' h', hown,
              hbehind, hinside, Rose.children_node]
      · have hscopes : (scope' ++ addedParts s' t' after').map σ.name =
            (scope ++ addedParts s (.node token children) after).map σ.name := by
          rw [List.map_append, List.map_append, hscope, addedParts_congr σ hs hafter ht]
        have hbehind := declarations_siblings hs hscopes hlater after hafter
        rw [declarations_leaf σ s scope before after hblock,
          declarations_leaf σ s' scope' before' after' (hkind ▸ hblock), hbehind]
termination_by sizeOf ts

/-- The declarations of a document are the same. -/
theorem declarations_ofDocument {l : Language} (hl : l.memberOrder = .typeFirst)
    {document document' : TokenTree} (h : σ.tree document' = σ.tree document) :
    σ.declarations (ofDocument l document') = σ.declarations (ofDocument l document) :=
  have halike : Alike ⟨l, true, none, Import.ofTokens l document.children⟩
      ⟨l, true, none, Import.ofTokens l document'.children⟩ := ⟨rfl, hl, rfl, rfl⟩
  have hnone : ([] : List TokenTree).map σ.tree = ([] : List TokenTree).map σ.tree := rfl
  have hscope : ([] : List String).map σ.name = ([] : List String).map σ.name := rfl
  declarations_siblings σ halike hscope hnone document.children (children_congr σ h)

end Outline.Spelling
