import Outline.Proofs.Declaration.Sites
import Outline.Proofs.Text.Pieces

/-!
# Where names come from

The name of a declaration stands in front of its body.  The full names of all that is found in a
document are put together from these names and from those in package statements.

* `Head.exists_readName_of_search` — the name of a head is that of a token in front of the body.
* `Discovery.names` — the full names that are found in a run of tokens.
* `Discovery.parts_ofSiblings` — what holds of the parts of all these names.
-/

namespace Outline

namespace Head

/-! ## Heads -/

variable {l : Language} {kind : DeclarationKind} {head : Head}

/-- What stands in front of the keyword adds only modifiers, annotations and comments. -/
theorem readLead_eq (l : Language) (h : Head) (before : List TokenTree) :
    ∃ modifiers annotations comments,
      readLead l h before = { h with modifiers, annotations, comments } := by
  fun_induction readLead l h before with
  | case1 h => exact ⟨_, _, _, rfl⟩
  | case2 h t before _ ih => exact ih
  | case3 h t before _ _ ih => exact ih
  | case4 h t before _ _ found rest _ ih => exact ih
  | case5 h t before => exact ⟨_, _, _, rfl⟩

theorem exists_readName_of_readAt {keyword : TokenTree} {between before : List TokenTree}
    (h : (readAt l kind keyword between before).1 = some head) :
    ∃ t ∈ between, ∃ params, (readName head.kind t).1 = some (head.name, params) := by
  unfold readAt at h
  split at h
  · cases h
  · rename_i t rest hfilter
    have ht : t ∈ between := (List.mem_filter.1 (hfilter ▸ List.mem_cons_self)).1
    split at h
    · cases h
    · rename_i name params malformed hname
      split at h
      · cases h
      · split at h
        · cases h
        · obtain rfl := Option.some.inj h
          refine ⟨t, ht, params, ?_⟩
          obtain ⟨modifiers, annotations, comments, hlead⟩ := readLead_eq l _ before
          rw [hlead, hname]

/-- The name of a head is that of a token in front of the body. -/
theorem exists_readName_of_search {between before : List TokenTree}
    (h : (search l between before).1 = some head) :
    ∃ t, (t ∈ between ∨ t ∈ before) ∧
      ∃ params, (readName head.kind t).1 = some (head.name, params) := by
  fun_induction search l between before with
  | case1 => cases h
  | case2 => cases h
  | case3 between t before hbarrier hkind ih =>
      obtain ⟨u, hu, hname⟩ := ih h
      rw [List.mem_cons, or_assoc, or_left_comm, ← List.mem_cons] at hu
      exact ⟨u, hu, hname⟩
  | case4 between t before hbarrier kind hkind found malformed hread =>
      cases h
      obtain ⟨u, hu, hname⟩ := exists_readName_of_readAt (congrArg Prod.fst hread)
      exact ⟨u, Or.inl hu, hname⟩
  | case5 between t before hbarrier kind hkind malformed hread found later hlater ih =>
      obtain ⟨u, hu, hname⟩ := ih (by rw [hlater]; exact h)
      rw [List.mem_cons, or_assoc, or_left_comm, ← List.mem_cons] at hu
      exact ⟨u, hu, hname⟩

theorem name_ne_nil_of_readName {t : TokenTree} {name : List String} {params : List TypeRef}
    (h : (readName kind t).1 = some (name, params)) : name ≠ [] := by
  unfold readName at h
  split at h
  · cases h
    exact Text.dottedParts_ne_nil _
  · split at h
    · split at h
      · cases h
        exact Text.dottedParts_ne_nil _
      · cases h
    · cases h
  · cases h
    simp
  · cases h

/-- A head has a name. -/
theorem name_ne_nil_of_search {between before : List TokenTree}
    (h : (search l between before).1 = some head) : head.name ≠ [] := by
  obtain ⟨t, -, params, hname⟩ := exists_readName_of_search h
  exact name_ne_nil_of_readName hname

end Head

open Rose (subtreesAll)

/-! ## Places -/

/-- The tokens in front of a block of a run of siblings stand in the run or in front of it. -/
theorem Site.mem_before {around : List SitedBlock} {before ts : List TokenTree} {p : Site}
    (hp : p ∈ ofSiblings around before ts) {u : TokenTree} (hu : u ∈ p.own.before) :
    u ∈ before ∨ u ∈ subtreesAll ts := by
  match ts with
  | [] => simp [ofSiblings] at hp
  | .node token children :: after =>
    have hself : Rose.node token children ∈ subtreesAll (.node token children :: after) :=
      Rose.mem_subtreesAll_of_mem List.mem_cons_self
    rw [ofSiblings_cons, List.mem_append] at hp
    rcases hp with hp | hp
    · split at hp
      · rcases List.mem_cons.1 hp with rfl | hp
        · exact Or.inl hu
        · rcases mem_before hp hu with hu | hu
          · cases hu
          · refine Or.inr ?_
            rw [Rose.subtreesAll_cons, Rose.subtrees_node]
            exact List.mem_append_left _ (List.mem_cons_of_mem _ hu)
      · cases hp
    · rcases mem_before hp hu with hu | hu
      · rcases List.mem_cons.1 hu with rfl | hu
        · exact Or.inr hself
        · exact Or.inl hu
      · rw [Rose.subtreesAll_cons]
        exact Or.inr (List.mem_append_right _ hu)
termination_by sizeOf ts

/-! ## Full names -/

namespace Discovery

/-- The full names of the declarations and of the packages that are found. -/
def names (found : Discovery) : List (List String) :=
  found.declarations.map (·.declaration.fullName) ++ found.packages

theorem mem_names_append {a b : Discovery} {name : List String} :
    name ∈ (a ++ b).names ↔ name ∈ a.names ∨ name ∈ b.names := by
  have happend : (a ++ b).names =
      (a.declarations ++ b.declarations).map (·.declaration.fullName) ++
        (a.packages ++ b.packages) := rfl
  rw [happend, names, names]
  simp only [List.map_append, List.mem_append]
  exact or_or_or_comm

theorem eq_of_mem_names_ofHead {s : Surroundings} {head : Head} {fullName name : List String}
    {body : TokenTree} (h : name ∈ (ofHead s head fullName body).names) : name = fullName := by
  rw [ofHead] at h
  split at h
  · simpa [names] using h
  · simpa [names] using h

theorem exists_of_packageName? {l : Language} {t : TokenTree} {after : List TokenTree}
    {name : List String} (h : packageName? l t after = some name) :
    ∃ u ∈ after, u.kind = .identifier ∧ name = Text.dottedParts u.text := by
  unfold packageName? at h
  split at h
  · split at h
    · rename_i u stop rest hfilter
      split at h
      · next hname =>
        cases h
        exact ⟨u, (List.mem_filter.1 (hfilter ▸ List.mem_cons_self)).1,
          beq_iff_eq.1 (Bool.and_eq_true_iff.1 hname).1, rfl⟩
      · cases h
    · cases h
  · cases h

section

variable {s : Surroundings} {scope name : List String} {before after : List TokenTree}
  {t : TokenTree}

/-- What is found from a leaf on: it may start a package statement. -/
theorem mem_names_leaf (ht : t.kind ≠ .block)
    (h : name ∈ (ofSiblings s scope before (t :: after)).names) :
    ∃ added, (added = [] ∨ packageName? s.language t after = some added) ∧
      (name = scope ++ added ∨
        name ∈ (ofSiblings s (scope ++ added) (t :: before) after).names) := by
  obtain ⟨token, children⟩ := t
  have hkind : (token.kind != .block) = true := bne_iff_ne.2 ht
  rw [ofSiblings] at h
  simp only [hkind, if_true] at h
  split at h
  · next added hadded =>
    split at hadded
    · refine ⟨added, Or.inr hadded, ?_⟩
      rcases mem_names_append.1 h with h | h
      · exact Or.inl (by simpa [names] using h)
      · exact Or.inr h
    · cases hadded
  · refine ⟨[], Or.inl rfl, Or.inr ?_⟩
    rwa [List.append_nil]

/-- What is found from a block on: it may be the body of a declaration. -/
theorem mem_names_block (ht : t.kind = .block)
    (h : name ∈ (ofSiblings s scope before (t :: after)).names) :
    (∃ inner : Surroundings, inner.language = s.language ∧
      (name = scope ++ (⟨before, t⟩ : SitedBlock).nameParts s.language ∨
        name ∈ (ofSiblings inner (scope ++ (⟨before, t⟩ : SitedBlock).nameParts s.language) []
          t.children).names)) ∨
    name ∈ (ofSiblings s scope (t :: before) after).names := by
  obtain ⟨token, children⟩ := t
  have hkind : ¬ (token.kind != .block) = true := fun h => bne_iff_ne.1 h ht
  have hhead : (⟨before, .node token children⟩ : SitedBlock).head? s.language =
      (if token.isBlock '\x7b' then Head.search s.language [] before else (none, [])).1 := by
    rw [SitedBlock.head?]
    split <;> simp_all
  rw [SitedBlock.nameParts, hhead]
  rw [ofSiblings] at h
  simp only [if_neg hkind] at h
  rcases mem_names_append.1 h with h | h
  · rcases mem_names_append.1 h with h | h
    · simp [names] at h
    · refine Or.inl ?_
      split at h
      · next head hfound =>
        refine ⟨s.body head.kind (bodyImports s.language head.kind (.node token children)), rfl, ?_⟩
        rw [hfound]
        rcases mem_names_append.1 h with h | h
        · exact Or.inl (eq_of_mem_names_ofHead h)
        · exact Or.inr h
      · next hfound =>
        refine ⟨s.inside, rfl, Or.inr ?_⟩
        rwa [hfound, Option.elim_none, List.append_nil]
  · exact Or.inr h

end

/-- What holds of the parts of all identifiers, of all names of heads and of the scope holds of the
parts of all full names that are found. -/
theorem parts_ofSiblings {P : String → Prop} {l : Language} {s : Surroundings}
    (hl : s.language = l) {scope : List String} {around : List SitedBlock}
    {before ts : List TokenTree} (hscope : ∀ part ∈ scope, P part)
    (hwords : ∀ u ∈ subtreesAll ts, TokenTree.kind u = .identifier →
      ∀ part ∈ Text.dottedParts (TokenTree.text u), P part)
    (hheads : ∀ p ∈ Site.ofSiblings around before ts, ∀ part ∈ p.own.nameParts l, P part) :
    ∀ name ∈ (ofSiblings s scope before ts).names, ∀ part ∈ name, P part := by
  intro name hname
  match ts with
  | [] =>
    rw [ofSiblings] at hname
    simp [names] at hname
  | .node token children :: after =>
    rw [Rose.subtreesAll_cons, Rose.subtrees_node, List.forall_mem_append,
      List.forall_mem_cons] at hwords
    obtain ⟨⟨-, hinside⟩, hafter⟩ := hwords
    have hbehind : ∀ p ∈ Site.ofSiblings around (.node token children :: before) after,
        ∀ part ∈ p.own.nameParts l, P part := by
      intro p hp
      refine hheads p ?_
      rw [Site.ofSiblings_cons]
      exact List.mem_append_right _ hp
    by_cases hkind : TokenTree.kind (.node token children) = .block
    · rw [Site.ofSiblings_cons, if_pos hkind, List.cons_append, List.forall_mem_cons] at hheads
      obtain ⟨hown, hheads⟩ := hheads
      have hparts := List.forall_mem_append.2 ⟨hscope, hown⟩
      rcases mem_names_block hkind hname with ⟨inner, hinner, rfl | hname⟩ | hname
      · rwa [hl]
      · rw [hl] at hname hinner
        exact parts_ofSiblings hinner hparts hinside
          (fun p hp => hheads p (List.mem_append_left _ hp)) name hname
      · exact parts_ofSiblings hl hscope hafter hbehind name hname
    · obtain ⟨added, hadded, hname⟩ := mem_names_leaf hkind hname
      have hparts : ∀ part ∈ scope ++ added, P part := by
        refine List.forall_mem_append.2 ⟨hscope, ?_⟩
        rcases hadded with rfl | hadded
        · simp
        · obtain ⟨u, hu, hword, rfl⟩ := exists_of_packageName? hadded
          exact hafter u (Rose.mem_subtreesAll_of_mem hu) hword
      rcases hname with rfl | hname
      · exact hparts
      · exact parts_ofSiblings hl hparts hafter hbehind name hname
termination_by sizeOf ts

end Discovery

end Outline
