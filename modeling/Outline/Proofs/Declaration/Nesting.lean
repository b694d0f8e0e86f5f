import Outline.Proofs.Declaration.Sites
import Outline.Proofs.Member.TypeSteps

/-!
# Names and imports follow the nesting

The search for declarations carries one scope and one list of imports along.  What it finds is told
by the places of the blocks alone.

* `Discovery.declarations_sites` — the declarations of a run of siblings, by their places.
* `Discovery.ofDocument_sites` — the names, the imports and the order of the declarations of a
  document.
-/

namespace Outline

namespace Discovery

variable {s : Surroundings} {before : List TokenTree} {t : TokenTree}

/-! ## One sibling -/

@[simp] theorem declarations_append (a b : Discovery) :
    (a ++ b).declarations = a.declarations ++ b.declarations := rfl

@[simp] theorem imports_append (a b : Discovery) : (a ++ b).imports = a.imports ++ b.imports := rfl

/-- The parts that a sibling adds to the scope of those behind it. -/
def addedParts (s : Surroundings) (t : TokenTree) (after : List TokenTree) : List String :=
  if s.isTop then (packageName? s.language t after).getD [] else []

/-- A sibling that is no block. -/
theorem ofSiblings_leaf (s : Surroundings) (scope : List String) (before after : List TokenTree)
    {t : TokenTree} (ht : t.kind ≠ .block) :
    (ofSiblings s scope before (t :: after)).declarations =
        (ofSiblings s (scope ++ addedParts s t after) (t :: before) after).declarations ∧
      (ofSiblings s scope before (t :: after)).imports =
        (ofSiblings s (scope ++ addedParts s t after) (t :: before) after).imports := by
  obtain ⟨token, children⟩ := t
  have hkind : (token.kind != .block) = true := bne_iff_ne.2 ht
  rw [ofSiblings, addedParts]
  simp only [hkind, if_true]
  cases htop : s.isTop with
  | false => simp
  | true =>
      cases hname : packageName? s.language (.node token children) after with
      | none => simp
      | some name => simp

/-- A block that is no body of a declaration. -/
theorem ofSiblings_block (scope : List String) (after : List TokenTree) (ht : t.kind = .block)
    (hhead : (⟨before, t⟩ : SitedBlock).head? s.language = none) :
    (ofSiblings s scope before (t :: after)).declarations =
        (ofSiblings s.inside scope [] t.children).declarations ++
          (ofSiblings s scope (t :: before) after).declarations ∧
      (ofSiblings s scope before (t :: after)).imports =
        (ofSiblings s.inside scope [] t.children).imports ++
          (ofSiblings s scope (t :: before) after).imports := by
  obtain ⟨token, children⟩ := t
  have hkind : (token.kind != .block) = false := bne_eq_false_iff_eq.2 ht
  rw [ofSiblings]
  by_cases hbrace : token.isBlock '\x7b' = true
  · have hnone : (Head.search s.language [] before).1 = none := (if_pos hbrace).symm.trans hhead
    simp [hkind, hbrace, hnone]
  · simp [hkind, hbrace]

/-- The declaration of a head in the given surroundings. -/
theorem ofHead_eq (s : Surroundings) (head : Head) (fullName : List String) (body : TokenTree) :
    ∃ d, (ofHead s head fullName body).declarations = [⟨d, body⟩] ∧ d.fullName = fullName ∧
      d.imports = s.imports ++ bodyImports s.language head.kind body ∧
      (ofHead s head fullName body).imports = bodyImports s.language head.kind body := by
  cases hmembers : head.kind.hasMembers with
  | true =>
      refine ⟨_, by rw [ofHead, if_pos hmembers], rfl, ?_, ?_⟩
      · rw [bodyImports, if_pos hmembers, List.append_nil]
      · rw [ofHead, if_pos hmembers, bodyImports, if_pos hmembers]
  | false =>
      have hmembers : ¬ head.kind.hasMembers = true := by simp [hmembers]
      refine ⟨_, by rw [ofHead, if_neg hmembers], rfl, rfl, ?_⟩
      rw [ofHead, if_neg hmembers]

/-- A block behind the head of a declaration. -/
theorem ofSiblings_head (s : Surroundings) (scope : List String) (after : List TokenTree)
    {before : List TokenTree} {t : TokenTree} {head : Head}
    (hhead : (⟨before, t⟩ : SitedBlock).head? s.language = some head) :
    (ofSiblings s scope before (t :: after)).declarations =
        (ofHead s head (scope ++ head.name) t).declarations ++
          (ofSiblings (s.body head.kind (bodyImports s.language head.kind t))
            (scope ++ head.name) [] t.children).declarations ++
          (ofSiblings s scope (t :: before) after).declarations ∧
      (ofSiblings s scope before (t :: after)).imports =
        (ofHead s head (scope ++ head.name) t).imports ++
          (ofSiblings (s.body head.kind (bodyImports s.language head.kind t))
            (scope ++ head.name) [] t.children).imports ++
          (ofSiblings s scope (t :: before) after).imports := by
  obtain ⟨token, children⟩ := t
  by_cases hbrace : token.isBlock '\x7b' = true
  · have hsome : (Head.search s.language [] before).1 = some head :=
      (if_pos hbrace).symm.trans hhead
    have hkind : (token.kind != .block) = false :=
      bne_eq_false_iff_eq.2 (beq_iff_eq.1 (Bool.and_eq_true_iff.1 hbrace).1)
    rw [ofSiblings]
    simp [hkind, hbrace, hsome]
  · exact absurd ((if_neg hbrace).symm.trans hhead) (by simp)

/-- A block that is the body of a declaration. -/
theorem ofSiblings_body (s : Surroundings) (scope : List String) (after : List TokenTree)
    {before : List TokenTree} {t : TokenTree} {head : Head}
    (hhead : (⟨before, t⟩ : SitedBlock).head? s.language = some head) :
    ∃ d, (d.fullName = scope ++ head.name ∧
        d.imports = s.imports ++ bodyImports s.language head.kind t) ∧
      (ofSiblings s scope before (t :: after)).declarations =
        ⟨d, t⟩ :: (ofSiblings (s.body head.kind (bodyImports s.language head.kind t))
          (scope ++ head.name) [] t.children).declarations ++
            (ofSiblings s scope (t :: before) after).declarations ∧
      (ofSiblings s scope before (t :: after)).imports =
        bodyImports s.language head.kind t ++
          (ofSiblings (s.body head.kind (bodyImports s.language head.kind t))
            (scope ++ head.name) [] t.children).imports ++
              (ofSiblings s scope (t :: before) after).imports := by
  obtain ⟨d, hd, hname, himports, hadded⟩ := ofHead_eq s head (scope ++ head.name) t
  obtain ⟨hdeclarations, hfound⟩ := ofSiblings_head s scope after hhead
  refine ⟨d, ⟨hname, himports⟩, ?_, ?_⟩
  · rw [hdeclarations, hd]
    rfl
  · rw [hfound, hadded]

/-! ## Package statements -/

/-- The names that the package statements among some tokens declare, where further tokens stand
behind them. -/
def packagesBefore (l : Language) : List TokenTree → List TokenTree → List String
  | [], _ => []
  | t :: ts, rest => (packageName? l t (ts ++ rest)).getD [] ++ packagesBefore l ts rest

theorem packagesBefore_concat (l : Language) (ts : List TokenTree) (t : TokenTree)
    (rest : List TokenTree) :
    packagesBefore l (ts ++ [t]) rest =
      packagesBefore l ts (t :: rest) ++ (packageName? l t rest).getD [] := by
  induction ts with
  | nil => simp [packagesBefore]
  | cons x ts ih => simp [packagesBefore, ih]

/-- A package statement does not reach over a block. -/
theorem packageName?_block (l : Language) (x : TokenTree) (ts rest : List TokenTree)
    (ht : t.kind = .block) : packageName? l x (ts ++ t :: rest) = packageName? l x ts := by
  have hname : (t.kind == .identifier) = false := by rw [ht]; rfl
  have hstop : t.value.isSeparator ";" = false :=
    Token.isSeparator_eq_false (by rw [show t.value.kind = _ from ht]; decide) ";"
  have hkept : (ts ++ t :: rest).filter (!·.kind.isTrivial) =
      ts.filter (!·.kind.isTrivial) ++ t :: rest.filter (!·.kind.isTrivial) := by
    simp [ht, TokenKind.isTrivial]
  rw [packageName?, packageName?, hkept]
  generalize ts.filter (!·.kind.isTrivial) = kept
  generalize rest.filter (!·.kind.isTrivial) = behind
  match kept with
  | [] => cases behind <;> simp [hname]
  | [name] => simp [hstop]
  | name :: stop :: more => rfl

theorem packagesBefore_block (l : Language) (ts rest : List TokenTree) (ht : t.kind = .block) :
    packagesBefore l ts (t :: rest) = Site.packageParts l ts := by
  induction ts with
  | nil => rfl
  | cons x ts ih => rw [packagesBefore, Site.packageParts, ih, packageName?_block l x ts rest ht]

/-! ## Places of declarations -/

/-- The scope in front of a run of siblings, where the blocks around it are in `around`. -/
def scopeBefore (l : Language) (around : List SitedBlock) (before after : List TokenTree) :
    List String :=
  if around.isEmpty then packagesBefore l before.reverse after else Site.scope l around

theorem scopeBefore_block (l : Language) (around : List SitedBlock)
    (before rest : List TokenTree) (ht : t.kind = .block) :
    scopeBefore l around before (t :: rest) ++ (⟨before, t⟩ : SitedBlock).nameParts l =
      Site.scope l (around ++ [⟨before, t⟩]) := by
  cases around with
  | nil => simp [scopeBefore, Site.scope, packagesBefore_block l _ rest ht]
  | cons b bs => simp [scopeBefore, Site.scope]

theorem scopeBefore_skip (l : Language) (around : List SitedBlock)
    (before rest : List TokenTree) (t : TokenTree) :
    scopeBefore l around (t :: before) rest = scopeBefore l around before (t :: rest) ++
      if around.isEmpty then (packageName? l t rest).getD [] else [] := by
  cases around with
  | nil => simp [scopeBefore, packagesBefore_concat]
  | cons b bs => simp [scopeBefore]

/-- Nothing is added by a block to the scope of what is behind it. -/
theorem scopeBefore_behind (l : Language) (around : List SitedBlock)
    (before rest : List TokenTree) (ht : t.kind = .block) :
    scopeBefore l around (t :: before) rest = scopeBefore l around before (t :: rest) := by
  have hname : packageName? l t rest = none := by
    rw [packageName?, show (t.kind == .keyword) = false by rw [ht]; rfl]
    rfl
  rw [scopeBefore_skip, hname]
  simp

theorem scopeBefore_inside (l : Language) (around : List SitedBlock) (b : SitedBlock)
    (ts : List TokenTree) : scopeBefore l (around ++ [b]) [] ts = Site.scope l (around ++ [b]) := by
  cases around <;> rfl

theorem bodyImports_eq {l : Language} {b : SitedBlock} {head : Head} (h : b.head? l = some head) :
    bodyImports l head.kind b.block = b.addedImports l := by
  rw [SitedBlock.addedImports, h, bodyImports]
  cases hkind : head.kind <;> simp [hkind, DeclarationKind.hasMembers]

/-! ## The declarations of a run of siblings -/

/-- The names, the imports and the body of what is found. -/
def summary (found : Discovered) : List String × List Import × TokenTree :=
  (found.declaration.fullName, found.declaration.imports, found.body)

/-- The name, the imports and the body that a place tells, where the imports `base` are visible
everywhere. -/
def sited (l : Language) (base : List Import) (p : Site) :
    List String × List Import × TokenTree :=
  (p.fullName l, base ++ p.imports l, p.own.block)

/-- The surroundings and the scope that the blocks around a run of siblings make. -/
structure Around (l : Language) (base : List Import) (around : List SitedBlock)
    (s : Surroundings) : Prop where
  language : s.language = l
  isTop : s.isTop = around.isEmpty
  imports : s.imports = base ++ around.flatMap (·.addedImports l)

variable {l : Language} {base : List Import} {around : List SitedBlock}

namespace Around

/-- Inside a block that is no body. -/
theorem inside (h : Around l base around s) {b : SitedBlock} (hb : b.head? l = none) :
    Around l base (around ++ [b]) s.inside where
  language := h.language
  isTop := by simp [Surroundings.inside]
  imports := by
    have hadded : b.addedImports l = [] := by rw [SitedBlock.addedImports, hb]
    simp [Surroundings.inside, h.imports, hadded]

/-- Inside the body of a declaration. -/
theorem body (h : Around l base around s) {b : SitedBlock} {head : Head}
    (hb : b.head? l = some head) :
    Around l base (around ++ [b]) (s.body head.kind (bodyImports l head.kind b.block)) where
  language := h.language
  isTop := by simp [Surroundings.body]
  imports := by simp [Surroundings.body, h.imports, bodyImports_eq hb]

end Around

/-- The declarations of a run of siblings are those whose bodies stand at its places, in their
order. -/
theorem declarations_sites {s : Surroundings} {scope : List String} {around : List SitedBlock}
    {before : List TokenTree} (ts : List TokenTree) (h : Around l base around s)
    (hscope : scope = scopeBefore l around before ts) :
    (ofSiblings s scope before ts).declarations.map summary =
      ((Site.ofSiblings around before ts).filter (·.isBody l)).map (sited l base) := by
  have hl := h.language
  match ts with
  | [] => rw [ofSiblings, Site.ofSiblings]; rfl
  | .node token children :: after =>
    let own : SitedBlock := ⟨before, .node token children⟩
    by_cases hkind : TokenTree.kind (.node token children) = .block
    · -- what is inside the block, then what is behind it
      have hbehind := declarations_sites after h
        (hscope.trans (scopeBefore_behind l around before after hkind).symm)
      rw [Site.ofSiblings_cons, if_pos hkind, List.filter_append, List.map_append, ← hbehind,
        List.filter_cons]
      cases hhead : (⟨before, .node token children⟩ : SitedBlock).head? l with
      | none =>
          have hinside : scope = scopeBefore l (around ++ [own]) [] children := by
            rw [scopeBefore_inside, ← scopeBefore_block l around before after hkind, ← hscope,
              SitedBlock.nameParts, hhead, Option.elim_none, List.append_nil]
          have hinside := declarations_sites children (h.inside hhead) hinside
          have hbody : ¬ Site.isBody l ⟨around, own⟩ = true := by
            rw [Site.isBody, hhead]
            decide
          rw [(ofSiblings_block scope after hkind (hl ▸ hhead)).1, List.map_append, if_neg hbody,
            Rose.children_node, hinside]
      | some head =>
          obtain ⟨d, ⟨hname, himports⟩, hfound, -⟩ :=
            ofSiblings_body s scope after (hl ▸ hhead)
          have hinside : scope ++ head.name = scopeBefore l (around ++ [own]) [] children := by
            rw [scopeBefore_inside, ← scopeBefore_block l around before after hkind, ← hscope,
              SitedBlock.nameParts, hhead, Option.elim_some]
          have hinside := declarations_sites children (h.body hhead) hinside
          have hown : summary ⟨d, own.block⟩ = sited l base ⟨around, own⟩ := by
            rw [summary, sited, hname, himports, h.imports, hl, bodyImports_eq hhead,
              Site.fullName, Site.blocks, ← scopeBefore_block l around before after hkind,
              ← hscope, SitedBlock.nameParts, hhead, Option.elim_some, Site.imports,
              Site.blocks, List.flatMap_append, List.flatMap_singleton, List.append_assoc]
          have hbody : Site.isBody l ⟨around, own⟩ = true := by rw [Site.isBody, hhead]; rfl
          rw [hfound, hl, List.map_append, List.map_cons, hown, if_pos hbody, List.map_cons]
          exact congrArg₂ _ (congrArg _ hinside) rfl
    · have hbehind := declarations_sites after h
        (scopeBefore_skip l around before after (.node token children)).symm
      rw [(ofSiblings_leaf s scope before after hkind).1, Site.ofSiblings_cons, if_neg hkind,
        List.nil_append, ← hbehind, addedParts, h.isTop, hl, hscope]
termination_by sizeOf ts

/-! ## The declarations of a document -/

open Rose (subtreesAll)

/-- The declarations of a document are those at its places. -/
theorem ofDocument_sites (l : Language) (document : TokenTree) :
    (ofDocument l document).declarations.map summary =
      ((Site.all document).filter (·.isBody l)).map
        (sited l (Import.ofTokens l document.children)) := by
  have haround : Around l (Import.ofTokens l document.children) []
      ⟨l, true, none, Import.ofTokens l document.children⟩ := ⟨rfl, rfl, by simp⟩
  exact declarations_sites document.children haround rfl

theorem bodies_eq (l : Language) (document : TokenTree) :
    (ofDocument l document).declarations.map (·.body) =
      ((Site.all document).filter (·.isBody l)).map (·.own.block) := by
  have h := congrArg (List.map (·.2.2)) (ofDocument_sites l document)
  rw [List.map_map, List.map_map] at h
  exact h

theorem isBlock_of_isBody {l : Language} {p : Site} (h : p.isBody l = true) :
    p.own.block.value.isBlock '\x7b' = true := by
  by_contra hbrace
  rw [Site.isBody, SitedBlock.head?, if_neg hbrace] at h
  exact absurd h (by decide)

/-- Names and imports follow the nesting.  Every declaration of a document stands at the place of
its body, which tells its full name and its imports, and every place of a body has one.  In a
document that was read from a text, the bodies start further and further behind, and so no block
is the body of two declarations and each declaration comes before those inside it. -/
theorem declarations_follow_nesting (l : Language) (document : TokenTree) :
    (ofDocument l document).declarations.map
        (fun x => (x.declaration.fullName, x.declaration.imports, x.body)) =
      ((Site.all document).filter (·.isBody l)).map (fun p =>
        (p.fullName l, Import.ofTokens l document.children ++ p.imports l, p.own.block)) ∧
    (∀ p ∈ Site.all document, p.blocks.Pairwise (fun a b => b.block ∈ subtreesAll a.block.children)) ∧
    (∀ x ∈ (ofDocument l document).declarations, x.body.value.isBlock '\x7b' = true) ∧
    ∀ d text, TokenTree.read d text = .ok document →
      (ofDocument l document).declarations.Pairwise (fun a b =>
        a.body.span.offset < b.body.span.offset ∧ a.body ∉ subtreesAll b.body.children) := by
  refine ⟨ofDocument_sites l document, fun p hp => Site.nested hp .nil (by simp), ?_, ?_⟩
  · intro x hx
    have hbody : x.body ∈ ((Site.all document).filter (·.isBody l)).map (·.own.block) :=
      bodies_eq l document ▸ List.mem_map_of_mem hx
    obtain ⟨p, hp, hblock⟩ := List.mem_map.1 hbody
    exact hblock ▸ isBlock_of_isBody (List.mem_filter.1 hp).2
  · intro d text hread
    obtain ⟨ts, rfl, hts⟩ := TokenTree.reads_of_read hread
    have hbodies : ((ofDocument l (.document (.ofString text) ts)).declarations.map
        (·.body)).Sublist (subtreesAll ts) := by
      rw [bodies_eq]
      exact ((List.filter_sublist).map _).trans (Site.blocks_sublist [] [] ts)
    have hoffsets := hts.offsets
    have hlater := List.pairwise_map.1 (hoffsets.sublist hbodies)
    refine hlater.imp_of_mem ?_
    intro a b _ hb hlt
    refine ⟨hlt, ?_⟩
    -- what is inside the later body starts behind it
    intro hinside
    have hb : b.body ∈ subtreesAll ts := hbodies.subset (List.mem_map_of_mem hb)
    have hbelow := hoffsets.sublist (Rose.subtrees_sublist_subtreesAll hb)
    cases hbody : b.body with
    | node token children =>
        rw [hbody] at hinside hlt hbelow
        rw [Rose.subtrees_node] at hbelow
        have hbehind := List.rel_of_pairwise_cons hbelow hinside
        omega

/-- A package, a declaration with one inside it, and one behind both. -/
theorem declarations_follow_nesting_shapes : ∃ document,
    TokenTree.read ⟨.java, 3⟩ "package p.q; class A { class B {} } class C {}" = .ok document ∧
      (ofDocument .java document).declarations.map (·.declaration.fullName) =
        [["p", "q", "A"], ["p", "q", "A", "B"], ["p", "q", "C"]] ∧
      (ofDocument .java document).declarations.Pairwise (fun a b =>
        a.body.span.offset < b.body.span.offset ∧ a.body ∉ subtreesAll b.body.children) := by
  have hfound : (TokenTree.read ⟨.java, 3⟩
      "package p.q; class A { class B {} } class C {}").toOption.any (fun document =>
        (ofDocument .java document).declarations.map (·.declaration.fullName) ==
          [["p", "q", "A"], ["p", "q", "A", "B"], ["p", "q", "C"]]) = true := by decide +kernel
  cases hread : TokenTree.read ⟨.java, 3⟩ "package p.q; class A { class B {} } class C {}" with
  | error e =>
      rw [hread] at hfound
      simp [Except.toOption] at hfound
  | ok document =>
      rw [hread] at hfound
      exact ⟨document, rfl, beq_iff_eq.1 hfound,
        (declarations_follow_nesting .java document).2.2.2 ⟨.java, 3⟩ _ hread⟩

end Discovery

end Outline
