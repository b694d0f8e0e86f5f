import Outline.Proofs.Declaration.HeadReading

/-!
# Reading forests of declarations

The search of a document finds the declarations of a forest and no others.

* `Forest.headings_ofSiblings` — what is found in a forest among other siblings.
* `Forest.headings_ofDocument` — what is found in a document that is a forest.
-/

namespace Outline

/-! ## Package statements -/

namespace Discovery

variable {l : Language} {t : TokenTree}

/-- A package statement does not reach over the end of a statement or over a block in braces. -/
theorem packageName?_barrier (x : TokenTree) (ts rest : List TokenTree)
    (ht : Head.isBarrier t.value = true) :
    packageName? l x (ts ++ t :: rest) = packageName? l x (ts ++ [t]) := by
  have hkind := Forest.kind_of_isBarrier ht
  have hname : (t.kind == .identifier) = false := by
    rcases hkind with hkind | hkind <;> rw [TokenTree.kind, hkind] <;> rfl
  have htrivial : t.kind.isTrivial = false := by
    rcases hkind with hkind | hkind <;> rw [TokenTree.kind, hkind] <;> rfl
  have hkept (us : List TokenTree) : (ts ++ t :: us).filter (!·.kind.isTrivial) =
      ts.filter (!·.kind.isTrivial) ++ t :: us.filter (!·.kind.isTrivial) := by
    simp [htrivial]
  rw [packageName?, packageName?, hkept, hkept]
  generalize ts.filter (!·.kind.isTrivial) = kept
  generalize rest.filter (!·.kind.isTrivial) = behind
  rcases kept with _ | ⟨name, _ | ⟨stop, more⟩⟩
  · cases behind <;> simp [hname]
  · simp
  · rfl

theorem packagesBefore_barrier (ts rest : List TokenTree) (ht : Head.isBarrier t.value = true) :
    packagesBefore l ts (t :: rest) = packagesBefore l ts [t] := by
  induction ts with
  | nil => rfl
  | cons x ts ih => rw [packagesBefore, packagesBefore, ih, packageName?_barrier x ts rest ht]

theorem packagesBefore_nil (ts : List TokenTree) :
    packagesBefore l ts [] = Site.packageParts l ts := by
  induction ts with
  | nil => rfl
  | cons x ts ih => rw [packagesBefore, Site.packageParts, ih, List.append_nil]

/-- Up to a barrier, package statements do not depend on what is behind it. -/
theorem packagesBefore_stop (front rest : List TokenTree) (ht : Head.isBarrier t.value = true) :
    packagesBefore l (front ++ [t]) rest = Site.packageParts l (front ++ [t]) := by
  have hname (rest : List TokenTree) : packageName? l t rest = none := by
    have hkeyword : (t.kind == .keyword) = false := by
      rcases Forest.kind_of_isBarrier ht with hkind | hkind <;>
        rw [TokenTree.kind, hkind] <;> rfl
    rw [packageName?, hkeyword]
    rfl
  rw [← packagesBefore_nil, packagesBefore_concat, packagesBefore_concat, hname, hname,
    packagesBefore_barrier front rest ht]

/-- Without a semicolon there is no package statement. -/
theorem packageParts_eq_nil {ts : List TokenTree}
    (h : ∀ t ∈ ts, t.value.isSeparator ";" = false) : Site.packageParts l ts = [] := by
  induction ts with
  | nil => rfl
  | cons x ts ih =>
      have hts := List.forall_mem_cons.1 h
      have hname : packageName? l x ts = none := by
        rw [packageName?]
        split
        · split
          · rename_i stop more hkept
            have hstop : stop ∈ ts.filter (!·.kind.isTrivial) := by rw [hkept]; simp
            rw [hts.2 stop (List.mem_of_mem_filter hstop), Bool.and_false, if_neg Bool.false_ne_true]
          · rfl
        · rfl
      rw [Site.packageParts, hname, ih hts.2]
      rfl

end Discovery

namespace Forest

open Discovery

variable {d : Dialect} {s : Surroundings} {before : List TokenTree}

/-! ## Items -/

/-- After a statement or a block the search for a keyword finds nothing. -/
theorem Stops.barred (hstop : Stops before) (l : Language) : Head.Barred l before := by
  cases before with
  | nil => exact Head.barred_nil
  | cons t before => exact Head.barred_of_isBarrier (hstop t rfl)

theorem stops_nil : Stops [] := fun _ ht => absurd ht (Option.not_mem_none _)

/-- Tokens that declare nothing are passed over. -/
theorem declarations_plain (hl : s.language = d.language) (scope : List String)
    (hstop : Stops before) {front : List TokenTree} {stop : TokenTree}
    (stops : Head.isBarrier stop.value = true)
    (keywordless : Site.Keywordless d.language (front ++ [stop])) (rest : List TokenTree) :
    (ofSiblings s scope before (front ++ [stop] ++ rest)).declarations =
      (ofSiblings s (scope ++ if s.isTop then Site.packageParts d.language (front ++ [stop]) else [])
        ((front ++ [stop]).reverse ++ before) rest).declarations := by
  rw [← hl] at keywordless ⊢
  have hbodiless := Site.bodiless_of_keywordless (hstop.barred s.language) keywordless
  rw [declarations_bodiless s scope hbodiless, packagesBefore_stop front rest stops]

/-- The tokens of a written head hold no body and no semicolon. -/
theorem WrittenHead.mem_tokens (h : WrittenHead d) (hexact : h.Exact) {t : TokenTree}
    (ht : t ∈ h.tokens) : Head.isBarrier t.value = false ∧
      (t.kind = .block → Site.Bodiless d.language [] t.children) := by
  rw [WrittenHead.tokens, List.mem_append, List.mem_cons, List.mem_cons] at ht
  rcases ht with ht | rfl | rfl | ht
  · obtain ⟨x, hx, hxt⟩ := List.mem_flatMap.1 ht
    exact ⟨x.isBarrier_eq_false hxt, hexact.undeclaring t ht⟩
  · have hkind := kind_of_introduces h.introduces
    refine ⟨isBarrier_of_kind ?_ ?_, fun hblock => ?_⟩
    · rw [hkind]; decide
    · rw [hkind]; decide
    · cases hkind.symm.trans hblock
  · refine ⟨isBarrier_of_kind ?_ ?_, fun hblock => ?_⟩
    · rw [h.isName]; decide
    · rw [h.isName]; decide
    · cases h.isName.symm.trans hblock
  · have hpassed := h.bases.passed ht
    exact ⟨hpassed.1.1, fun hblock => absurd hblock hpassed.2.2.1⟩

/-- A written head is passed over up to its body. -/
theorem declarations_head (hl : s.language = d.language) (scope : List String)
    (h : WrittenHead d) (hexact : h.Exact) {body : TokenTree} (hbody : body.kind = .block)
    (rest : List TokenTree) :
    (ofSiblings s scope before (h.tokens ++ body :: rest)).declarations =
      (ofSiblings s scope (h.tokens.reverse ++ before) (body :: rest)).declarations := by
  have hbodiless : Site.Bodiless s.language before h.tokens := by
    refine Site.bodiless_of_forall fun t ht => ?_
    obtain ⟨hbarrier, hinside⟩ := h.mem_tokens hexact ht
    exact ⟨(Bool.or_eq_false_iff.1 hbarrier).2, hl ▸ hinside⟩
  have hpackages : Site.packageParts s.language h.tokens = [] := by
    refine packageParts_eq_nil fun t ht => ?_
    exact (Bool.or_eq_false_iff.1 (h.mem_tokens hexact ht).1).1
  rw [declarations_bodiless s scope hbodiless, packagesBefore_block s.language _ _ hbody, hpackages]
  simp

/-- What is told of a written head is what is told of the head that is read. -/
theorem heading_eq (h : WrittenHead d) (scope : List String) (body : TokenTree) :
    (ofHead s h.head (scope ++ h.head.name) body).declarations.map (·.heading) =
      [h.heading scope body] := by
  rw [heading_ofHead, WrittenHead.heading, WrittenHead.leadTokens, annotations_run]
  rfl

/-! ## Forests -/

/-- What is found in a forest behind the end of a statement or of a block. -/
theorem headings_ofSiblings {s : Surroundings} (hl : s.language = d.language)
    (scope : List String) {before : List TokenTree} (hstop : Stops before) (items : List (Item d))
    (hexact : ExactAll items) :
    (ofSiblings s scope before (treesAll items)).declarations.map (·.heading) =
      headingsAll s.isTop scope items := by
  match items with
  | [] =>
    rw [treesAll, ofSiblings]
    rfl
  | .plain front stop stops keywordless :: rest =>
    have hnext : Stops ((front ++ [stop]).reverse ++ before) := by
      rw [List.reverse_append]
      exact fun t ht => Option.some.inj ht ▸ stops
    have hrest := headings_ofSiblings hl
      (scope ++ if s.isTop then Site.packageParts d.language (front ++ [stop]) else []) hnext rest
      hexact.2
    rw [treesAll, Item.trees, declarations_plain hl scope hstop stops keywordless, hrest]
    rfl
  | .declaration head brace items isBrace :: rest =>
    obtain ⟨⟨hhead, hitems⟩, hrest⟩ := hexact
    let body : TokenTree := .node brace (treesAll items)
    have hkind : body.kind = .block := Token.kind_of_isBlock isBrace
    have hbarrier : Head.isBarrier body.value = true := Bool.or_eq_true_iff.2 (.inr isBrace)
    have hfound : (⟨head.tokens.reverse ++ before, body⟩ : SitedBlock).head? s.language =
        some head.head := by
      have hsearch := head.search hhead hstop
      rw [← hl] at hsearch
      exact (if_pos isBrace).trans hsearch
    have hinside := headings_ofSiblings
      (s := s.body head.kind (bodyImports s.language head.kind body)) hl (scope ++ head.nameParts)
      stops_nil items hitems
    have hnext : Stops (body :: (head.tokens.reverse ++ before)) :=
      fun t ht => Option.some.inj ht ▸ hbarrier
    have hbehind := headings_ofSiblings hl scope hnext rest hrest
    have hscope : Site.packageParts d.language (head.tokens ++ [body]) = [] := by
      refine packageParts_eq_nil (List.forall_mem_append.2 ⟨fun t ht => ?_, ?_⟩)
      · exact (Bool.or_eq_false_iff.1 (head.mem_tokens hhead ht).1).1
      · refine List.forall_mem_singleton.2 (Token.isSeparator_eq_false ?_ ";")
        show body.kind ≠ _
        rw [hkind]
        decide
    have hsame : (scope ++ if s.isTop then [] else []) = scope := by simp
    rw [treesAll, Item.trees, List.append_assoc, List.singleton_append,
      declarations_head hl scope head hhead hkind, (ofSiblings_head s scope _ hfound).1,
      List.map_append, List.map_append, heading_eq, headingsAll, Item.headings, Item.trees, hscope,
      hsame, hbehind]
    exact congrArg (fun found => _ :: (found ++ _)) hinside
termination_by sizeOf items

/-! ## Documents -/

/-- Annotations without keywords hold no declaration. -/
theorem WrittenHead.undeclaring_of_keywordless (h : WrittenHead d)
    (hwords : Site.Keywordless d.language h.leadTokens) :
    ∀ t ∈ h.leadTokens, t.kind = .block → Site.Bodiless d.language [] t.children := by
  intro t ht _
  refine Site.bodiless_of_keywordless Head.barred_nil fun u hu => hwords u ?_
  have hbelow := (Rose.subtrees_sublist_subtreesAll (Rose.mem_subtreesAll_of_mem ht)).subset
  cases t with
  | node token children =>
      rw [Rose.subtrees_node] at hbelow
      exact hbelow (List.mem_cons_of_mem _ hu)

/-- The search of a document finds the declarations of a forest and no others, each before those
inside it, with what their heads tell.  The annotations of a head, which are read backwards, are
those that are read forwards. -/
theorem headings_ofDocument (items : List (Item d)) (top : Token) (hexact : ExactAll items) :
    (ofDocument d.language (.node top (treesAll items))).declarations.map (·.heading) =
      headingsAll true [] items := by
  have hfound := headings_ofSiblings
    (s := ⟨d.language, true, none, Import.ofTokens d.language (treesAll items)⟩) rfl [] stops_nil
    items hexact
  rw [ofDocument, declarations_append, List.nil_append]
  exact hfound

/-- A declaration with nothing but a keyword and a name. -/
def WrittenHead.named (l : Language) (word name : String) (kind : DeclarationKind)
    (hword : Head.kind? l ⟨.keyword, {}, word⟩ = some kind)
    (hname : (Dialect.mk l 3).identifiers.scanName name.toList = some name.toList.length)
    (hmark : '#' ∉ name.toList) : WrittenHead ⟨l, 3⟩ where
  word := .bare .keyword word
  kind := kind
  name := .bare .identifier name
  introduces := hword
  isName := rfl
  plain := fun _ => hname
  unmarked := fun _ => hmark

/-- A single base type. -/
def BaseClause.named (l : Language) (mark : TokenTree) (name : String)
    (hname : (Dialect.mk l 3).identifiers.scan name.toList = some name.toList.length)
    (hmark : '#' ∉ name.toList) : BaseClause ⟨l, 3⟩ where
  mark := mark
  first := ⟨.bare .identifier name, rfl, hname, hmark⟩
  commas := by simp

/-- An annotation with arguments in Java. -/
def HeadLead.annotated (l : Language) (hl : l.annotationStyle = .atSign) (name : String)
    (arguments : List TokenTree) : HeadLead l :=
  .lead (.mark (.sign (.bare .separator "@") (.bare .identifier name)
    (some (.node ⟨.block, {}, "()"⟩ arguments)) hl rfl rfl (by simp; rfl)))

/-- An annotated class of a package that extends another one and has an interface inside it. -/
def nestedForest : List (Item ⟨.java, 3⟩) :=
  [.plain [TokenTree.bare .keyword "package", TokenTree.bare .identifier "p"]
      (.bare .separator ";") rfl (by decide),
    .declaration
      { WrittenHead.named .java "class" "C" .classLike rfl (by decide +kernel) (by decide) with
        leads := [.annotated .java rfl "A" [TokenTree.bare .identifier "x"],
          .modifier (.bare .keyword "public") rfl]
        bases := .classes (some (.named .java (.bare .keyword "extends") "D"
          (by decide +kernel) (by decide))) none (by decide) rfl (by simp; exact ⟨rfl, rfl⟩) (by simp) }
      ⟨.block, {}, "\x7b\x7d"⟩
      [.declaration (.named .java "interface" "F" .interfaceLike rfl (by decide +kernel)
        (by decide)) ⟨.block, {}, "\x7b\x7d"⟩ [] rfl] rfl]

/-- The package is part of both full names, and the interface is found inside the class. -/
theorem headings_ofDocument_nested : ExactAll nestedForest ∧
    (ofDocument .java (.node default (treesAll nestedForest))).declarations.map (·.heading) =
      headingsAll true [] nestedForest ∧
    (headingsAll true [] nestedForest).map (·.fullName) = [["p", "C"], ["p", "C", "F"]] := by
  have hexact : ExactAll nestedForest := by
    refine ⟨trivial, ⟨⟨?_, ?_⟩, ⟨⟨?_, ?_⟩, trivial⟩, trivial⟩, trivial⟩
    · exact WrittenHead.undeclaring_of_keywordless _ (by decide)
    · decide
    · exact WrittenHead.undeclaring_of_keywordless _ (by decide)
    · decide
  exact ⟨hexact, headings_ofDocument nestedForest default hexact, by rfl⟩

/-- A class behind an annotation whose argument is another class. -/
def declaringForest : List (Item ⟨.typescript, 3⟩) :=
  [.declaration
    { WrittenHead.named .typescript "class" "C" .classLike rfl (by decide +kernel) (by decide) with
      leads := [.annotated .typescript rfl "A" [TokenTree.bare .keyword "class",
        TokenTree.bare .identifier "B", .node ⟨.block, {}, "\x7b\x7d"⟩ []]] }
    ⟨.block, {}, "\x7b\x7d"⟩ [] rfl]

/-- A class whose base type has the name of the word that ends a list of base types. -/
def endingForest : List (Item ⟨.csharp, 3⟩) :=
  [.declaration
    { WrittenHead.named .csharp "class" "C" .classLike rfl (by decide +kernel) (by decide) with
      bases := .colon (.named .csharp (.bare .operator ":") "where" (by decide +kernel)
        (by decide)) rfl (.inl rfl) rfl }
    ⟨.block, {}, "\x7b\x7d"⟩ [] rfl]

/-- The argument of an annotation is searched as well, and a base type may end the list. -/
theorem not_headings_ofDocument :
    (ofDocument .typescript (.node default (treesAll declaringForest))).declarations.map
        (·.heading) ≠ headingsAll true [] declaringForest ∧
      (ofDocument .csharp (.node default (treesAll endingForest))).declarations.map
        (·.heading) ≠ headingsAll true [] endingForest := by
  constructor
  · intro h
    have hlength : (ofDocument .typescript
        (.node default (treesAll declaringForest))).declarations.length = 2 := by decide +kernel
    have hsame := congrArg List.length h
    rw [List.length_map, hlength] at hsame
    cases hsame
  · intro h
    have hfound : (ofDocument .csharp (.node default (treesAll endingForest))).declarations.map
        (·.heading.extended?) = [none] := by decide +kernel
    have hsame := congrArg (List.map (·.extended?)) h
    rw [List.map_map] at hsame
    have hwritten : (headingsAll true [] endingForest).map (·.extended?) =
        [some (.simple "where")] := by decide +kernel
    rw [hwritten] at hsame
    cases hsame.symm.trans hfound

end Forest

end Outline
