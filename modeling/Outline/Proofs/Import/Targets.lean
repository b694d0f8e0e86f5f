import Outline.Proofs.Declaration.Malformed
import Outline.Proofs.Declaration.Nesting
import Outline.Proofs.Import.Reading
import Outline.Proofs.TypeRef.BracketTree
import Outline.Proofs.TypeRef.Brackets

/-!
# The parts of imported names

The path and the listed names of an import are the parts of the text of its target between the
dots.  A target may carry a list of type arguments, and the dots in the list count like those of
the name.

* `ImportDraft.splitTarget_plain_iff` — when no part of a path is cut out of a list of arguments.
* `Discovery.imports_plain_iff_of_read` — the imports of a text.
-/

namespace Outline

open TypeRef (Balanced)

namespace Text

variable {sep c : Char} {cs : List Char}

/-! ## Characters of pieces -/

/-- The pieces of a text hold its characters, apart from the separators. -/
theorem flatten_pieces (sep : Char) (cs : List Char) :
    (pieces sep cs).flatten = cs.filter (· != sep) := by
  induction cs with
  | nil => rfl
  | cons c cs ih =>
      by_cases hc : c = sep
      · rw [pieces, beq_iff_eq.2 hc, if_pos rfl, List.filter_cons_of_neg (by simp [hc]), ← ih]
        rfl
      · obtain ⟨p, ps, hps, hpieces⟩ := exists_pieces_cons hc cs
        rw [hpieces, List.filter_cons_of_pos (by simp [hc]), ← ih, hps]
        rfl

variable {s part : String}

theorem exists_mem_dottedParts_iff :
    (∃ part ∈ dottedParts s, c ∈ part.toList) ↔ c ∈ s.toList ∧ c ≠ '.' := by
  have hmem : c ∈ (pieces '.' s.toList).flatten ↔ c ∈ s.toList ∧ c ≠ '.' := by
    rw [flatten_pieces, List.mem_filter, bne_iff_ne]
  rw [← hmem, List.mem_flatten, dottedParts, splitAt]
  simp

theorem not_mem_of_mem_dottedParts (h : part ∈ dottedParts s) : '.' ∉ part.toList :=
  not_mem_of_mem_splitAt h

theorem dotted_dottedParts (s : String) : dotted (dottedParts s) = s := intercalate_splitAt rfl s

end Text

/-! ## Paths and names -/

/-- The path and the listed names of a plain target: the parts of the path are plain, and the
brackets of the names are balanced. -/
structure IsPlainSplit (path names : List String) : Prop where
  /-- No part of the path holds a character that stands around names. -/
  path : ∀ part ∈ path, ∀ c ∈ part.toList,
    c ∉ ['.', '<', '>', ','] ∧ Text.isWhiteSpace c = false
  /-- No bracket of a name is without its partner. -/
  names : ∀ name ∈ names, Balanced name.toList

/-- The targets that are split at the dots of their names: those without a list of arguments, and
those that stand for a member and have dots in front of their lists only. -/
def IsSplitAtName (namesMember : Bool) (cs : List Char) : Prop :=
  '<' ∉ cs ∨ namesMember = true ∧ '.' ∈ cs ∧ '.' ∉ cs.dropWhile (· != '<')

instance (namesMember : Bool) (cs : List Char) : Decidable (IsSplitAtName namesMember cs) :=
  inferInstanceAs (Decidable ('<' ∉ cs ∨
    namesMember = true ∧ '.' ∈ cs ∧ '.' ∉ cs.dropWhile (· != '<')))

/-- The text of a target: its brackets are balanced, and what is in front of the first one is a
dotted name. -/
structure IsTargetText (cs : List Char) : Prop where
  /-- The brackets are balanced. -/
  balanced : Balanced cs
  /-- In front of the first bracket are names and dots. -/
  plain : ∀ c ∈ cs.takeWhile (· != '<'), c ∉ ['>', ','] ∧ Text.isWhiteSpace c = false

/-- A text without brackets in front changes no balance. -/
theorem balanced_of_append {front cs : List Char} (hfront : TypeRef.Unbracketed front)
    (h : Balanced (front ++ cs)) : Balanced cs := by
  have hopen := List.count_eq_zero.2 hfront.not_mem_open
  have hclose := List.count_eq_zero.2 hfront.not_mem_close
  refine ⟨fun before hbefore => ?_, ?_⟩
  · have := h.1 (front ++ before) ((List.prefix_append_right_inj front).2 hbefore)
    simpa [hopen, hclose] using this
  · simpa [hopen, hclose] using h.2

namespace ImportDraft

/-- How a target is split. -/
inductive SplitOutcome (namesMember : Bool) (target : String) :
    List String × List String → Prop where
  /-- All parts are the path. -/
  | whole (rest : ¬ (namesMember = true ∧ '.' ∈ target.toList)) :
      SplitOutcome namesMember target (Text.dottedParts target, [])
  /-- The last part is listed. -/
  | member {path : List String} {last : String} (named : namesMember = true) (nonempty : path ≠ [])
      (parts : Text.dottedParts target = path ++ [last]) :
      SplitOutcome namesMember target (path, [last])

theorem splitOutcome (namesMember : Bool) (target : String) :
    SplitOutcome namesMember target (splitTarget namesMember target) := by
  rw [splitTarget]
  obtain ⟨path, last, hparts⟩ := (List.eq_nil_or_concat' (Text.dottedParts target)).resolve_left
    (Text.dottedParts_ne_nil target)
  by_cases hsplit : (namesMember && decide (1 < (Text.dottedParts target).length)) = true
  · rw [if_pos hsplit]
    rw [Bool.and_eq_true, decide_eq_true_eq] at hsplit
    have hpath : path ≠ [] := by
      rintro rfl
      rw [hparts] at hsplit
      exact absurd hsplit.2 (by simp)
    have hmember : SplitOutcome namesMember target (path, [last]) :=
      .member hsplit.1 hpath hparts
    simpa [hparts] using hmember
  · rw [if_neg hsplit]
    refine .whole fun ⟨hnamed, hdot⟩ => hsplit ?_
    -- a text of a single part has no dot
    rw [hnamed, Bool.true_and, decide_eq_true_eq, hparts, List.length_append,
      List.length_singleton, Nat.lt_add_left_iff_pos, List.length_pos_iff]
    rintro rfl
    have htarget := Text.dotted_dottedParts target
    rw [hparts] at htarget
    have hlast : last = target := by simpa [Text.dotted] using htarget
    exact Text.not_mem_of_mem_dottedParts (by rw [hparts, hlast]; simp) hdot

namespace SplitOutcome

variable {namesMember : Bool} {target : String} {path names : List String} {last : String}

/-- The path and the listed names, with dots between them, are the target. -/
theorem dotted (h : SplitOutcome namesMember target (path, names)) :
    Text.dotted (path ++ names) = target := by
  have hparts : path ++ names = Text.dottedParts target := by
    cases h with
    | whole rest => exact List.append_nil _
    | member named nonempty parts => exact parts.symm
  rw [hparts, Text.dotted_dottedParts]

/-- The last part stands behind a dot, and has none. -/
theorem toList (h : SplitOutcome namesMember target (path, [last])) :
    target.toList = (Text.dotted path).toList ++ '.' :: last.toList ∧ '.' ∉ last.toList := by
  have hdotted := h.dotted
  cases h with
  | member named nonempty parts =>
      rw [Text.dotted, String.intercalate_append_of_ne_nil nonempty (by simp)] at hdotted
      refine ⟨by simp [← hdotted, Text.dotted], ?_⟩
      exact Text.not_mem_of_mem_dottedParts (s := target) (by rw [parts]; simp)

/-- The parts of the path are those of the text in front of the last dot. -/
theorem dottedParts_path (h : SplitOutcome namesMember target (path, [last])) :
    Text.dottedParts (Text.dotted path) = path := by
  cases h with
  | member named nonempty parts =>
      refine Text.splitAt_intercalate rfl nonempty fun part hpart => ?_
      exact Text.not_mem_of_mem_dottedParts (s := target)
        (parts ▸ List.mem_append_left _ hpart)

end SplitOutcome

end ImportDraft

namespace IsTargetText

variable {namesMember : Bool} {target : String} {path : List String} {last : String}

/-- The parts of a text in front of the first bracket are plain. -/
theorem plain_parts (ht : IsTargetText target.toList) {s : String}
    (hs : ∀ c ∈ s.toList, c ∈ target.toList.takeWhile (· != '<')) :
    ∀ part ∈ Text.dottedParts s, ∀ c ∈ part.toList,
      c ∉ ['.', '<', '>', ','] ∧ Text.isWhiteSpace c = false := by
  intro part hpart c hc
  obtain ⟨hmem, hdot⟩ := Text.exists_mem_dottedParts_iff.1 ⟨part, hpart, hc⟩
  have hopen : c ≠ '<' := by simpa using List.mem_takeWhile_imp (hs c hmem)
  obtain ⟨hplain, hsolid⟩ := ht.plain c (hs c hmem)
  refine ⟨fun hin => ?_, hsolid⟩
  rw [List.mem_cons, List.mem_cons] at hin
  exact (hin.resolve_left hdot).elim hopen hplain

/-- A target whose last part is not split off is plain if it has no list of arguments. -/
theorem isPlainSplit_whole_iff (ht : IsTargetText target.toList) :
    IsPlainSplit (Text.dottedParts target) [] ↔ '<' ∉ target.toList := by
  constructor
  · intro h hopen
    obtain ⟨part, hpart, hmem⟩ := Text.exists_mem_dottedParts_iff.2 ⟨hopen, by decide⟩
    exact absurd (h.path part hpart '<' hmem).1 (by decide)
  · intro hopen
    refine ⟨ht.plain_parts fun c hc => ?_, by simp⟩
    rwa [List.takeWhile_eq_self_iff.2 (TypeRef.all_bne hopen)]

/-- One whose last part is split off is plain if the list of arguments belongs to that part. -/
theorem isPlainSplit_member_iff (ht : IsTargetText target.toList)
    (h : ImportDraft.SplitOutcome namesMember target (path, [last])) :
    IsPlainSplit path [last] ↔ '<' ∉ (Text.dotted path).toList := by
  obtain ⟨htarget, -⟩ := h.toList
  constructor
  · intro hplain hopen
    obtain ⟨part, hpart, hmem⟩ := Text.exists_mem_dottedParts_iff.2 ⟨hopen, by decide⟩
    rw [h.dottedParts_path] at hpart
    exact absurd (hplain.path part hpart '<' hmem).1 (by decide)
  · intro hopen
    have hfront : ∀ c ∈ (Text.dotted path).toList ++ ['.'],
        c ∈ target.toList.takeWhile (· != '<') := by
      intro c hc
      rw [htarget, List.takeWhile_append_of_pos (TypeRef.all_bne hopen),
        List.takeWhile_cons_of_pos (by decide)]
      rw [List.mem_append, List.mem_singleton] at hc
      rcases hc with hc | rfl <;> simp [*]
    refine ⟨?_, List.forall_mem_singleton.2 ?_⟩
    · rw [← h.dottedParts_path]
      exact ht.plain_parts fun c hc => hfront c (List.mem_append_left _ hc)
    · have hunbracketed : TypeRef.Unbracketed ((Text.dotted path).toList ++ ['.']) := by
        intro c hc
        refine ⟨by simpa using List.mem_takeWhile_imp (hfront c hc), ?_⟩
        rintro rfl
        exact (ht.plain _ (hfront _ hc)).1 (by simp)
      refine balanced_of_append hunbracketed ?_
      rw [List.append_assoc, List.singleton_append, ← htarget]
      exact ht.balanced

end IsTargetText

namespace ImportDraft

/-- Whether the list of arguments belongs to the last part shows behind the first bracket. -/
theorem SplitOutcome.isSplitAtName_iff {namesMember : Bool} {target : String} {path : List String}
    {last : String} (h : SplitOutcome namesMember target (path, [last])) :
    IsSplitAtName namesMember target.toList ↔ '<' ∉ (Text.dotted path).toList := by
  obtain ⟨htarget, hlast⟩ := h.toList
  rw [IsSplitAtName, htarget]
  constructor
  · rintro (hopen | ⟨-, -, hdot⟩) hmem
    · exact hopen (List.mem_append_left _ hmem)
    · refine hdot ?_
      obtain ⟨front, rest, hpath, hfront⟩ := List.eq_append_cons_of_mem hmem
      rw [hpath, List.append_assoc, List.cons_append, TypeRef.dropWhile_bne hfront]
      simp
  · intro hopen
    cases h with
    | member named nonempty parts =>
        refine .inr ⟨named, by simp, fun hdot => ?_⟩
        rw [List.dropWhile_append_of_pos (TypeRef.all_bne hopen),
          List.dropWhile_cons_of_pos (by decide)] at hdot
        exact hlast ((List.dropWhile_sublist _).subset hdot)

/-- A split is plain if and only if the target is split at the dots of its name. -/
theorem splitTarget_plain_iff (namesMember : Bool) {target : String}
    (ht : IsTargetText target.toList) :
    IsPlainSplit (splitTarget namesMember target).1 (splitTarget namesMember target).2 ↔
      IsSplitAtName namesMember target.toList := by
  have houtcome := splitOutcome namesMember target
  generalize splitTarget namesMember target = split at houtcome ⊢
  cases houtcome with
  | whole rest =>
      rw [ht.isPlainSplit_whole_iff, IsSplitAtName, or_iff_left]
      exact fun ⟨hnamed, hdot, _⟩ => rest ⟨hnamed, hdot⟩
  | member named nonempty parts =>
      have h : SplitOutcome namesMember target _ := .member named nonempty parts
      rw [ht.isPlainSplit_member_iff h, h.isSplitAtName_iff]

end ImportDraft

/-! ## The texts of identifiers -/

namespace IdentifierStyle

variable {style : IdentifierStyle} {cs : List Char}

/-- The characters of a dotted name mean nothing to the reader of types, and none is white space. -/
theorem Tame.mem_isDotted (hs : style.Tame) (h : style.IsDotted cs) :
    ∀ c ∈ cs, c ∉ reserved ∧ Text.isWhiteSpace c = false := by
  have hsolid {c : Char} (hc : Text.isBlank c = false) : Text.isWhiteSpace c = false := by
    rw [Text.isBlank, Bool.or_eq_false_iff] at hc
    exact hc.1
  refine IdentifierStyle.mem_isDotted (fun c hc => ⟨fun hmem => ?_, ?_⟩)
    (fun c hc => ⟨fun hmem => ?_, ?_⟩) (by decide) h
  · rw [(hs.tame c hmem).1] at hc
    cases hc
  · exact hsolid (hs.isBlank_of_starts hc)
  · rw [(hs.tame c hmem).2] at hc
    cases hc
  · exact hsolid (hs.isBlank_of_continues hc)

/-- A text that spells a type has balanced brackets, and in front of them a dotted name. -/
theorem isTargetText_of_spells (hs : style.Tame) {depth : Nat} {t : TypeRef}
    (h : style.Spells depth false cs t) (hmark : style.Unmarked cs) : IsTargetText cs := by
  refine ⟨?_, ?_⟩
  · obtain ⟨ps, rfl, hps⟩ := exists_told hs h hmark
    exact TypeRef.Piece.balanced_texts fun c hc => (hps.unreserved c hc).2
  · have hname {name : List Char} (hdotted : style.IsDotted name) :
        ∀ c ∈ name, c ∉ ['>', ','] ∧ Text.isWhiteSpace c = false := by
      intro c hc
      obtain ⟨hreserved, hsolid⟩ := hs.mem_isDotted hdotted c hc
      refine ⟨fun hmem => hreserved ?_, hsolid⟩
      exact List.cons_subset_cons _ (by simp) (List.mem_cons_of_mem _ hmem)
    intro c hc
    cases h with
    | @plain name nullable dimensions dotted inside =>
        rcases List.mem_append.1 ((List.takeWhile_sublist _).subset hc) with hc | hc
        · exact hname dotted c hc
        · rcases List.mem_append.1 hc with hc | hc
          · cases nullable with
            | false => cases hc
            | true => cases inside rfl
          · obtain ⟨mark, hmark, hc⟩ := List.mem_flatten.1 hc
            rw [List.eq_of_mem_replicate hmark] at hc
            obtain rfl | rfl : c = '[' ∨ c = ']' := by simpa using hc
            · exact ⟨by decide, by decide⟩
            · exact ⟨by decide, by decide⟩
    | @generic name nullable list params dimensions dotted inside listed =>
        have hopen : '<' ∉ name.toList := fun hopen =>
          (hs.mem_isDotted dotted _ hopen).1 (by decide)
        rw [TypeRef.takeWhile_bne hopen] at hc
        exact hname dotted c hc

end IdentifierStyle

/-! ## The imports of a text -/

namespace Discovery

open Rose (subtreesAll)

/-- Each import that is found is read from the tokens inside one of the trees. -/
theorem exists_mem_ofTokens (s : Surroundings) (scope : List String) (before ts : List TokenTree)
    {i : Import} (hi : i ∈ (ofSiblings s scope before ts).imports) :
    ∃ u ∈ subtreesAll ts, i ∈ Import.ofTokens s.language u.children := by
  match ts with
  | [] =>
    rw [ofSiblings] at hi
    exact absurd hi List.not_mem_nil
  | .node token children :: after =>
    -- behind the first tree
    have hafter {scope : List String} {before : List TokenTree}
        (hi : i ∈ (ofSiblings s scope before after).imports) :
        ∃ u ∈ subtreesAll (.node token children :: after),
          i ∈ Import.ofTokens s.language u.children := by
      obtain ⟨u, hu, hi⟩ := exists_mem_ofTokens s scope before after hi
      exact ⟨u, by simp [hu], hi⟩
    -- inside it
    have hinside {r : Surroundings} {scope : List String} (hr : r.language = s.language)
        (hi : i ∈ (ofSiblings r scope [] children).imports) :
        ∃ u ∈ subtreesAll (.node token children :: after),
          i ∈ Import.ofTokens s.language u.children := by
      obtain ⟨u, hu, hi⟩ := exists_mem_ofTokens r scope [] children hi
      exact ⟨u, by simp [hu], hr ▸ hi⟩
    by_cases hkind : TokenTree.kind (.node token children) = .block
    · cases hhead : (⟨before, .node token children⟩ : SitedBlock).head? s.language with
      | none =>
          rw [(ofSiblings_block scope after hkind hhead).2, List.mem_append] at hi
          exact hi.elim (hinside rfl) hafter
      | some head =>
          obtain ⟨-, -, -, himports⟩ := ofSiblings_body s scope after hhead
          rw [himports, List.mem_append, List.mem_append] at hi
          rcases hi with (hi | hi) | hi
          · rw [bodyImports] at hi
            split at hi
            · cases hi
            · exact ⟨_, by simp, hi⟩
          · exact hinside (r := s.body _ _) rfl hi
          · exact hafter hi
    · rw [(ofSiblings_leaf s scope before after hkind).2] at hi
      exact hafter hi
termination_by sizeOf ts

/-- Each import of a document is read from the tokens inside one of its trees. -/
theorem exists_mem_ofTokens_of_document {l : Language} {document : TokenTree} {i : Import}
    (hi : i ∈ (ofDocument l document).imports) :
    ∃ u ∈ document.subtrees, i ∈ Import.ofTokens l u.children := by
  obtain ⟨token, children⟩ := document
  rw [Rose.subtrees_node]
  rcases List.mem_append.1 hi with hi | hi
  · exact ⟨_, List.mem_cons_self, hi⟩
  · obtain ⟨u, hu, hi⟩ := exists_mem_ofTokens _ _ _ _ hi
    exact ⟨u, List.mem_cons_of_mem _ hu, hi⟩

variable {d : Dialect} {text : String} {document : TokenTree}

/-- Each import that is found in a text, where the type comes first, is that of a statement in one
of its trees.  Its path and its names are, with dots between them, the text of the target.  The
parts of its path are plain and the brackets of its names are balanced if and only if the target is
split at the dots of its name. -/
theorem imports_plain_iff_of_read (hd : d.language.memberOrder = .typeFirst)
    (h : TokenTree.read d text = .ok document) :
    ∀ i ∈ (ofDocument d.language document).imports, ∃ u ∈ document.subtrees,
      ∃ s : NamespaceImport d.language, s.tokens <:+: TokenTree.code u.children ∧
        i.alias? = s.alias?.map (·.1.text) ∧ i.isStatic = s.static?.isSome ∧ i.module? = none ∧
        Text.dotted (i.path ++ i.names) = s.target.text ∧
        (IsPlainSplit i.path i.names ↔ IsSplitAtName s.namesMember s.target.text.toList) := by
  intro i hi
  obtain ⟨u, hu, hi⟩ := exists_mem_ofTokens_of_document hi
  have hl : d.language ≠ .typescript := by
    intro hl
    rw [hl] at hd
    cases hd
  obtain ⟨s, hs, hi⟩ := ImportMachine.exists_statement_of_mem hl hi
  refine ⟨u, hu, s, hs, ?_⟩
  have htarget : IsTargetText s.target.text.toList := by
    have hmem : s.target ∈ u.children := by
      have htokens : s.target ∈ s.tokens := by simp [NamespaceImport.tokens]
      exact (List.mem_filter.1 (hs.subset htokens)).1
    have hbelow := Rose.mem_subtrees_of_mem_children hu hmem
    obtain ⟨ts, rfl, hts⟩ := TokenTree.reads_of_read h
    rw [TokenTree.document, Rose.subtrees_node, List.mem_cons] at hbelow
    have hbelow := hbelow.resolve_left fun heq => by
      have hkind := s.isTarget
      rw [heq] at hkind
      cases hkind
    obtain ⟨t, ht⟩ := TokenTree.exists_spells_of_reads hts _ hbelow s.isTarget
    exact IdentifierStyle.isTargetText_of_spells d.tame_identifiers ht
      (Dialect.unmarked_identifiers hd _)
  rw [s.import?_draft] at hi
  cases hi
  have hsplit := ImportDraft.splitOutcome s.namesMember s.target.text
  exact ⟨rfl, rfl, rfl, hsplit.dotted, ImportDraft.splitTarget_plain_iff _ htarget⟩

/-- An alias of a type with arguments. -/
theorem imports_plain_iff_of_read_alias : ∃ document,
    TokenTree.read ⟨.csharp, 3⟩ "using M = A.B<C, D>;" = .ok document ∧
    (ofDocument .csharp document).imports =
      [{ path := ["A"], names := ["B<C, D>"], alias? := some "M" }] ∧
    IsPlainSplit ["A"] ["B<C, D>"] := by
  obtain ⟨document, hread, himports⟩ := TokenTree.exists_read_of_any ⟨.csharp, 3⟩
    "using M = A.B<C, D>;" (fun document => (ofDocument .csharp document).imports ==
      [{ path := ["A"], names := ["B<C, D>"], alias? := some "M" }]) (by decide +kernel)
  have himports := beq_iff_eq.1 himports
  refine ⟨document, hread, himports, ?_⟩
  obtain ⟨-, -, s, -, halias, -, -, htarget, hplain⟩ :=
    imports_plain_iff_of_read (d := ⟨.csharp, 3⟩) rfl hread _ (himports ▸ List.mem_singleton_self _)
  have hmember : s.namesMember = true := by
    rw [NamespaceImport.namesMember, ← Option.isSome_map (f := fun a => a.1.text), ← halias]
    rfl
  refine hplain.2 ?_
  rw [hmember, ← htarget]
  decide

/-- The dots between the brackets of a target are split at like those of its name, so that parts of
its list of arguments are taken for parts of the path. -/
theorem not_imports_plain_of_read : ∃ document,
    TokenTree.read ⟨.csharp, 3⟩ "using M = A.B<C.D>;" = .ok document ∧
    (ofDocument .csharp document).imports =
      [{ path := ["A", "B<C"], names := ["D>"], alias? := some "M" }] ∧
    ¬ IsPlainSplit ["A", "B<C"] ["D>"] := by
  obtain ⟨document, hread, himports⟩ := TokenTree.exists_read_of_any ⟨.csharp, 3⟩
    "using M = A.B<C.D>;" (fun document => (ofDocument .csharp document).imports ==
      [{ path := ["A", "B<C"], names := ["D>"], alias? := some "M" }]) (by decide +kernel)
  refine ⟨document, hread, beq_iff_eq.1 himports, fun h => ?_⟩
  exact (h.path "B<C" (by simp) '<' (by decide)).1 (by decide)

end Discovery

end Outline
