import Outline.Proofs.Declaration.Malformed
import Outline.Proofs.Declaration.Naming
import Outline.Proofs.Declaration.Nesting

/-!
# Segments of names

A full name is written with a dot between its segments.  It can be told from its text if no segment
is empty or holds a dot.  Identifiers and package statements are split at their dots, and in an
identifier no dot stands without something behind it; but a string literal that names a namespace
is kept as one segment, whatever it holds.

* `Text.IsSegment`, `Text.eq_of_dotted_eq` — segments, and the names that are made of them.
* `IdentifierStyle.isSegment_of_spells` — the parts of an identifier are segments.
* `SitedBlock.IsNamedBy` — the string literals that name a namespace.
* `Discovery.segments_iff_of_read` — the full names that are found in a text.
-/

namespace Outline

/-! ## Segments -/

namespace Text

/-- A text that can stand between the dots of a name. -/
def IsSegment (s : String) : Prop := s ≠ "" ∧ '.' ∉ s.toList

instance (s : String) : Decidable (IsSegment s) :=
  inferInstanceAs (Decidable (s ≠ "" ∧ '.' ∉ s.toList))

/-- What is split at the dots is found again. -/
theorem dottedParts_dotted {parts : List String} (hne : parts ≠ [])
    (h : ∀ part ∈ parts, IsSegment part) : dottedParts (dotted parts) = parts :=
  splitAt_intercalate rfl hne fun part hpart => (h part hpart).2

/-- A name that is made of segments can be told from its text. -/
theorem eq_of_dotted_eq {parts other : List String} (h : ∀ part ∈ parts, IsSegment part)
    (hother : ∀ part ∈ other, IsSegment part) (heq : dotted parts = dotted other) :
    parts = other := by
  -- the text of no segments is that of an empty one
  have hnil {parts : List String} (h : ∀ part ∈ parts, IsSegment part)
      (heq : dotted parts = "") : parts = [] := by
    by_contra hne
    have hparts := dottedParts_dotted hne h
    rw [heq] at hparts
    have hempty : "" ∈ parts := hparts ▸ List.mem_singleton_self ""
    exact (h "" hempty).1 rfl
  by_cases hne : parts = []
  · subst hne
    exact (hnil hother heq.symm).symm
  · by_cases hne' : other = []
    · subst hne'
      exact hnil h heq
    · rw [← dottedParts_dotted hne h, heq, dottedParts_dotted hne' hother]

/-! ## Dots in texts -/

/-- Each dot of a text has something behind it that is no dot. -/
def Unbroken (cs : List Char) : Prop := ∀ p ∈ (pieces '.' cs).tail, p ≠ []

/-- No piece of a text between its dots is empty. -/
def Segmented (cs : List Char) : Prop := ∀ p ∈ pieces '.' cs, p ≠ []

variable {c : Char} {cs ds : List Char}

theorem unbroken_dot : Unbroken ('.' :: cs) ↔ Segmented cs := Iff.rfl

theorem unbroken_cons (hc : c ≠ '.') : Unbroken (c :: cs) ↔ Unbroken cs := by
  obtain ⟨p, ps, hps, hpieces⟩ := exists_pieces_cons hc cs
  rw [Unbroken, Unbroken, hpieces, hps, List.tail_cons, List.tail_cons]

theorem segmented_cons (hc : c ≠ '.') : Segmented (c :: cs) ↔ Unbroken cs := by
  obtain ⟨p, ps, hps, hpieces⟩ := exists_pieces_cons hc cs
  rw [Segmented, Unbroken, hpieces, hps, List.tail_cons, List.forall_mem_cons]
  exact and_iff_right (List.cons_ne_nil c p)

theorem Segmented.exists_cons (h : Segmented cs) :
    ∃ c rest, cs = c :: rest ∧ c ≠ '.' ∧ Unbroken rest := by
  cases cs with
  | nil => exact absurd rfl (h [] (by simp [pieces]))
  | cons c cs =>
      by_cases hc : c = '.'
      · exact absurd rfl (h [] (by simp [pieces, hc]))
      · exact ⟨c, cs, rfl, hc, (segmented_cons hc).1 h⟩

theorem Unbroken.append (h : Unbroken cs) (hds : Unbroken ds) : Unbroken (cs ++ ds) := by
  induction cs with
  | nil => exact hds
  | cons c cs ih =>
      by_cases hc : c = '.'
      · subst hc
        obtain ⟨c, rest, rfl, hc, hrest⟩ := (unbroken_dot.1 h).exists_cons
        rw [unbroken_cons hc] at ih
        exact unbroken_dot.2 ((segmented_cons hc).2 ((unbroken_cons hc).1 (ih hrest)))
      · rw [List.cons_append, unbroken_cons hc]
        exact ih ((unbroken_cons hc).1 h)

theorem Segmented.append (h : Segmented cs) (hds : Unbroken ds) : Segmented (cs ++ ds) := by
  obtain ⟨c, rest, rfl, hc, hrest⟩ := h.exists_cons
  exact (segmented_cons hc).2 (hrest.append hds)

theorem Segmented.unbroken (h : Segmented cs) : Unbroken cs := fun p hp =>
  h p (List.mem_of_mem_tail hp)

theorem unbroken_of_not_mem (h : '.' ∉ cs) : Unbroken cs := by
  have hpieces : pieces '.' cs = [cs] := pieces_eq_singleton fun c hc hdot => h (hdot ▸ hc)
  rw [Unbroken, hpieces]
  simp

theorem Segmented.isSegment {s : String} (h : Segmented s.toList) :
    ∀ part ∈ dottedParts s, IsSegment part := by
  intro part hpart
  refine ⟨?_, not_mem_of_mem_splitAt hpart⟩
  rintro rfl
  obtain ⟨p, hp, hempty⟩ := List.mem_map.1 hpart
  refine h p hp ?_
  rw [← String.toList_ofList (l := p), hempty]
  rfl

end Text

/-! ## Identifiers -/

namespace IdentifierStyle

open Text (Unbroken Segmented)

variable {style : IdentifierStyle} {cs : List Char} {n : Nat}

theorem unbroken_gap (k : Nat) : Unbroken (gap k) := by
  refine Text.unbroken_of_not_mem fun hmem => ?_
  exact absurd (List.eq_of_mem_replicate hmem) (by decide)

theorem unbroken_marksText (nullable : Bool) (dimensions : Nat) :
    Unbroken (marksText nullable dimensions) := by
  refine Text.unbroken_of_not_mem fun hmem => ?_
  rcases List.mem_append.1 hmem with hmem | hmem
  · cases nullable <;> simp at hmem
  · obtain ⟨mark, hmark, hmem⟩ := List.mem_flatten.1 hmem
    rw [List.eq_of_mem_replicate hmark] at hmem
    exact absurd hmem (by decide)

theorem unbroken_argument {type : List Char → TypeRef → Prop}
    (htype : ∀ cs t, type cs t → Unbroken cs) {t : TypeRef} (h : ArgumentText style type cs t) :
    Unbroken cs := by
  cases h with
  | type typed => exact htype cs t typed
  | any => exact Text.unbroken_of_not_mem (by decide)
  | @bound keyword name cs t j k _ known typed =>
      have hkeyword : Unbroken keyword.toList := by
        simp only [boundKeywords, List.mem_cons, List.not_mem_nil, or_false, Prod.mk.injEq] at known
        rcases known with ⟨rfl, -⟩ | ⟨rfl, -⟩ <;> exact Text.unbroken_of_not_mem (by decide)
      rw [Text.unbroken_cons (by decide)]
      refine (unbroken_gap j).append (hkeyword.append ?_)
      rw [Text.unbroken_cons (by decide)]
      exact (unbroken_gap k).append (htype cs t typed)

theorem unbroken_arguments {arg : List Char → TypeRef → Prop}
    (harg : ∀ cs t, arg cs t → Unbroken cs) {ts : List TypeRef} (h : ArgumentsText arg cs ts) :
    Unbroken cs := by
  induction h with
  | @last cs t k argument => exact (harg cs t argument).append (unbroken_gap k)
  | @cons cs list t ts j k argument rest ih =>
      refine (harg cs t argument).append ((unbroken_gap j).append ?_)
      rw [Text.unbroken_cons (by decide)]
      exact (unbroken_gap k).append ih

section

variable (hdot : style.starts '.' = false ∧ style.continues '.' = false)

include hdot

/-- A name has no dot. -/
theorem segmented_scanName (h : style.scanName cs = some n) : Segmented (cs.take n) := by
  have hstarts (c : Char) (hc : style.starts c = true) : c ≠ '.' := by
    rintro rfl
    rw [hdot.1] at hc
    cases hc
  have hcontinues (c : Char) (hc : style.continues c = true) : c ≠ '.' := by
    rintro rfl
    rw [hdot.2] at hc
    cases hc
  have hmem := mem_scanName hstarts hcontinues h
  obtain ⟨c, rest, rfl, hc, rfl⟩ := exists_cons_of_scanName h
  rw [List.take_succ_cons, List.forall_mem_cons] at hmem
  rw [List.take_succ_cons, Text.segmented_cons hmem.1]
  exact Text.unbroken_of_not_mem fun hdot => hmem.2 '.' hdot rfl

theorem unbroken_scanDots (cs : List Char) : Unbroken (cs.take (style.scanDots cs)) := by
  fun_induction scanDots style cs with
  | case1 cs n hn ih =>
      rw [Nat.add_right_comm, List.take_succ_cons, List.take_add, Text.unbroken_dot]
      exact (segmented_scanName hdot hn).append ih
  | case2 => exact Text.unbroken_of_not_mem (by simp)
  | case3 => exact Text.unbroken_of_not_mem (by simp)

theorem segmented_isDotted (h : style.IsDotted cs) : Segmented cs := by
  obtain ⟨k, hk, hlen⟩ := Option.map_eq_some_iff.1 h
  have hcs : cs = cs.take k ++ (cs.drop k).take (style.scanDots (cs.drop k)) := by
    rw [← List.take_add, hlen, List.take_length]
  rw [hcs]
  exact (segmented_scanName hdot hk).append (unbroken_scanDots hdot _)

theorem segmented_type {nested : Bool} {args : List Char → List TypeRef → Prop}
    (hargs : ∀ list ts, args list ts → Unbroken list) {t : TypeRef}
    (h : TypeText style nested args cs t) : Segmented cs := by
  cases h with
  | plain dimensions dotted =>
      exact (segmented_isDotted hdot dotted).append (unbroken_marksText _ _)
  | @generic name nullable list params dimensions dotted _ listed =>
      refine (segmented_isDotted hdot dotted).append ?_
      rw [Text.unbroken_cons (by decide)]
      refine (hargs list params listed).append ?_
      rw [Text.unbroken_cons (by decide)]
      exact unbroken_marksText _ _

theorem unbroken_list (depth : Nat) (cs : List Char) (ts : List TypeRef)
    (h : ListText style depth cs ts) : Unbroken cs := by
  induction depth generalizing cs ts with
  | zero => exact h.elim
  | succ depth ih =>
      obtain ⟨k, list, rfl, hlist⟩ := h
      refine (unbroken_gap k).append (unbroken_arguments (fun cs t harg => ?_) hlist)
      exact unbroken_argument (fun cs t htype => (segmented_type hdot ih htype).unbroken) harg

/-- The parts of an identifier, its arguments and marks included, are segments. -/
theorem isSegment_of_spells {depth : Nat} {nested : Bool} {s : String} {t : TypeRef}
    (h : style.Spells depth nested s.toList t) :
    ∀ part ∈ Text.dottedParts s, Text.IsSegment part :=
  (segmented_type hdot (unbroken_list hdot depth) h).isSegment

/-- So are the parts of the name in it. -/
theorem isSegment_of_isDotted {s : String} (h : style.IsDotted s.toList) :
    ∀ part ∈ Text.dottedParts s, Text.IsSegment part :=
  (segmented_isDotted hdot h).isSegment

end

end IdentifierStyle

/-! ## Tokens -/

open Rose (subtreesAll)

namespace TokenTree

variable {d : Dialect}

/-- Each identifier spells a type. -/
theorem exists_spells_of_reads {source : Source} {p q : Nat} {ts : List TokenTree}
    (h : Reads d.language d.ruleSet source p q ts) :
    ∀ u ∈ subtreesAll ts, TokenTree.kind u = .identifier →
      ∃ t, d.identifiers.Spells d.maxDepth false (TokenTree.text u).toList t := by
  induction h with
  | nil p => simp
  | skip _ _ _ _ _ ih => exact ih
  | @leaf p q len c cs classifier kind ts rest hopen found hkind tail ih =>
      refine List.forall_mem_cons.2 ⟨fun hword => ?_, ih⟩
      -- the text of an identifier is what the recognizer of identifiers has read
      obtain ⟨⟨r, hr, hscan, rfl⟩, -⟩ := RuleSet.match?_reads found
      rw [Dialect.recognizer_of_word hr hkind (Or.inl hword)] at hscan
      have hscan : d.identifiers.scan (c :: cs) = some len :=
        (Option.filter_eq_some_iff.1 hscan).1
      rw [IdentifierStyle.scan, Dialect.maxDepth_identifiers] at hscan
      obtain ⟨t, ht⟩ := IdentifierStyle.exists_spells hscan
      refine ⟨t, ?_⟩
      rwa [← String.toList_ofList (l := (c :: cs).take len)] at ht
  | block _ _ _ _ _ _ ihinside ih =>
      rw [Rose.subtreesAll_cons, Rose.subtrees_node]
      refine List.forall_mem_append.2 ⟨List.forall_mem_cons.2 ⟨fun hword => ?_, ihinside⟩, ih⟩
      cases hword

end TokenTree

/-! ## Heads -/

/-- A character that is no white space is not trimmed away. -/
theorem Text.mem_trim {c : Char} {cs : List Char} (hc : c ∈ cs) (hsolid : isWhiteSpace c = false) :
    c ∈ trim cs := by
  have hdrop {cs : List Char} (hc : c ∈ cs) : c ∈ cs.dropWhile isWhiteSpace := by
    rw [← List.takeWhile_append_dropWhile (p := isWhiteSpace) (l := cs), List.mem_append] at hc
    refine hc.resolve_left fun hfront => ?_
    rw [List.mem_takeWhile_imp hfront] at hsolid
    cases hsolid
  rw [trim, trimEnd, List.mem_reverse]
  exact hdrop (List.mem_reverse.2 (hdrop hc))

/-- A text that is read as a type has no number sign. -/
theorem TypeRef.not_mem_of_parse {s : String} {t : TypeRef} (h : parse s = .ok t) :
    '#' ∉ s.toList := by
  intro hmem
  have hreserved : (Text.trim s.toList).contains markerStart = true :=
    List.contains_iff_mem.2 (Text.mem_trim hmem (by decide))
  rw [parse, parseChars, if_pos hreserved] at h
  cases h

theorem IdentifierStyle.isDotted_of_spells {style : IdentifierStyle} {depth : Nat} {nested : Bool}
    {cs : List Char} {t : TypeRef} (h : style.Spells depth nested cs t) :
    style.IsDotted t.name.toList := by
  cases h <;> assumption

namespace Head

/-- The name that a token gives to a head: its parts are segments, or the token is a string literal
and the head that of a namespace. -/
theorem parts_of_readName {d : Dialect} {kind : DeclarationKind} {t : TokenTree}
    {name : List String} {params : List TypeRef}
    (ht : t.kind = .identifier → ∃ type, d.identifiers.Spells d.maxDepth false t.text.toList type)
    (h : (readName kind t).1 = some (name, params)) :
    (∀ part ∈ name, Text.IsSegment part) ∨
      kind = .package ∧ t.kind = .string ∧ name = [Text.unquote t.text] := by
  unfold readName at h
  split at h
  · rename_i hkind
    obtain ⟨type, htype⟩ := ht hkind
    cases h
    exact Or.inl (IdentifierStyle.isSegment_of_spells d.dot_identifiers htype)
  · rename_i hkind _
    obtain ⟨type, htype⟩ := ht hkind
    split at h
    · rename_i type' hparse
      split at h
      · cases h
        have hread := IdentifierStyle.parse_of_spells d.tame_identifiers htype fun _ =>
          TypeRef.not_mem_of_parse hparse
        rw [String.ofList_toList, hparse] at hread
        obtain rfl := Except.ok.inj hread
        have hdotted := IdentifierStyle.isDotted_of_spells htype
        exact Or.inl (IdentifierStyle.isSegment_of_isDotted d.dot_identifiers hdotted)
      · cases h
    · cases h
  · rename_i hkind
    cases h
    exact Or.inr ⟨rfl, hkind, rfl⟩
  · cases h

end Head

namespace SitedBlock

/-- The block is the body of a namespace that is named by the given string literal. -/
def IsNamedBy (l : Language) (b : SitedBlock) (literal : String) : Prop :=
  ∃ head, b.head? l = some head ∧ head.kind = .package ∧ head.name = [Text.unquote literal] ∧
    ∃ t ∈ b.before, t.kind = .string ∧ t.text = literal

/-- The parts that a block adds to names are segments unless a string literal names it. -/
theorem parts_of_head? {d : Dialect} {b : SitedBlock} {head : Head}
    (hbefore : ∀ t ∈ b.before, t.kind = .identifier →
      ∃ type, d.identifiers.Spells d.maxDepth false t.text.toList type)
    (h : b.head? d.language = some head) :
    (∀ part ∈ head.name, Text.IsSegment part) ∨
      ∃ literal, b.IsNamedBy d.language literal ∧ head.name = [Text.unquote literal] := by
  have hsearch : (Head.search d.language [] b.before).1 = some head := by
    rw [head?] at h
    split at h
    · exact h
    · cases h
  obtain ⟨t, ht, params, hname⟩ := Head.exists_readName_of_search hsearch
  have ht : t ∈ b.before := ht.resolve_left List.not_mem_nil
  refine (Head.parts_of_readName (hbefore t ht) hname).imp_right ?_
  rintro ⟨hpackage, hstring, hname⟩
  exact ⟨t.text, ⟨head, h, hpackage, hname, t, ht, hstring, rfl⟩, hname⟩

end SitedBlock

/-! ## Documents -/

namespace Discovery

variable {d : Dialect} {text : String} {document : TokenTree}

/-- Each part of a full name is a segment or the string literal that names a namespace. -/
theorem parts_of_read (h : TokenTree.read d text = .ok document) :
    ∀ name ∈ (ofDocument d.language document).names, ∀ part ∈ name, Text.IsSegment part ∨
      ∃ p ∈ Site.all document, ∃ literal,
        p.own.IsNamedBy d.language literal ∧ part = Text.unquote literal := by
  obtain ⟨ts, rfl, hts⟩ := TokenTree.reads_of_read h
  have hspells := TokenTree.exists_spells_of_reads hts
  have hheads : ∀ p ∈ Site.ofSiblings [] [] ts, ∀ part ∈ p.own.nameParts d.language,
      Text.IsSegment part ∨ ∃ p ∈ Site.ofSiblings [] [] ts, ∃ literal,
        p.own.IsNamedBy d.language literal ∧ part = Text.unquote literal := by
    intro p hp part hpart
    rw [SitedBlock.nameParts] at hpart
    cases hhead : p.own.head? d.language with
    | none =>
        rw [hhead] at hpart
        cases hpart
    | some head =>
        rw [hhead, Option.elim_some] at hpart
        have hbefore : ∀ t ∈ p.own.before, t.kind = .identifier →
            ∃ type, d.identifiers.Spells d.maxDepth false t.text.toList type := fun t ht =>
          hspells t ((Site.mem_before hp ht).resolve_left List.not_mem_nil)
        rcases SitedBlock.parts_of_head? hbefore hhead with hparts | ⟨literal, hnamed, hparts⟩
        · exact Or.inl (hparts part hpart)
        · rw [hparts] at hpart
          exact Or.inr ⟨p, hp, literal, hnamed, List.mem_singleton.1 hpart⟩
  intro name hname
  rcases mem_names_append.1 hname with hname | hname
  · simp [names] at hname
  · refine parts_ofSiblings rfl (by simp) (fun u hu hword part hpart => ?_) hheads name hname
    obtain ⟨type, htype⟩ := hspells u hu hword
    exact Or.inl (IdentifierStyle.isSegment_of_spells d.dot_identifiers htype part hpart)

/-- The name of each body is part of the full name of a declaration. -/
theorem exists_name_of_head? {l : Language} {p : Site} (hp : p ∈ Site.all document) {head : Head}
    (h : p.own.head? l = some head) :
    ∃ name ∈ (ofDocument l document).names, head.name ⊆ name := by
  have hbody : p.isBody l = true := by rw [Site.isBody, h]; rfl
  have hmem : sited l (Import.ofTokens l document.children) p ∈
      (ofDocument l document).declarations.map summary := by
    rw [ofDocument_sites]
    exact List.mem_map_of_mem (List.mem_filter.2 ⟨hp, hbody⟩)
  obtain ⟨x, hx, hsummary⟩ := List.mem_map.1 hmem
  have hname : x.declaration.fullName = p.fullName l := congrArg Prod.fst hsummary
  refine ⟨x.declaration.fullName, List.mem_append_left _ (List.mem_map_of_mem hx), ?_⟩
  rw [hname, Site.fullName]
  have hown : p.own ∈ p.blocks := by simp [Site.blocks]
  intro part hpart
  have hpart : part ∈ p.own.nameParts l := by
    rw [SitedBlock.nameParts, h]
    exact hpart
  cases hblocks : p.blocks with
  | nil =>
      rw [hblocks] at hown
      cases hown
  | cons b bs =>
      rw [hblocks] at hown
      rw [Site.scope]
      exact List.mem_append_right _ (List.mem_flatMap.2 ⟨p.own, hown, hpart⟩)

/-- The segments of all full names that are found in a text, of declarations, namespaces and
packages, are proper ones exactly if each string literal that names a namespace is one.  Full names
with the same text are the same then. -/
theorem segments_iff_of_read (h : TokenTree.read d text = .ok document) :
    ((∀ name ∈ (ofDocument d.language document).names, ∀ part ∈ name, Text.IsSegment part) ↔
      ∀ p ∈ Site.all document, ∀ literal, p.own.IsNamedBy d.language literal →
        Text.IsSegment (Text.unquote literal)) ∧
    ((∀ p ∈ Site.all document, ∀ literal, p.own.IsNamedBy d.language literal →
        Text.IsSegment (Text.unquote literal)) →
      ∀ name ∈ (ofDocument d.language document).names,
        ∀ other ∈ (ofDocument d.language document).names,
          Text.dotted name = Text.dotted other → name = other) := by
  have hproper (hliterals : ∀ p ∈ Site.all document, ∀ literal,
      p.own.IsNamedBy d.language literal → Text.IsSegment (Text.unquote literal)) :
      ∀ name ∈ (ofDocument d.language document).names, ∀ part ∈ name, Text.IsSegment part := by
    intro name hname part hpart
    rcases parts_of_read h name hname part hpart with hsegment | ⟨p, hp, literal, hnamed, rfl⟩
    · exact hsegment
    · exact hliterals p hp literal hnamed
  refine ⟨⟨?_, hproper⟩, ?_⟩
  · rintro hsegments p hp literal ⟨head, hhead, -, hname, -⟩
    obtain ⟨name, hmem, hsub⟩ := exists_name_of_head? hp hhead
    exact hsegments name hmem _ (hsub (by rw [hname]; exact List.mem_singleton_self _))
  · intro hliterals name hname other hother heq
    exact Text.eq_of_dotted_eq (hproper hliterals name hname) (hproper hliterals other hother) heq

/-- A namespace that is named by a string literal without a dot. -/
theorem segments_iff_of_read_module : ∃ document,
    TokenTree.read ⟨.typescript, 3⟩ "declare module 'a' { class C {} } namespace b.c { class C {} }" =
      .ok document ∧
    (ofDocument .typescript document).names =
      [["a"], ["a", "C"], ["b", "c"], ["b", "c", "C"], ["a"], ["b", "c"]] ∧
    (∀ p ∈ Site.all document, ∀ literal, p.own.IsNamedBy .typescript literal →
      Text.IsSegment (Text.unquote literal)) ∧
    ∀ name ∈ (ofDocument .typescript document).names,
      ∀ other ∈ (ofDocument .typescript document).names,
        Text.dotted name = Text.dotted other → name = other := by
  obtain ⟨document, hread, hfound⟩ := TokenTree.exists_read_of_any ⟨.typescript, 3⟩
    "declare module 'a' { class C {} } namespace b.c { class C {} }"
    (fun document => (ofDocument .typescript document).names ==
      [["a"], ["a", "C"], ["b", "c"], ["b", "c", "C"], ["a"], ["b", "c"]]) (by decide +kernel)
  have hnames := beq_iff_eq.1 hfound
  obtain ⟨hsegments, hsame⟩ := segments_iff_of_read (d := ⟨.typescript, 3⟩) hread
  have hliterals := hsegments.1 (by rw [hnames]; decide)
  exact ⟨document, hread, hnames, hliterals, hsame hliterals⟩

/-- A namespace that is named by a string literal with a dot is kept as one segment, so that the
class in it is written like one of another full name. -/
theorem not_segments_of_read : ∃ document,
    TokenTree.read ⟨.typescript, 3⟩ "declare module 'a.b' { class C {} }" = .ok document ∧
    (ofDocument .typescript document).names = [["a.b"], ["a.b", "C"], ["a.b"]] ∧
    ¬ Text.IsSegment "a.b" ∧ Text.dotted ["a.b", "C"] = Text.dotted ["a", "b", "C"] := by
  obtain ⟨document, hread, hnames⟩ := TokenTree.exists_read_of_any ⟨.typescript, 3⟩
    "declare module 'a.b' { class C {} }"
    (fun document => (ofDocument .typescript document).names == [["a.b"], ["a.b", "C"], ["a.b"]])
    (by decide +kernel)
  exact ⟨document, hread, beq_iff_eq.1 hnames, by decide, by decide⟩

end Discovery

end Outline
