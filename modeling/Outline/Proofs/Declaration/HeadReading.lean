import Outline.Proofs.Declaration.Forest
import Outline.Proofs.Written.Marks

/-!
# Reading written heads

A head is read forwards from its keyword, and what stands in front of the keyword backwards.

* `Forest.readBases_list` — the base types of a written head and how they are split.
* `Forest.readLead_leads` — what stands in front of the keyword, read backwards.
* `Forest.annotations_run` — the annotations in front of the keyword, read forwards.
* `Forest.WrittenHead.search` — the search backwards from the body finds the written head.
-/

namespace Outline

/-- Only keywords play roles. -/
theorem Language.marks_eq_false {l : Language} {role : Capability} {t : TokenTree}
    (h : t.kind ≠ .keyword) : l.marks role t.value = false := by
  rw [Language.marks, beq_eq_false_iff_ne.2 h, Bool.false_and]

/-! ## Base types -/

namespace Head

variable {l : Language} {t : TokenTree}

theorem addBase_concat (type : TypeRef) (groups : List BaseGroup) (mark : String)
    (types : List TypeRef) :
    addBase type (groups ++ [(mark, types)]) = groups ++ [(mark, types ++ [type])] := by
  induction groups with
  | nil => rfl
  | cons g gs ih =>
      rw [List.cons_append, List.cons_append, ← ih]
      cases gs <;> rfl

/-- Neither an identifier nor a separator introduces base types. -/
theorem isInheritance_eq_false (l : Language) {t : TokenTree}
    (ht : t.kind = .identifier ∨ t.kind = .separator) : l.isInheritance t.value = false := by
  have hkeyword : t.kind ≠ .keyword := by rcases ht with h | h <;> rw [h] <;> decide
  have hoperator : t.kind ≠ .operator := by rcases ht with h | h <;> rw [h] <;> decide
  cases l with
  | csharp => exact Token.isOperator_eq_false hoperator ":"
  | java => exact Language.marks_eq_false hkeyword
  | typescript => exact Language.marks_eq_false hkeyword

/-- The token that introduces base types opens a group. -/
theorem readBases_mark (groups : List BaseGroup) (ts : List TokenTree)
    (h : l.isInheritance t.value = true) :
    readBases l groups (t :: ts) = readBases l (groups ++ [(t.text, [])]) ts := by
  rw [readBases, if_pos h]

/-- A comma behind it is passed over. -/
theorem readBases_comma (groups : List BaseGroup) (group : BaseGroup) (ts : List TokenTree)
    (h : t.value.isSeparator "," = true) :
    readBases l (groups ++ [group]) (t :: ts) = readBases l (groups ++ [group]) ts := by
  have hmark := isInheritance_eq_false l (.inr (Token.kind_of_isSeparator h))
  rw [readBases, if_neg (by rw [hmark]; exact Bool.false_ne_true), if_pos (by simp [h])]

/-- An identifier that is a type joins the last group. -/
theorem readBases_name {type : TypeRef} (groups : List BaseGroup) (mark : String)
    (types : List TypeRef) (ts : List TokenTree) (ht : t.kind = .identifier)
    (hend : l.baseListEnd? ≠ some t.text) (htype : TypeRef.parse t.text = .ok type) :
    readBases l (groups ++ [(mark, types)]) (t :: ts) =
      readBases l (groups ++ [(mark, types ++ [type])]) ts := by
  have hmark := isInheritance_eq_false l (.inl ht)
  have hcomma : t.value.isSeparator "," = false :=
    Token.isSeparator_eq_false (by rw [show t.value.kind = _ from ht]; decide) ","
  rw [readBases, hmark, hcomma, ht, beq_eq_false_iff_ne.2 hend, htype, ← addBase_concat]
  simp

end Head

namespace Forest

open Head

variable {d : Dialect} {kind : DeclarationKind}

/-- The identifier is a type. -/
theorem BaseName.parse (b : BaseName d) : TypeRef.parse b.token.text = .ok b.ref := by
  obtain ⟨type, htype⟩ := d.tame_identifiers.exists_parse_of_scan b.scanned fun _ => b.unmarked
  rw [BaseName.ref, htype]
  rfl

/-- The names behind the first one join its group. -/
theorem readBases_more {more : List (TokenTree × BaseName d)}
    (hcommas : ∀ m ∈ more, m.1.value.isSeparator "," = true)
    (hend : ∀ m ∈ more, d.language.baseListEnd? ≠ some m.2.token.text) (groups : List BaseGroup)
    (mark : String) (types : List TypeRef) (ts : List TokenTree) :
    readBases d.language (groups ++ [(mark, types)])
        (more.flatMap (fun m => [m.1, m.2.token]) ++ ts) =
      readBases d.language (groups ++ [(mark, types ++ more.map (·.2.ref))]) ts := by
  induction more generalizing types with
  | nil => simp
  | cons m more ih =>
      obtain ⟨hcomma, hcommas⟩ := List.forall_mem_cons.1 hcommas
      obtain ⟨hname, hend⟩ := List.forall_mem_cons.1 hend
      rw [List.flatMap_cons, List.append_assoc, List.cons_append, List.singleton_append,
        readBases_comma groups _ _ hcomma,
        readBases_name groups mark types _ m.2.isIdentifier hname m.2.parse, ih hcommas hend,
        List.map_cons, List.append_assoc, List.singleton_append]

/-- A list of base types is one group. -/
theorem readBases_clause (c : BaseClause d)
    (hmark : d.language.isInheritance c.mark.value = true)
    (hend : ∀ b ∈ c.names, d.language.baseListEnd? ≠ some b.token.text) (groups : List BaseGroup)
    (ts : List TokenTree) :
    readBases d.language groups (c.tokens ++ ts) =
      readBases d.language (groups ++ [(c.mark.text, c.refs)]) ts := by
  obtain ⟨hfirst, hmore⟩ := List.forall_mem_cons.1 hend
  rw [BaseClause.tokens, List.cons_append, List.cons_append, readBases_mark groups _ hmark,
    readBases_name groups _ _ _ c.first.isIdentifier hfirst c.first.parse,
    readBases_more c.commas (fun m hm => hmore _ (List.mem_map_of_mem hm)), List.nil_append,
    List.singleton_append, BaseClause.refs, BaseClause.names, List.map_cons, List.map_map]
  rfl

theorem readBases_optional (c : Option (BaseClause d))
    (hmark : ∀ x ∈ c, d.language.isInheritance x.mark.value = true)
    (hend : ∀ b ∈ c.toList.flatMap (·.names), d.language.baseListEnd? ≠ some b.token.text)
    (groups : List BaseGroup) (ts : List TokenTree) :
    readBases d.language groups (c.toList.flatMap (·.tokens) ++ ts) =
      readBases d.language (groups ++ c.toList.map fun x => (x.mark.text, x.refs)) ts := by
  cases c with
  | none => simp
  | some c =>
      rw [Option.toList_some, List.flatMap_singleton] at hend ⊢
      exact readBases_clause c (hmark c rfl) hend groups ts

/-- Outside C#, a keyword introduces base types. -/
theorem isInheritance_of_isKeyword {l : Language} (hl : l ≠ .csharp) {t : Token} {word : String}
    (h : t.isKeyword word = true) (hword : word = "extends" ∨ word = "implements") :
    l.isInheritance t = true := by
  have hkind := Token.kind_of_isKeyword h
  have htext := Token.text_of_isKeyword h
  cases l with
  | csharp => exact absurd rfl hl
  | java =>
      rw [Language.isInheritance, Language.marks, hkind, htext]
      rcases hword with rfl | rfl <;> rfl
  | typescript =>
      rw [Language.isInheritance, Language.marks, hkind, htext]
      rcases hword with rfl | rfl <;> rfl

/-- The written base types are read and split as they are written, up to tokens that end the
reading. -/
theorem readBases_list (b : BaseList d kind) (keyword : String)
    (hend : ∀ x ∈ b.names, d.language.baseListEnd? ≠ some x.token.text) {ts : List TokenTree}
    (hts : ∀ groups, readBases d.language groups ts = (some groups, [])) :
    ∃ groups, readBases d.language [] (b.tokens ++ ts) = (some groups, []) ∧
      splitBases d.language kind keyword groups = b.split keyword := by
  cases b with
  | none =>
      refine ⟨[], hts [], ?_⟩
      cases d.language <;> cases kind <;> rfl
  | colon c hl hkind hmark =>
      have hread := readBases_clause c (by rw [hl]; exact hmark) hend [] ts
      refine ⟨_, hread.trans (hts _), ?_⟩
      rw [hl, splitBases, BaseList.split]
      rcases hkind with rfl | rfl
      · simp only [List.nil_append, List.flatMap_cons, List.flatMap_nil, List.append_nil,
          BaseClause.refs, BaseClause.names, List.map_cons, List.map_map, splitByName]
        simp [Function.comp_def]
      · simp [splitByName]
  | interfaces c hl hkind hmark =>
      have hread := readBases_clause c (isInheritance_of_isKeyword hl hmark (.inl rfl)) hend [] ts
      refine ⟨_, hread.trans (hts _), ?_⟩
      have hsplit : splitByMark kind [(c.mark.text, c.refs)] = (.none, c.refs) := by
        simp [splitByMark, hkind]
      cases hlanguage : d.language with
      | csharp => exact absurd hlanguage hl
      | java => exact hsplit
      | typescript => exact hsplit
  | classes e c hl hkind hextended himplemented =>
      obtain ⟨hfirst, hrest⟩ := List.forall_mem_append.1 hend
      have hread := readBases_optional c
        (fun x hx => isInheritance_of_isKeyword hl (himplemented x hx) (.inr rfl)) hrest
        (e.toList.map fun x => (x.mark.text, x.refs)) ts
      have hclass := readBases_optional e
        (fun x hx => isInheritance_of_isKeyword hl (hextended x hx).1 (.inl rfl)) hfirst []
        (c.toList.flatMap (·.tokens) ++ ts)
      rw [← List.append_assoc] at hclass
      refine ⟨_, (hclass.trans hread).trans (hts _), ?_⟩
      have hsplit : splitByMark kind ((e.toList.map fun x => (x.mark.text, x.refs)) ++
          c.toList.map fun x => (x.mark.text, x.refs)) =
          (e.map (·.first.ref), c.toList.flatMap (·.refs)) := by
        cases e with
        | none =>
            cases c with
            | none => rfl
            | some c => simp [splitByMark, Token.text_of_isKeyword (himplemented c rfl)]
        | some e =>
            obtain ⟨hmark, hone⟩ := hextended e rfl
            have hrefs : e.refs = [e.first.ref] := by rw [BaseClause.refs, BaseClause.names, hone]; rfl
            cases c with
            | none => simp [splitByMark, hkind, hrefs, Token.text_of_isKeyword hmark]
            | some c =>
                simp [splitByMark, hkind, hrefs, Token.text_of_isKeyword hmark,
                  Token.text_of_isKeyword (himplemented c rfl)]
      cases hlanguage : d.language with
      | csharp => exact absurd hlanguage hl
      | java => exact hsplit
      | typescript => exact hsplit

/-! ## In front of the keyword -/

/-- What is added in front of what has been read. -/
def HeadLead.addTo {l : Language} (x : HeadLead l) (h : Head) : Head :=
  { h with
    modifiers := x.modifiers ++ h.modifiers
    annotations := x.annotations ++ h.annotations
    comments := x.comments ++ h.comments }

/-- A token that is neither a modifier nor a comment is the last one of an annotation. -/
theorem readLead_annotation {l : Language} {t : TokenTree} {before rest : List TokenTree}
    {found : List Annotation} (hkeyword : t.kind ≠ .keyword) (hcomment : t.kind ≠ .comment)
    (hfound : annotationBefore? l t before = some (found, rest)) (h : Head) :
    readLead l h (t :: before) =
      readLead l { h with annotations := found ++ h.annotations } rest := by
  rw [readLead, Language.marks_eq_false hkeyword, beq_eq_false_iff_ne.2 hcomment, if_neg Bool.false_ne_true,
    if_neg Bool.false_ne_true]
  split
  · rename_i heq
    cases hfound.symm.trans heq
    rfl
  · rename_i heq
    cases hfound.symm.trans heq

/-- What stands in front of the keyword is read backwards, part by part. -/
theorem readLead_lead {l : Language} (x : HeadLead l) (h : Head) (before : List TokenTree) :
    readLead l h (x.tokens.reverse ++ before) = readLead l (x.addTo h) before := by
  match x with
  | .modifier token isModifier =>
    rw [HeadLead.tokens, List.reverse_singleton, List.singleton_append, readLead,
      if_pos isModifier]
    rfl
  | .lead (.comment token isComment) =>
    have hkeyword : token.kind ≠ .keyword := by rw [isComment]; decide
    rw [HeadLead.tokens, WrittenLead.tokens, List.reverse_singleton, List.singleton_append,
      readLead, Language.marks_eq_false hkeyword, isComment, if_neg Bool.false_ne_true, if_pos (beq_self_eq_true _)]
    rfl
  | .lead (.mark (.brackets block style isBlock found)) =>
    have hkind : block.kind = .block := Token.kind_of_isBlock isBlock
    have hfound : annotationBefore? l block before =
        some (WrittenMark.annotations (.brackets block style isBlock found), before) := by
      simp [annotationBefore?, WrittenMark.annotations, style, isBlock, found]
    exact readLead_annotation (by rw [hkind]; decide) (by rw [hkind]; decide) hfound h
  | .lead (.mark (.sign start name none style isSign isName _)) =>
    have hblock : name.value.isBlock '(' = false :=
      Token.isBlock_eq_false (by rw [show name.value.kind = _ from isName]; decide) '('
    have hfound : annotationBefore? l name (start :: before) = some ([⟨name.text, []⟩], before) := by
      simp [annotationBefore?, style, hblock, isName, isSign]
    exact readLead_annotation (by rw [isName]; decide) (by rw [isName]; decide) hfound h
  | .lead (.mark (.sign start name (some block) style isSign isName isBlock)) =>
    have hblock : block.value.isBlock '(' = true := isBlock block rfl
    have hkind : block.kind = .block := Token.kind_of_isBlock hblock
    have hfound : annotationBefore? l block (name :: start :: before) =
        some ([⟨name.text, Annotation.argumentsOf block⟩], before) := by
      simp [annotationBefore?, style, hblock, isName, isSign]
    exact readLead_annotation (by rw [hkind]; decide) (by rw [hkind]; decide) hfound h

/-- What follows the end of a statement or of a block starts anew. -/
def Stops (before : List TokenTree) : Prop := ∀ t ∈ before.head?, isBarrier t.value = true

theorem kind_of_isBarrier {t : Token} (h : isBarrier t = true) :
    t.kind = .separator ∨ t.kind = .block :=
  (Bool.or_eq_true_iff.1 h).imp Token.kind_of_isSeparator Token.kind_of_isBlock

theorem isBarrier_of_kind {t : TokenTree} (h : t.kind ≠ .separator) (h' : t.kind ≠ .block) :
    isBarrier t.value = false :=
  Bool.eq_false_iff.2 fun hbarrier => (kind_of_isBarrier hbarrier).elim h h'

theorem isBarrier_of_isBlock {t : Token} {bracket : Char} (h : t.isBlock bracket = true)
    (hne : bracket ≠ '\x7b') : isBarrier t = false := by
  rw [isBarrier, Token.isBlock_ne h hne,
    Token.isSeparator_eq_false (by rw [Token.kind_of_isBlock h]; decide)]
  rfl

/-- No token in front of the keyword ends a statement or is a block in braces. -/
theorem HeadLead.isBarrier_eq_false {l : Language} (x : HeadLead l) {t : TokenTree}
    (ht : t ∈ x.tokens) : isBarrier t.value = false := by
  match x with
  | .modifier token isModifier =>
    obtain rfl := List.mem_singleton.1 ht
    have hkind : t.kind = .keyword := Language.kind_of_marks isModifier
    exact isBarrier_of_kind (by rw [hkind]; decide) (by rw [hkind]; decide)
  | .lead (.comment token isComment) =>
    obtain rfl := List.mem_singleton.1 ht
    exact isBarrier_of_kind (by rw [isComment]; decide) (by rw [isComment]; decide)
  | .lead (.mark (.brackets block style isBlock found)) =>
    obtain rfl := List.mem_singleton.1 ht
    exact isBarrier_of_isBlock isBlock (by decide)
  | .lead (.mark (.sign start name arguments? style isSign isName isBlock)) =>
    simp only [HeadLead.tokens, WrittenLead.tokens, WrittenMark.tokens, List.mem_cons,
      Option.mem_toList] at ht
    rcases ht with rfl | rfl | ht
    · have hkind : t.value.kind = .separator := Token.kind_of_isSeparator isSign
      rw [isBarrier, Token.isSeparator_ne isSign (by decide),
        Token.isBlock_eq_false (by rw [hkind]; decide)]
      rfl
    · exact isBarrier_of_kind (by rw [isName]; decide) (by rw [isName]; decide)
    · exact isBarrier_of_isBlock (isBlock t ht) (by decide)

/-- At the end of a statement or of a block the reading backwards ends. -/
theorem readLead_stops (l : Language) (h : Head) {before : List TokenTree} (hstop : Stops before) :
    readLead l h before = h := by
  cases before with
  | nil => rw [readLead]
  | cons t before =>
      have hbarrier := hstop t rfl
      have hkind := kind_of_isBarrier hbarrier
      have hkeyword : t.kind ≠ .keyword := by
        rcases hkind with hkind | hkind <;> rw [TokenTree.kind, hkind] <;> decide
      have hcomment : (t.kind == .comment) = false := by
        rcases hkind with hkind | hkind <;> rw [TokenTree.kind, hkind] <;> rfl
      have hname : (t.kind == .identifier) = false := by
        rcases hkind with hkind | hkind <;> rw [TokenTree.kind, hkind] <;> rfl
      have hother (bracket : Char) (hne : '\x7b' ≠ bracket) : t.value.isBlock bracket = false := by
        rcases Bool.or_eq_true_iff.1 hbarrier with h | h
        · exact Token.isBlock_eq_false (by rw [Token.kind_of_isSeparator h]; decide) bracket
        · exact Token.isBlock_ne h hne
      have hnone : annotationBefore? l t before = none := by
        rw [annotationBefore?, hother '[' (by decide), hother '(' (by decide)]
        cases l.annotationStyle with
        | bracketed => rfl
        | atSign => cases before <;> simp [hname]
      rw [readLead, Language.marks_eq_false hkeyword, hcomment, if_neg Bool.false_ne_true, if_neg Bool.false_ne_true]
      split
      · rename_i heq
        cases hnone.symm.trans heq
      · rfl

/-- All that stands in front of the keyword, in its order. -/
theorem readLead_leads {l : Language} (leads : List (HeadLead l)) (h : Head)
    {before : List TokenTree} (hstop : Stops before) :
    readLead l h ((leads.flatMap (·.tokens)).reverse ++ before) =
      { h with
        modifiers := leads.flatMap (·.modifiers) ++ h.modifiers
        annotations := leads.flatMap (·.annotations) ++ h.annotations
        comments := leads.flatMap (·.comments) ++ h.comments } := by
  -- the last one is read first
  induction leads using List.reverseRecOn generalizing h with
  | nil => exact readLead_stops l h hstop
  | append_singleton leads x ih =>
      rw [List.flatMap_append, List.flatMap_singleton, List.reverse_append, List.append_assoc,
        readLead_lead, ih]
      simp [HeadLead.addTo]

/-! ## Annotations, read forwards -/

section Forwards

open Extractor

variable {l : Language} {a : AnnotationMachine} {as : List Annotation}

/-- A modifier ends what the machine holds. -/
theorem annotation_modifier (ha : Holds l a as) {token : TokenTree}
    (h : l.marks .classModifier token.value = true) :
    Feeds ⟨l, []⟩ (annotations a) [token] as [] (annotations .idle) := by
  have hkind : token.kind = .keyword := Language.kind_of_marks h
  have hsilent : Silent token := by
    refine ⟨by rw [hkind]; decide, ?_, ?_⟩
    · exact Token.isSeparator_eq_false (by rw [show token.value.kind = _ from hkind]; decide) "@"
    · exact Token.isBlock_eq_false (by rw [show token.value.kind = _ from hkind]; decide) '['
  exact annotation_word ha hsilent
    (Token.isBlock_eq_false (by rw [show token.value.kind = _ from hkind]; decide) '(')

/-- What stands in front of the keyword: what the machine held and what it holds then are its
annotations. -/
theorem annotation_headLeads (ha : Holds l a as) (leads : List (HeadLead l)) :
    ∃ a' as' read, Feeds ⟨l, []⟩ (annotations a) (leads.flatMap (·.tokens)) read []
        (annotations a') ∧
      Holds l a' as' ∧ read ++ as' = as ++ leads.flatMap (·.annotations) := by
  induction leads generalizing a as with
  | nil => exact ⟨a, as, [], .nil _, ha, by simp⟩
  | cons x leads ih =>
      have hfirst : ∃ a' as' read, Feeds ⟨l, []⟩ (annotations a) x.tokens read []
          (annotations a') ∧ Holds l a' as' ∧ read ++ as' = as ++ x.annotations := by
        cases x with
        | lead x => exact annotation_lead (o := ⟨l, []⟩) ha x
        | modifier token isModifier =>
            exact ⟨.idle, [], as, annotation_modifier ha isModifier, .inl ⟨rfl, rfl⟩, rfl⟩
      obtain ⟨a', as', read, hfeeds, ha', hread⟩ := hfirst
      obtain ⟨last, held, read', hrest, hlast, hread'⟩ := ih ha'
      refine ⟨last, held, read ++ read', hfeeds.append hrest, hlast, ?_⟩
      rw [List.append_assoc, hread', ← List.append_assoc, hread, List.flatMap_cons,
        List.append_assoc]

/-- What is waiting after a run that a machine reads without ending a member. -/
theorem readAll_feeds_one {o : Owner} {e e' : Extractor} {ts : List TokenTree} {cs : List String}
    (hfeeds : Feeds o e ts as cs e') (hbrace : ∀ t ∈ ts, t.value.isBlock '\x7b' = false)
    (h : Harvest) :
    (readAll o [e] h ts).1 = [e'] ∧ (readAll o [e] h ts).2.bare = h.bare.wait as cs := by
  induction hfeeds generalizing h with
  | nil e => exact ⟨rfl, (Harvest.wait_nil h.bare).symm⟩
  | @cons e next last t ts ended taken as₁ as₂ cs₁ cs₂ hstep hended hrest ih =>
      obtain ⟨hfirst, hbrace⟩ := List.forall_mem_cons.1 hbrace
      obtain ⟨hmachine, hharvest⟩ := read_respond o t [e] h
      simp only [List.map_cons, List.map_nil, hstep] at hmachine
      simp only [List.flatMap_cons, List.flatMap_nil, List.append_nil, hstep, hended, hfirst,
        Bool.and_false, Bool.false_eq_true, if_false] at hharvest
      obtain ⟨ihmachine, ihharvest⟩ := ih hbrace (read o [e] h t).2
      have hcons : readAll o [e] h (t :: ts) =
          readAll o (read o [e] h t).1 (read o [e] h t).2 ts := rfl
      rw [hcons, hmachine]
      refine ⟨ihmachine, ?_⟩
      rw [ihharvest, hharvest, Harvest.wait_wait]

/-- The end of the tokens ends what the machine holds. -/
theorem annotations_close (ha : Holds l a as) (o : Owner) (h : Harvest) :
    (close o h (annotations a)).annotations = h.annotations ++ as := by
  rcases ha with ⟨rfl, rfl⟩ | ⟨-, n, rfl, rfl⟩
  · exact (List.append_nil _).symm
  · rfl

/-- Read forwards, what stands in front of the keyword gives the same annotations. -/
theorem annotations_run (leads : List (HeadLead l)) :
    (Extractor.run ⟨l, []⟩ [.annotations .idle] (leads.flatMap (·.tokens))).annotations =
      leads.flatMap (·.annotations) := by
  obtain ⟨last, held, read, hfeeds, hlast, hread⟩ :=
    annotation_headLeads (.inl ⟨rfl, rfl⟩ : Holds l .idle []) leads
  have hbrace : ∀ t ∈ leads.flatMap (·.tokens), t.value.isBlock '\x7b' = false := by
    intro t ht
    obtain ⟨x, -, ht⟩ := List.mem_flatMap.1 ht
    exact (Bool.or_eq_false_iff.1 (x.isBarrier_eq_false ht)).2
  obtain ⟨hmachine, hharvest⟩ := readAll_feeds_one hfeeds hbrace {}
  have hwaiting : (readAll ⟨l, []⟩ [.annotations .idle] {}
      (leads.flatMap (·.tokens))).2.annotations = read :=
    congrArg Harvest.annotations hharvest
  have hrun : Extractor.run ⟨l, []⟩ [.annotations .idle] (leads.flatMap (·.tokens)) =
      (readAll ⟨l, []⟩ [.annotations .idle] {} (leads.flatMap (·.tokens))).1.foldl (close ⟨l, []⟩)
        (readAll ⟨l, []⟩ [.annotations .idle] {} (leads.flatMap (·.tokens))).2 := rfl
  rw [hrun, hmachine, List.foldl_cons, List.foldl_nil, annotations_close hlast, hwaiting, hread,
    List.nil_append]

end Forwards

/-! ## Names -/

/-- A name without dots has one part. -/
theorem dottedParts_of_scanName {name : String}
    (h : d.identifiers.scanName name.toList = some name.toList.length) :
    Text.dottedParts name = [name] := by
  have hdots : ∀ c ∈ name.toList, c ≠ '.' := by
    have hmem := IdentifierStyle.mem_scanName (P := (· ≠ '.')) ?_ ?_ h
    · rwa [List.take_length] at hmem
    · rintro c hc rfl
      rw [d.dot_identifiers.1] at hc
      cases hc
    · rintro c hc rfl
      rw [d.dot_identifiers.2] at hc
      cases hc
  rw [Text.dottedParts, Text.splitAt, Text.pieces_eq_singleton hdots, List.map_singleton,
    String.ofList_toList]

/-- The name of a written head is read. -/
theorem WrittenHead.readName (h : WrittenHead d) :
    Head.readName h.kind h.name = (some (h.nameParts, []), []) := by
  by_cases hkind : h.kind = .package
  · unfold Head.readName
    rw [h.isName, hkind, WrittenHead.nameParts, if_pos hkind]
  · have hparse : TypeRef.parse h.name.text = .ok { name := h.name.text } :=
      d.tame_identifiers.parse_word (h.plain hkind) fun _ => h.unmarked hkind
    have hparts : TypeRef.parts { name := h.name.text } = [h.name.text] :=
      dottedParts_of_scanName (h.plain hkind)
    unfold Head.readName
    rw [h.isName, hparse, WrittenHead.nameParts, if_neg hkind]
    cases hk : h.kind with
    | package => exact absurd hk hkind
    | _ => exact congrArg (fun parts => (some (parts, []), [])) hparts

/-! ## Heads -/

/-- The tokens of base types. -/
theorem BaseList.mem_tokens (b : BaseList d kind) {t : TokenTree} (ht : t ∈ b.tokens) :
    t.kind = .identifier ∨ t.value.isSeparator "," = true ∨ t.value.isOperator ":" = true ∨
      t.value.isKeyword "extends" = true ∨ t.value.isKeyword "implements" = true := by
  have hclause (c : BaseClause d) (ht : t ∈ c.tokens) :
      t = c.mark ∨ t.kind = .identifier ∨ t.value.isSeparator "," = true := by
    simp only [BaseClause.tokens, List.mem_cons, List.mem_flatMap, List.not_mem_nil, or_false] at ht
    rcases ht with rfl | rfl | ⟨m, hm, rfl | rfl⟩
    · exact .inl rfl
    · exact .inr (.inl c.first.isIdentifier)
    · exact .inr (.inr (c.commas m hm))
    · exact .inr (.inl m.2.isIdentifier)
  cases b with
  | none => exact absurd ht List.not_mem_nil
  | colon c _ _ hmark => rcases hclause c ht with rfl | h | h <;> simp [*]
  | interfaces c _ _ hmark => rcases hclause c ht with rfl | h | h <;> simp [*]
  | classes e c _ _ hextended himplemented =>
      rcases List.mem_append.1 ht with ht | ht
      · obtain ⟨x, hx, ht⟩ := List.mem_flatMap.1 ht
        have hmark := (hextended x (Option.mem_toList.1 hx)).1
        rcases hclause x ht with rfl | h | h <;> simp [*]
      · obtain ⟨x, hx, ht⟩ := List.mem_flatMap.1 ht
        have hmark := himplemented x (Option.mem_toList.1 hx)
        rcases hclause x ht with rfl | h | h <;> simp [*]

/-- The search for a keyword passes over the tokens of base types, and they hold no comment, no
block and no angle bracket. -/
theorem BaseList.passed (b : BaseList d kind) {t : TokenTree} (ht : t ∈ b.tokens) :
    (isBarrier t.value = false ∧ d.language.marks .block t.value = false) ∧
      t.kind ≠ .comment ∧ t.kind ≠ .block ∧ t.value.isOperator "<" = false := by
  have hword (word : String) (hword : t.value.isKeyword word = true)
      (hhas : d.language.has .block word = false) :
      (isBarrier t.value = false ∧ d.language.marks .block t.value = false) ∧
        t.kind ≠ .comment ∧ t.kind ≠ .block ∧ t.value.isOperator "<" = false := by
    have hkind : t.kind = .keyword := Token.kind_of_isKeyword hword
    have hmarks : d.language.marks .block t.value = false := by
      rw [Language.marks, Token.text_of_isKeyword hword, hhas, Bool.and_false]
    have hangle : t.kind ≠ .operator := by rw [hkind]; decide
    refine ⟨⟨isBarrier_of_kind ?_ ?_, hmarks⟩, ?_, ?_, Token.isOperator_eq_false hangle "<"⟩ <;>
      rw [hkind] <;> decide
  rcases b.mem_tokens ht with h | h | h | h | h
  · have hangle : t.kind ≠ .operator := by rw [h]; decide
    refine ⟨⟨isBarrier_of_kind ?_ ?_, Language.marks_eq_false ?_⟩, ?_, ?_,
      Token.isOperator_eq_false hangle "<"⟩ <;> rw [h] <;> decide
  · have hkind : t.kind = .separator := Token.kind_of_isSeparator h
    have hblock : t.kind ≠ .block := by rw [hkind]; decide
    have hangle : t.kind ≠ .operator := by rw [hkind]; decide
    have hbarrier : isBarrier t.value = false := by
      rw [isBarrier, Token.isSeparator_ne h (by decide), Token.isBlock_eq_false hblock]
      rfl
    refine ⟨⟨hbarrier, Language.marks_eq_false ?_⟩, ?_, hblock,
      Token.isOperator_eq_false hangle "<"⟩ <;> rw [hkind] <;> decide
  · have hkind : t.kind = .operator := Token.kind_of_isOperator h
    refine ⟨⟨isBarrier_of_kind ?_ ?_, Language.marks_eq_false ?_⟩, ?_, ?_,
      Token.isOperator_ne h (by decide)⟩ <;> rw [hkind] <;> decide
  · exact hword "extends" h (by cases d.language <;> rfl)
  · exact hword "implements" h (by cases d.language <;> rfl)

/-- The head that is read. -/
def WrittenHead.head (h : WrittenHead d) : Head where
  kind := h.kind
  keyword := h.word.text
  name := h.nameParts
  typeParams := []
  extended? := (h.bases.split h.word.text).1
  implemented := (h.bases.split h.word.text).2
  modifiers := h.leads.flatMap (·.modifiers)
  annotations := h.leads.flatMap (·.annotations)
  comments := h.leads.flatMap (·.comments)
  position := h.word.span.start

/-- Behind the name there are neither type parameters nor the parameters of a class. -/
theorem BaseList.behind (b : BaseList d kind) :
    readTypeParamsAfter [] b.tokens = some ([], b.tokens) ∧ dropParens kind b.tokens = b.tokens := by
  cases htokens : b.tokens with
  | nil => exact ⟨rfl, rfl⟩
  | cons t ts =>
      obtain ⟨-, -, hblock, hangle⟩ := b.passed (htokens ▸ List.mem_cons_self)
      refine ⟨?_, ?_⟩
      · rw [readTypeParamsAfter, hangle, if_neg Bool.false_ne_true]
      · rw [dropParens, Token.isBlock_eq_false hblock, Bool.and_false, if_neg Bool.false_ne_true]

/-- A written head is read from its keyword. -/
theorem WrittenHead.readAt (h : WrittenHead d) (hexact : h.Exact) {before : List TokenTree}
    (hstop : Stops before) :
    (Head.readAt d.language h.kind h.word (h.name :: h.bases.tokens)
      (h.leadTokens.reverse ++ before)).1 = some h.head := by
  have hcomments : (h.name :: h.bases.tokens).filter (·.kind != .comment) =
      h.name :: h.bases.tokens := by
    refine List.filter_eq_self.2 (List.forall_mem_cons.2 ⟨by rw [h.isName]; rfl, ?_⟩)
    intro t ht
    exact bne_iff_ne.2 (h.bases.passed ht).2.1
  have hnil (groups : List BaseGroup) : readBases d.language groups [] = (some groups, []) := rfl
  obtain ⟨groups, hread, hsplit⟩ := readBases_list h.bases h.word.text hexact.unending hnil
  rw [List.append_nil] at hread
  rw [Head.readAt, hcomments]
  simp only [h.readName, h.bases.behind.1, h.bases.behind.2, hread, hsplit]
  rw [WrittenHead.leadTokens, readLead_leads h.leads _ hstop]
  simp [WrittenHead.head]

/-- A token that introduces declarations is a keyword. -/
theorem kind_of_introduces {l : Language} {t : TokenTree} (h : kind? l t.value = some kind) :
    t.kind = .keyword := by
  cases hmarks : l.marks .block t.value with
  | false =>
      rw [kind?_eq_none hmarks] at h
      cases h
  | true => exact Language.kind_of_marks hmarks

/-- The search ends at the keyword of a head. -/
theorem search_found {l : Language} {t : TokenTree} {between before : List TokenTree} {head : Head}
    (h : kind? l t.value = some kind)
    (hread : (Head.readAt l kind t between before).1 = some head) :
    (Head.search l between (t :: before)).1 = some head := by
  have hkeyword := kind_of_introduces h
  have hbarrier : isBarrier t.value = false :=
    isBarrier_of_kind (by rw [hkeyword]; decide) (by rw [hkeyword]; decide)
  rw [Head.search, hbarrier, if_neg Bool.false_ne_true, h]
  rcases hfound : Head.readAt l kind t between before with ⟨_ | head, malformed⟩
  · rw [hfound] at hread
    cases hread
  · rw [hfound] at hread
    dsimp only
    rw [hfound]
    exact hread

/-- The search backwards from the body finds the written head. -/
theorem WrittenHead.search (h : WrittenHead d) (hexact : h.Exact) {before : List TokenTree}
    (hstop : Stops before) :
    (Head.search d.language [] (h.tokens.reverse ++ before)).1 = some h.head := by
  have hskip : ∀ x ∈ h.name :: h.bases.tokens,
      isBarrier x.value = false ∧ d.language.marks .block x.value = false := by
    refine List.forall_mem_cons.2 ⟨⟨?_, ?_⟩, fun x hx => (h.bases.passed hx).1⟩
    · exact isBarrier_of_kind (by rw [h.isName]; decide) (by rw [h.isName]; decide)
    · exact Language.marks_eq_false (by rw [h.isName]; decide)
  have hheadless : Headless d.language (h.name :: h.bases.tokens) [] :=
    headless_of_keywordless fun x hx => (hskip x hx).2
  rw [WrittenHead.tokens, List.reverse_append, List.reverse_cons, List.append_assoc,
    List.append_assoc, List.singleton_append, search_skip (fun x hx => (hskip x hx).1) hheadless,
    List.append_nil]
  exact search_found h.introduces (h.readAt hexact hstop)

end Forest

end Outline
