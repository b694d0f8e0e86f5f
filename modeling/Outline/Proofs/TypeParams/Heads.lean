import Outline.Proofs.Declaration.ForestReading
import Outline.Proofs.Declaration.Naming
import Outline.Proofs.TypeParams.Lists

/-!
# Type parameters of declarations

The list of type parameters of a declaration is part of the identifier that names it, or it follows
the name.  The search backwards for the keyword of the declaration passes over such a list as long
as no semicolon and no block in braces is in it.

* `Forest.ListedHead` — a head with type parameters.
* `Forest.ListedHead.isBody_iff` — the block behind it is a body exactly if the search can pass.
* `Forest.ListedHead.exists_declaration` — the declaration then has the type parameters.
-/

namespace Outline

namespace Forest

open Head Discovery

/-! ## Heads with type parameters -/

/-- The name of a declaration with a list of type parameters. -/
inductive ListedName (d : Dialect) where
  /-- The list is part of the identifier. -/
  | inside (token : TokenTree) (name : String) (params : List String)
      (isIdentifier : token.kind = .identifier)
      (spelled : d.identifiers.Spells d.maxDepth false token.text.toList
        { name, params := params.map .simple })
      (unmarked : '#' ∉ token.text.toList)
  /-- The list is behind the identifier. -/
  | behind (token opening : TokenTree) (list : List TokenTree) (params : List String)
      (isIdentifier : token.kind = .identifier)
      (plain : d.identifiers.scanName token.text.toList = some token.text.toList.length)
      (unmarked : '#' ∉ token.text.toList) (opens : opening.value.isOperator "<" = true)
      (listed : TypeParamList.Listed params list)

namespace ListedName

variable {d : Dialect}

/-- The tokens. -/
def tokens : ListedName d → List TokenTree
  | inside token _ _ _ _ _ => [token]
  | behind token opening list _ _ _ _ _ _ => token :: opening :: list

/-- The name. -/
def name : ListedName d → String
  | inside _ name _ _ _ _ => name
  | behind token _ _ _ _ _ _ _ _ => token.text

/-- The names of the type parameters. -/
def params : ListedName d → List String
  | inside _ _ params _ _ _ | behind _ _ _ params _ _ _ _ _ => params

/-- The tokens of the list, if they are tokens of their own. -/
def list : ListedName d → List TokenTree
  | inside _ _ _ _ _ _ => []
  | behind _ _ list _ _ _ _ _ _ => list

end ListedName

/-- What stands between the name of a class or an interface and its body: the parameters of a class,
the base types, and what the word that ends the list of them introduces. -/
structure HeadEnd (d : Dialect) (kind : DeclarationKind) where
  /-- The parameters. -/
  parens? : Option TokenTree := none
  /-- The base types. -/
  bases : BaseList d kind := .none
  /-- The rest. -/
  tail : List TokenTree := []
  /-- Only a class has parameters. -/
  isParens : ∀ t ∈ parens?, kind = .classLike ∧ t.value.isBlock '(' = true
  /-- No base type ends the list of them. -/
  unending : ∀ b ∈ bases.names, d.language.baseListEnd? ≠ some b.token.text
  /-- The rest ends it. -/
  ending : ∀ t ∈ tail.head?, t.kind = .identifier ∧ d.language.baseListEnd? = some t.text
  /-- The search passes over the rest. -/
  searched : ∀ t ∈ tail, isBarrier t.value = false ∧ d.language.marks .block t.value = false

/-- The head of a class or an interface with type parameters, from its keyword on. -/
structure ListedHead (d : Dialect) where
  /-- The keyword. -/
  word : TokenTree
  /-- What it introduces. -/
  kind : DeclarationKind
  /-- The name with the type parameters. -/
  name : ListedName d
  /-- What is behind the name. -/
  rest : HeadEnd d kind
  /-- The keyword introduces declarations of the kind. -/
  introduces : Head.kind? d.language word.value = some kind
  /-- They are classes or interfaces. -/
  isType : kind = .classLike ∨ kind = .interfaceLike

variable {d : Dialect} {kind : DeclarationKind}

/-- The tokens. -/
def HeadEnd.tokens (e : HeadEnd d kind) : List TokenTree :=
  e.parens?.toList ++ (e.bases.tokens ++ e.tail)

namespace ListedHead

/-- The tokens. -/
def tokens (h : ListedHead d) : List TokenTree := h.word :: (h.name.tokens ++ h.rest.tokens)

/-- The head that is read, without what stands in front of the keyword. -/
def bare (h : ListedHead d) : Head where
  kind := h.kind
  keyword := h.word.text
  name := Text.dottedParts h.name.name
  typeParams := h.name.params.map .simple
  extended? := (h.rest.bases.split h.word.text).1
  implemented := (h.rest.bases.split h.word.text).2
  position := h.word.span.start

/-- No other head begins inside the list. -/
def Alone (h : ListedHead d) : Prop := Headless d.language h.name.list h.rest.tokens

/-- Neither the end of a statement nor a block in braces is in the list. -/
def Unbarred (h : ListedHead d) : Prop := ∀ t ∈ h.name.list, isBarrier t.value = false

end ListedHead

/-! ## Names -/

/-- An identifier is read with the type parameters that are part of it. -/
theorem readName_of_parse (hkind : kind ≠ .package) {t : TokenTree} (ht : t.kind = .identifier)
    {name : String} {params : List TypeRef}
    (hparse : TypeRef.parse t.text = .ok { name, params }) :
    readName kind t = (some (Text.dottedParts name, params), []) := by
  unfold readName
  rw [ht, hparse]
  cases kind with
  | package => exact absurd rfl hkind
  | _ => rfl

/-- A name with a list of type parameters is read in front of tokens that begin no list. -/
theorem ListedName.read (n : ListedName d) (hkind : kind ≠ .package) {rest : List TokenTree}
    (hrest : ∀ t ∈ (rest.filter (·.kind != .comment)).head?, t.value.isOperator "<" = false) :
    ∃ name between params,
      (n.tokens ++ rest).filter (·.kind != .comment) = name :: between ∧
      readName kind name = (some (Text.dottedParts n.name, params), []) ∧
      readTypeParamsAfter params between =
        some (n.params.map .simple, rest.filter (·.kind != .comment)) := by
  cases n with
  | inside token name params isIdentifier spelled unmarked =>
      have hparse := IdentifierStyle.parse_of_spells d.tame_identifiers spelled fun _ => unmarked
      rw [String.ofList_toList] at hparse
      refine ⟨token, rest.filter (·.kind != .comment), params.map .simple, ?_,
        readName_of_parse hkind isIdentifier hparse, ?_⟩
      · exact List.filter_cons_of_pos (by rw [isIdentifier]; rfl)
      · cases hkept : rest.filter (·.kind != .comment) with
        | nil => rfl
        | cons t ts =>
            rw [hkept] at hrest
            rw [readTypeParamsAfter, hrest t rfl, if_neg Bool.false_ne_true]
            rfl
  | behind token opening list params isIdentifier plain unmarked opens listed =>
      have hparse := d.tame_identifiers.parse_word plain fun _ => unmarked
      have hopening : opening.kind = .operator := Token.kind_of_isOperator opens
      have hsteps := (TypeParamList.steps_listed [] listed).filter
      refine ⟨token, opening :: (list ++ rest).filter (·.kind != .comment), [], ?_,
        readName_of_parse hkind isIdentifier hparse, ?_⟩
      · rw [ListedName.tokens, List.cons_append, List.cons_append,
          List.filter_cons_of_pos (by rw [isIdentifier]; rfl),
          List.filter_cons_of_pos (by rw [hopening]; rfl)]
      · rw [readTypeParamsAfter, if_pos opens, List.filter_append]
        exact readTypeParams_steps hsteps rfl _

/-! ## Behind the name -/

namespace HeadEnd

variable {e : HeadEnd d kind} {t : TokenTree}

/-- The search for a keyword passes over what is behind the name. -/
theorem passed (e : HeadEnd d kind) (ht : t ∈ e.tokens) :
    isBarrier t.value = false ∧ d.language.marks .block t.value = false := by
  rw [tokens, List.mem_append, List.mem_append, Option.mem_toList] at ht
  rcases ht with ht | ht | ht
  · have hblock := (e.isParens t ht).2
    have hkind : t.kind = .block := Token.kind_of_isBlock hblock
    exact ⟨isBarrier_of_isBlock hblock (by decide),
      Language.marks_eq_false (by rw [hkind]; decide)⟩
  · exact (e.bases.passed ht).1
  · exact e.searched t ht

/-- Only behind the base types there may be comments. -/
theorem filter_tokens (e : HeadEnd d kind) : e.tokens.filter (·.kind != .comment) =
    e.parens?.toList ++ (e.bases.tokens ++ e.tail.filter (·.kind != .comment)) := by
  have hparens : e.parens?.toList.filter (·.kind != .comment) = e.parens?.toList := by
    refine List.filter_eq_self.2 fun t ht => ?_
    have hkind : t.kind = .block := Token.kind_of_isBlock (e.isParens t (Option.mem_toList.1 ht)).2
    rw [hkind]
    rfl
  have hbases : e.bases.tokens.filter (·.kind != .comment) = e.bases.tokens :=
    List.filter_eq_self.2 fun t ht => bne_iff_ne.2 (e.bases.passed ht).2.1
  rw [tokens, List.filter_append, List.filter_append, hparens, hbases]

/-- What comes first behind the base types is the word that ends them. -/
theorem head_tail (e : HeadEnd d kind)
    (ht : t ∈ (e.tail.filter (·.kind != .comment)).head?) :
    t.kind = .identifier ∧ d.language.baseListEnd? = some t.text := by
  have hending := e.ending
  cases htail : e.tail with
  | nil =>
      rw [htail] at ht
      exact absurd ht (Option.not_mem_none _)
  | cons x xs =>
      rw [htail] at ht hending
      have hx := hending x rfl
      rw [List.filter_cons_of_pos (by rw [hx.1]; rfl)] at ht
      obtain rfl := Option.some.inj ht
      exact hx

/-- What comes first behind the parameters is no block, and neither is it an angle bracket. -/
theorem head_bases (e : HeadEnd d kind)
    (ht : t ∈ (e.bases.tokens ++ e.tail.filter (·.kind != .comment)).head?) :
    t.kind ≠ .block ∧ t.value.isOperator "<" = false := by
  cases hbases : e.bases.tokens with
  | nil =>
      rw [hbases] at ht
      have hkind := (e.head_tail ht).1
      refine ⟨by rw [hkind]; decide, Token.isOperator_eq_false ?_ "<"⟩
      rw [show t.value.kind = _ from hkind]
      decide
  | cons x xs =>
      rw [hbases] at ht
      obtain rfl := Option.some.inj ht
      exact (e.bases.passed (hbases ▸ List.mem_cons_self)).2.2

/-- No list of type parameters begins behind the name. -/
theorem head_tokens (e : HeadEnd d kind)
    (ht : t ∈ (e.tokens.filter (·.kind != .comment)).head?) : t.value.isOperator "<" = false := by
  rw [e.filter_tokens] at ht
  cases hparens : e.parens? with
  | none =>
      rw [hparens] at ht
      exact (e.head_bases ht).2
  | some x =>
      rw [hparens] at ht
      obtain rfl := Option.some.inj ht
      have hkind := Token.kind_of_isBlock (e.isParens x hparens).2
      exact Token.isOperator_eq_false (by rw [hkind]; decide) "<"

/-- The parameters of a class are dropped. -/
theorem dropParens_tokens (e : HeadEnd d kind) :
    dropParens kind (e.tokens.filter (·.kind != .comment)) =
      e.bases.tokens ++ e.tail.filter (·.kind != .comment) := by
  rw [e.filter_tokens]
  cases hparens : e.parens? with
  | none =>
      rw [Option.toList_none, List.nil_append]
      have hfirst (t : TokenTree) := e.head_bases (t := t)
      cases hrest : e.bases.tokens ++ e.tail.filter (·.kind != .comment) with
      | nil => rfl
      | cons t ts =>
          rw [hrest] at hfirst
          rw [dropParens, Token.isBlock_eq_false (hfirst t rfl).1, Bool.and_false,
            if_neg Bool.false_ne_true]
  | some x =>
      obtain ⟨rfl, hblock⟩ := e.isParens x hparens
      rw [Option.toList_some, List.singleton_append, dropParens, hblock]
      rfl

/-- The base types are read and split as they are written. -/
theorem readBases_tokens (e : HeadEnd d kind) (keyword : String) : ∃ groups,
    readBases d.language [] (dropParens kind (e.tokens.filter (·.kind != .comment))) =
        (some groups, []) ∧
      splitBases d.language kind keyword groups = e.bases.split keyword := by
  rw [e.dropParens_tokens]
  refine readBases_list e.bases keyword e.unending fun groups => ?_
  have hfirst (t : TokenTree) := e.head_tail (t := t)
  cases hrest : e.tail.filter (·.kind != .comment) with
  | nil => rfl
  | cons t ts =>
      rw [hrest] at hfirst
      obtain ⟨hkind, hend⟩ := hfirst t rfl
      have hcomma : t.value.isSeparator "," = false :=
        Token.isSeparator_eq_false (by rw [show t.value.kind = _ from hkind]; decide) ","
      rw [readBases, isInheritance_eq_false d.language (.inl hkind), hcomma, hkind, hend]
      simp

end HeadEnd

/-! ## Heads -/

namespace ListedHead

theorem readAt (h : ListedHead d) (before : List TokenTree) :
    (Head.readAt d.language h.kind h.word (h.name.tokens ++ h.rest.tokens) before).1 =
      some (readLead d.language h.bare before) := by
  have hkind : h.kind ≠ .package := by rcases h.isType with h | h <;> rw [h] <;> decide
  obtain ⟨name, between, params, htokens, hname, hparams⟩ :=
    h.name.read hkind (fun t ht => h.rest.head_tokens ht)
  obtain ⟨groups, hread, hsplit⟩ := h.rest.readBases_tokens h.word.text
  rw [Head.readAt, htokens]
  simp only [hname, hparams, hread, hsplit]
  rfl

/-- Behind the keyword, only tokens of the list can begin a head. -/
theorem headless (h : ListedHead d) (halone : h.Alone) :
    Headless d.language (h.name.tokens ++ h.rest.tokens) [] := by
  have hrest : Headless d.language h.rest.tokens [] :=
    headless_of_keywordless fun t ht => (h.rest.passed ht).2
  have hnone {t : TokenTree} (hkind : t.kind ≠ .keyword) (kind : DeclarationKind) :
      kind? d.language t.value ≠ some kind := by
    rw [kind?_eq_none (Language.marks_eq_false hkind)]
    exact (Option.some_ne_none kind).symm
  refine .append ?_ hrest
  rw [List.append_nil]
  rw [Alone] at halone
  cases hname : h.name with
  | inside token name params isIdentifier _ _ =>
      have hkeyword : token.kind ≠ .keyword := by rw [isIdentifier]; decide
      exact ⟨fun kind hkind => absurd hkind (hnone hkeyword kind), trivial⟩
  | behind token opening list params isIdentifier _ _ opens _ =>
      rw [hname] at halone
      have hkeyword : token.kind ≠ .keyword := by rw [isIdentifier]; decide
      have hopening : opening.kind ≠ .keyword := by
        rw [show opening.kind = _ from Token.kind_of_isOperator opens]
        decide
      exact ⟨fun kind hkind => absurd hkind (hnone hkeyword kind),
        fun kind hkind => absurd hkind (hnone hopening kind), halone⟩

/-- Nor can another token end the search. -/
theorem barrier_iff (h : ListedHead d) :
    (∀ t ∈ h.name.tokens ++ h.rest.tokens, isBarrier t.value = false) ↔ h.Unbarred := by
  have hrest : ∀ t ∈ h.rest.tokens, isBarrier t.value = false := fun t ht => (h.rest.passed ht).1
  have hother {t : TokenTree} (hkind : t.kind = .identifier ∨ t.kind = .operator) :
      isBarrier t.value = false := by
    refine isBarrier_of_kind ?_ ?_ <;> rcases hkind with hkind | hkind <;> rw [hkind] <;> decide
  rw [List.forall_mem_append, and_iff_left hrest, Unbarred]
  cases h.name with
  | inside token name params isIdentifier _ _ =>
      rw [ListedName.tokens, ListedName.list, List.forall_mem_singleton]
      exact iff_of_true (hother (.inl isIdentifier)) (List.forall_mem_nil _)
  | behind token opening list params isIdentifier _ _ opens _ =>
      have hopening := hother (t := opening) (.inr (Token.kind_of_isOperator opens))
      rw [ListedName.tokens, ListedName.list, List.forall_mem_cons, List.forall_mem_cons,
        and_iff_right (hother (.inl isIdentifier)), and_iff_right hopening]

/-- If nothing in the list ends the search, it finds the head. -/
theorem search (h : ListedHead d) (halone : h.Alone) (hunbarred : h.Unbarred)
    (before : List TokenTree) :
    (Head.search d.language [] (h.tokens.reverse ++ before)).1 =
      some (readLead d.language h.bare before) := by
  rw [tokens, List.reverse_cons, List.append_assoc, List.singleton_append,
    search_skip (h.barrier_iff.2 hunbarred) (h.headless halone), List.append_nil]
  exact search_found h.introduces (h.readAt before)

/-- Otherwise it finds nothing. -/
theorem search_eq_none (h : ListedHead d) (halone : h.Alone) (hbarred : ¬ h.Unbarred)
    (before : List TokenTree) :
    (Head.search d.language [] (h.tokens.reverse ++ before)).1 = none := by
  have hbarrier : ∃ t ∈ h.name.tokens ++ h.rest.tokens, isBarrier t.value = true := by
    by_contra hnone
    refine hbarred (h.barrier_iff.1 fun t ht => Bool.eq_false_iff.2 fun hbarrier => hnone ?_)
    exact ⟨t, ht, hbarrier⟩
  rw [tokens, List.reverse_cons, List.append_assoc, search_barred hbarrier (h.headless halone)]

variable {before : List TokenTree} {document : TokenTree} {p : Site}

/-- The block behind the head is the body of a declaration exactly if nothing in the list ends the
search. -/
theorem isBody_iff (h : ListedHead d) (halone : h.Alone)
    (hblock : p.own.block.value.isBlock '\x7b' = true)
    (hbefore : p.own.before = h.tokens.reverse ++ before) :
    p.isBody d.language = true ↔ h.Unbarred := by
  rw [Site.isBody, SitedBlock.head?, if_pos hblock, hbefore]
  by_cases hunbarred : h.Unbarred
  · rw [h.search halone hunbarred]
    exact iff_of_true rfl hunbarred
  · rw [h.search_eq_none halone hunbarred]
    exact iff_of_false Bool.false_ne_true hunbarred

/-- The declaration has the name, the type parameters and the base types that are written. -/
theorem exists_declaration (h : ListedHead d) (halone : h.Alone) (hunbarred : h.Unbarred)
    (hp : p ∈ Site.all document) (hblock : p.own.block.value.isBlock '\x7b' = true)
    (hbefore : p.own.before = h.tokens.reverse ++ before) :
    ∃ x ∈ (ofDocument d.language document).declarations, ∃ outer,
      x.body = p.own.block ∧ x.declaration.fullName = outer ++ Text.dottedParts h.name.name ∧
        x.declaration.kind = h.kind ∧ x.declaration.keyword = h.word.text ∧
        x.declaration.typeParams = h.name.params.map .simple ∧
        x.declaration.extended? = (h.rest.bases.split h.word.text).1 ∧
        x.declaration.implemented = (h.rest.bases.split h.word.text).2 ∧
        x.declaration.position = h.word.span.start := by
  have hhead : p.own.head? d.language = some (readLead d.language h.bare before) := by
    rw [SitedBlock.head?, if_pos hblock, hbefore, h.search halone hunbarred]
  obtain ⟨x, hx, hheading⟩ := Discovery.exists_declaration hp hhead
  obtain ⟨modifiers, annotations, comments, hlead⟩ := readLead_eq d.language h.bare before
  have hparts : p.own.nameParts d.language = Text.dottedParts h.name.name := by
    rw [SitedBlock.nameParts, hhead, hlead]
    rfl
  obtain ⟨outer, houter⟩ := p.fullName_eq d.language
  rw [hparts] at houter
  rw [hlead] at hheading
  refine ⟨x, hx, outer, congrArg (·.body) hheading, ?_, congrArg (·.kind) hheading,
    congrArg (·.keyword) hheading, congrArg (·.typeParams) hheading,
    congrArg (·.extended?) hheading, congrArg (·.implemented) hheading,
    congrArg (·.position) hheading⟩
  exact (congrArg (·.fullName) hheading).trans houter

end ListedHead

end Forest

end Outline
