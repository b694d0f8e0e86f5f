import Outline.Proofs.Import.Reading

/-!
# Import statements are read as they are written

* `NamespaceImport.read`, `ModuleImport.read` — a statement in front of other tokens.
* `Import.ofTokens_of_importRun` — the statements in a run of tokens.
-/

namespace Outline

open ImportMachine

variable {l : Language}

/-! ## Imports from namespaces -/

/-- The last part of a dotted name is split off where it stands for a member. -/
theorem DottedName.splitTarget (name : DottedName) (namesMember : Bool) :
    ImportDraft.splitTarget namesMember name.text =
      let listed := namesMember && !name.qualifier.isEmpty
      (if listed then name.qualifier else name.parts, if listed then [name.last] else []) := by
  have hparts : Text.dottedParts name.text = name.parts :=
    Text.dottedParts_dotted (by simp [DottedName.parts]) name.plain
  have hlength : decide (1 < name.parts.length) = !name.qualifier.isEmpty := by
    cases h : name.qualifier <;> simp [DottedName.parts, h]
  rw [ImportDraft.splitTarget, hparts, hlength]
  dsimp only
  split <;> simp [DottedName.parts]

theorem ImportMachine.imports_namespace {m n : ImportMachine} {t : TokenTree} {kind : TokenKind}
    (hl : l ≠ .typescript) (hkind : t.kind = kind) (h : acceptNamespace l m t.value = .take n)
    (hcode : kind ≠ .comment) (hwaiting : n.isWaiting = true) (ts : List TokenTree) :
    imports l m (t :: ts) = imports l n ts :=
  imports_cons ((accept_namespace hl (ne_of_eq_of_ne hkind hcode)).trans h) hwaiting

namespace NamespaceImport

variable (s : NamespaceImport l) (hl : l ≠ .typescript) (d : ImportDraft) (ts : List TokenTree)

include hl

/-- The keywords. -/
theorem read_keywords :
    imports l idle (s.keyword :: s.static?.toList ++ ts) =
      imports l (.keyword { isStatic := s.static?.isSome }) ts := by
  have hkeyword : acceptNamespace l idle s.keyword.value = .take (.keyword {}) :=
    if_pos s.introduces
  rw [List.cons_append, imports_namespace hl (Token.kind_of_isKeyword s.introduces) hkeyword
    (by decide) rfl]
  cases hstatic : s.static? with
  | none => rfl
  | some t =>
      have ht := s.isStatic t hstatic
      refine imports_namespace hl (Token.kind_of_isKeyword ht) ?_ (by decide) rfl ts
      simp [acceptNamespace, ht]

/-- The name behind the keywords, with the alias in front of it. -/
theorem read_target (halias : d.alias? = none) (htarget : d.target? = none) :
    imports l (.keyword d) (s.alias?.elim [] (fun a => [a.1, a.2]) ++ s.target :: ts) =
      imports l (.afterTarget { d with
        target? := some s.target.text, alias? := s.alias?.map (·.1.text) }) ts := by
  have hname {t : TokenTree} (ht : t.kind = .identifier) :
      acceptNamespace l (.keyword d) t.value =
        .take (.afterTarget { d with target? := some t.text }) := by
    have hstatic : t.value.isKeyword "static" = false :=
      Token.isKeyword_eq_false (ne_of_eq_of_ne ht (by decide)) _
    simp [acceptNamespace, hstatic, show t.value.kind = .identifier from ht]
  cases h : s.alias? with
  | none =>
      rw [Option.map_none, ← halias]
      exact imports_namespace hl s.isTarget (hname s.isTarget) (by decide) rfl ts
  | some a =>
      obtain ⟨rfl, hidentifier, hequals⟩ := s.isAlias a h
      have hstop : a.2.value.isSeparator ";" = false :=
        Token.isSeparator_eq_false (ne_of_eq_of_ne (Token.kind_of_isOperator hequals) (by decide)) _
      have htarget' : s.target.value.kind = .identifier := s.isTarget
      rw [Option.elim_some, List.cons_append, List.singleton_append,
        imports_namespace hl hidentifier (hname hidentifier) (by decide) rfl,
        imports_namespace hl (n := .aliasTarget { d with alias? := some a.1.text })
          (Token.kind_of_isOperator hequals) ?_ (by decide) rfl,
        imports_namespace hl s.isTarget (n := .afterTarget { d with
          target? := some s.target.text, alias? := some a.1.text }) ?_ (by decide) rfl,
        Option.map_some]
      · simp [acceptNamespace, htarget']
      · simp [acceptNamespace, hstop, hequals, halias, htarget]

/-- The mark behind the name that imports all members. -/
theorem read_wildcard (hwildcard : d.hasWildcard = false) :
    imports l (.afterTarget d) (s.wildcard?.elim [] (fun w => [w.1, w.2]) ++ ts) =
      imports l (.afterTarget { d with hasWildcard := s.wildcard?.isSome }) ts := by
  cases h : s.wildcard? with
  | none => rw [Option.isSome_none, ← hwildcard]; rfl
  | some w =>
      obtain ⟨rfl, hdot, hstar⟩ := s.isWildcard w h
      have hstop : w.1.value.isSeparator ";" = false :=
        Token.isSeparator_eq_false (ne_of_eq_of_ne (Token.kind_of_isOperator hdot) (by decide)) _
      rw [Option.elim_some, List.cons_append, List.singleton_append,
        imports_namespace hl (n := .wildcard d) (Token.kind_of_isOperator hdot) ?_ (by decide) rfl,
        imports_namespace hl (n := .afterTarget { d with hasWildcard := true })
          (Token.kind_of_isOperator hstar) ?_ (by decide) rfl]
      · rfl
      · simp [acceptNamespace, hstar]
      · simp [acceptNamespace, hstop, hdot, hwildcard]

/-- The statement in front of other tokens. -/
theorem read (name : DottedName) (hname : s.target.text = name.text) :
    imports l idle (s.tokens ++ ts) = s.imported name :: imports l idle ts := by
  have hstop (d : ImportDraft) : imports l (.afterTarget d) (s.stop :: ts) =
      ended l (some d) ++ imports l idle ts := by
    refine imports_cons_of_complete ?_
    rw [accept_namespace hl (ne_of_eq_of_ne (Token.kind_of_isSeparator s.ends) (by decide))]
    simp [acceptNamespace, s.ends]
  rw [tokens]
  simp only [List.append_assoc, List.cons_append, List.nil_append]
  rw [← List.cons_append, read_keywords s hl, read_target s hl _ _ rfl rfl,
    read_wildcard s hl _ _ rfl, hstop]
  simp [ended, ImportDraft.import?, imported, namesMember, hname, name.splitTarget]

end NamespaceImport

/-! ## Names in braces -/

namespace TokenTree

theorem commaGroupsFrom_code (group ts : List TokenTree) :
    commaGroupsFrom group (code ts) = commaGroupsFrom group ts := by
  induction ts generalizing group with
  | nil => rfl
  | cons t ts ih =>
      by_cases ht : t.kind = .comment
      · have hcomma : t.value.isSeparator "," = false :=
          Token.isSeparator_eq_false (ne_of_eq_of_ne ht (by decide)) ","
        rw [code_cons_of_comment ht, ih, commaGroupsFrom, hcomma, beq_iff_eq.2 ht]
        rfl
      · rw [code_cons_of_ne ht, commaGroupsFrom, commaGroupsFrom, ih, ih, ih]

/-- Comments are in no group. -/
theorem commaGroups_code (ts : List TokenTree) : commaGroups (code ts) = commaGroups ts := by
  rw [commaGroups, commaGroupsFrom_code, ← commaGroups]

theorem commaGroupsFrom_concat (group ts : List TokenTree) {comma : TokenTree}
    (h : comma.value.isSeparator "," = true) :
    commaGroupsFrom group (ts ++ [comma]) = commaGroupsFrom group ts ++ [[]] := by
  induction ts generalizing group with
  | nil => simp [commaGroupsFrom, h]
  | cons t ts ih =>
      rw [List.cons_append, commaGroupsFrom, commaGroupsFrom, ih, ih, ih]
      split
      · rfl
      · split <;> rfl

/-- A comma at the end starts no group. -/
theorem commaGroups_concat (ts : List TokenTree) {comma : TokenTree}
    (h : comma.value.isSeparator "," = true) : commaGroups (ts ++ [comma]) = commaGroups ts := by
  rw [commaGroups, commaGroupsFrom_concat _ _ h, List.filter_append, ← commaGroups]
  exact List.append_nil _

end TokenTree

open TokenTree (Inside inside_of_kind)

namespace ListedName

theorem inside (n : ListedName) {t : TokenTree} (ht : t ∈ n.tokens) : Inside t := by
  have hword {t : TokenTree} (ht : t.kind = .identifier) : Inside t :=
    inside_of_kind (ne_of_eq_of_ne ht (by decide)) (ne_of_eq_of_ne ht (by decide))
  simp only [tokens, List.mem_append, Option.mem_toList, List.mem_cons] at ht
  rcases ht with ht | rfl | ht
  · exact hword (n.isType t ht).identifier
  · exact hword n.isName.identifier
  · cases h : n.alias? with
    | none => simp [h] at ht
    | some a =>
        obtain ⟨has, hname⟩ := n.isAlias a h
        simp only [h, Option.elim_some, List.mem_cons, List.not_mem_nil, or_false] at ht
        rcases ht with rfl | rfl
        · have hkind := Token.kind_of_isKeyword has
          exact inside_of_kind (ne_of_eq_of_ne hkind (by decide)) (ne_of_eq_of_ne hkind (by decide))
        · exact hword hname

/-- The name in its group is the first identifier that is not the word in front of types. -/
theorem find? (n : ListedName) :
    n.tokens.find? (fun t => t.kind == .identifier && t.text != "type") = some n.name := by
  cases h : n.type? with
  | none => simp [tokens, h, n.isName.identifier, n.isName.ne_type]
  | some t => simp [tokens, h, n.isName.identifier, n.isName.ne_type, (n.isType t h).text_eq]

end ListedName

/-- The names in braces are found. -/
theorem NameBlock.listedNames (names : NameBlock) :
    ImportMachine.listedNames names.block = names.list.map (·.name.text) := by
  have hgroups : TokenTree.commaGroups names.block.children = names.list.map (·.tokens) := by
    have hinside : TokenTree.commaGroups names.inside = names.list.map (·.tokens) := by
      refine TokenTree.commaGroups_separated names.separated ?_ ?_
      · intro g hg
        obtain ⟨n, -, rfl⟩ := List.mem_map.1 hg
        simp [ListedName.tokens]
      · intro g hg t ht
        obtain ⟨n, -, rfl⟩ := List.mem_map.1 hg
        exact n.inside ht
    rw [← TokenTree.commaGroups_code, names.holds]
    cases h : names.comma? with
    | none => simpa using hinside
    | some comma => exact (TokenTree.commaGroups_concat _ (names.isComma comma h)).trans hinside
  rw [ImportMachine.listedNames, hgroups, List.filterMap_map, ← List.filterMap_eq_map]
  congr 1
  funext n
  exact congrArg (Option.map (·.text)) n.find?

/-! ## Imports of modules -/

theorem ImportMachine.imports_module {m n : ImportMachine} {t : TokenTree} {kind : TokenKind}
    (hkind : t.kind = kind) (h : acceptModule m t = .take n) (hcode : kind ≠ .comment)
    (hwaiting : n.isWaiting = true) (ts : List TokenTree) :
    imports .typescript m (t :: ts) = imports .typescript n ts :=
  imports_cons ((accept_module (ne_of_eq_of_ne hkind hcode)).trans h) hwaiting

section

variable (d : ImportDraft) (ts : List TokenTree)

theorem IsTypeWord.read {t : TokenTree} (h : IsTypeWord t) :
    imports .typescript (.clause d) (t :: ts) = imports .typescript (.clause d) ts := by
  have hkind : t.value.kind = .identifier := h.identifier
  refine imports_module h.identifier ?_ (by decide) rfl ts
  rw [acceptModule, Token.isBlock_eq_false (ne_of_eq_of_ne hkind (by decide)),
    Token.isOperator_eq_false (ne_of_eq_of_ne hkind (by decide))]
  simp [h.identifier, h.text_eq]

theorem IsImportedName.read {t : TokenTree} (h : IsImportedName t) :
    imports .typescript (.clause d) (t :: ts) =
      imports .typescript (.afterClause { d with names := d.names ++ [t.text] }) ts := by
  have hkind : t.value.kind = .identifier := h.identifier
  refine imports_module h.identifier ?_ (by decide) rfl ts
  rw [acceptModule, Token.isBlock_eq_false (ne_of_eq_of_ne hkind (by decide)),
    Token.isOperator_eq_false (ne_of_eq_of_ne hkind (by decide))]
  simp [h.identifier, h.ne_type]

theorem NameBlock.read (names : NameBlock) :
    imports .typescript (.clause d) (names.block :: ts) =
      imports .typescript
        (.afterClause { d with names := d.names ++ names.list.map (·.name.text) }) ts := by
  refine imports_module (Token.kind_of_isBlock names.isBlock) ?_ (by decide) rfl ts
  rw [acceptModule, if_pos names.isBlock, names.listedNames]

/-- What is brought into scope. -/
theorem ImportClause.read (c : ImportClause) (halias : d.alias? = none) :
    imports .typescript (.clause d) (c.tokens ++ ts) =
      imports .typescript
        (.afterClause { d with names := d.names ++ c.names, alias? := c.alias? }) ts := by
  have hcomma (d : ImportDraft) {comma : TokenTree} (h : comma.value.isSeparator "," = true)
      (ts : List TokenTree) : imports .typescript (.afterClause d) (comma :: ts) =
        imports .typescript (.clause d) ts :=
    imports_module (Token.kind_of_isSeparator h) (by rw [acceptModule, if_pos h]) (by decide) rfl ts
  cases c with
  | default name isName => 
      rw [ImportClause.alias?, ← halias]
      exact isName.read d ts
  | listed names =>
      rw [ImportClause.alias?, ← halias]
      exact names.read d ts
  | both name comma names isName isComma =>
      simp only [tokens, List.cons_append, List.nil_append]
      rw [isName.read, hcomma _ isComma, names.read, List.append_assoc, ImportClause.alias?,
        ← halias]
      rfl
  | all star word name isStar isAs isName =>
      simp only [tokens, List.cons_append, List.nil_append]
      rw [imports_module (n := .moduleAlias d) (Token.kind_of_isOperator isStar) ?_ (by decide)
          rfl,
        imports_module (n := .moduleAlias d) (Token.kind_of_isKeyword isAs)
          (by rw [acceptModule, if_pos isAs]) (by decide) rfl,
        imports_module (n := .afterClause { d with alias? := some name.text }) isName ?_
          (by decide) rfl, ImportClause.names, List.append_nil, ImportClause.alias?]
      · rw [acceptModule, Token.isKeyword_eq_false (ne_of_eq_of_ne isName (by decide))]
        simp [isName]
      · rw [acceptModule, Token.isBlock_eq_false
          (ne_of_eq_of_ne (Token.kind_of_isOperator isStar) (by decide))]
        simp [isStar]

end

/-- The quotes of each literal are found again. -/
theorem TypeScript.not_isMisread {opening inner closing : List Char}
    (h : strings.IsLiteral opening inner closing) : ¬ Text.IsMisread opening inner := by
  cases h with
  | quoted => simp [Text.IsMisread]
  | template => simp [Text.IsMisread]
  | interpolated accepted => cases accepted
  | verbatim accepted => cases accepted
  | textBlock accepted => cases accepted

namespace ModuleImport

variable (s : ModuleImport) (ts : List TokenTree)

/-- The name of the file stands between the quotes. -/
theorem unquote_file : Text.unquote s.file.text = String.ofList s.source :=
  (Text.unquote_iff_of_isLiteral (l := .typescript) s.literal s.spelled).2
    (TypeScript.not_isMisread s.literal)

/-- The file, with the semicolon behind it. -/
theorem read_file {m : ImportMachine} (d : ImportDraft)
    (h : acceptModule m s.file = .take (.ending { d with
      module? := some (Text.unquote s.file.text) })) :
    imports .typescript m (s.file :: s.stop?.toList ++ ts) =
      ended .typescript (some { d with module? := some (String.ofList s.source) }) ++
        imports .typescript idle ts := by
  rw [List.cons_append, imports_module s.isFile h (by decide) rfl, imports_ending _ _ _ rfl,
    s.unquote_file]
  congr 1
  cases hstop : s.stop? with
  | none => rfl
  | some t =>
      refine imports_idle_of_not_keyword ?_
      exact Token.isKeyword_eq_false
        (ne_of_eq_of_ne (Token.kind_of_isSeparator (s.ends t hstop)) (by decide)) _

/-- The statement in front of other tokens. -/
theorem read : imports .typescript idle (s.tokens ++ ts) =
    s.imported :: imports .typescript idle ts := by
  have hkeyword : acceptModule idle s.keyword = .take (.clause {}) := if_pos s.introduces
  have htype (ts : List TokenTree) : imports .typescript (.clause {}) (s.type?.toList ++ ts) =
      imports .typescript (.clause {}) ts := by
    cases h : s.type? with
    | none => rfl
    | some t => exact (s.isType t h).read {} ts
  rw [tokens]
  simp only [List.append_assoc, List.cons_append]
  rw [imports_module (Token.kind_of_isKeyword s.introduces) hkeyword (by decide) rfl, htype]
  cases h : s.clause? with
  | none =>
      have hfile : acceptModule (.clause {}) s.file =
          .take (.ending { module? := some (Text.unquote s.file.text) }) := by
        have hkind : s.file.value.kind = .string := s.isFile
        rw [acceptModule, Token.isBlock_eq_false (ne_of_eq_of_ne hkind (by decide)),
          Token.isOperator_eq_false (ne_of_eq_of_ne hkind (by decide))]
        simp [s.isFile]
      rw [Option.elim_none, List.nil_append, ← List.cons_append, s.read_file _ {} hfile]
      simp [ended, ImportDraft.import?, imported, h]
  | some c =>
      obtain ⟨hkind, htext⟩ := s.isFrom c h
      have hcomma : c.2.value.isSeparator "," = false :=
        Token.isSeparator_eq_false (ne_of_eq_of_ne hkind (by decide)) _
      have hfile (d : ImportDraft) : acceptModule (.file d) s.file =
          .take (.ending { d with module? := some (Text.unquote s.file.text) }) := by
        simp [acceptModule, s.isFile]
      rw [Option.elim_some, List.append_assoc, c.1.read _ _ rfl, List.singleton_append,
        imports_module (n := .file { names := [] ++ c.1.names, alias? := c.1.alias? }) hkind ?_
          (by decide) rfl, ← List.cons_append, s.read_file _ _ (hfile _)]
      · simp [ended, ImportDraft.import?, imported, h]
      · simp [acceptModule, hcomma, hkind, htext]

end ModuleImport

/-! ## Statements -/

/-- A statement in front of other tokens. -/
theorem ImportStatement.read (s : ImportStatement l) (ts : List TokenTree) :
    imports l idle (s.tokens ++ ts) = s.imported :: imports l idle ts := by
  cases s with
  | ofNamespace s name spelled language => exact s.read language ts name spelled
  | ofModule s language =>
      cases language
      exact s.read ts

/-- The statements in a run of tokens are read one by one, and nothing else is. -/
theorem ImportRun.read {statements : List (ImportStatement l)} {ts : List TokenTree}
    (h : ImportRun l statements ts) : imports l idle ts = statements.map (·.imported) := by
  induction h with
  | nil => rfl
  | other plain hrest ih => rw [imports_idle_of_not_keyword plain, ih]
  | @cons s statements ts rest written hrest ih =>
      rw [← imports_code rfl, TokenTree.code_append, written, s.read, imports_code rfl, ih]
      rfl

namespace Import

/-- From a run of tokens in which import statements are written, with comments anywhere in them and
with other tokens between them, the imports that they denote are read, in the same order. -/
theorem ofTokens_of_importRun {statements : List (ImportStatement l)} {ts : List TokenTree}
    (h : ImportRun l statements ts) : ofTokens l ts = statements.map (·.imported) :=
  (ofTokens_eq l ts).trans h.read

open TokenTree (bare)

/-- A statement without a semicolon that holds a comment, another token, and a second statement. -/
theorem ofTokens_of_importRun_module :
    ofTokens .typescript [bare .keyword "import", bare .identifier "type", bare .identifier "D",
        bare .comment "/* d */", bare .separator ",",
        .node ⟨.block, {}, "\x7b"⟩ [bare .identifier "A", bare .keyword "as", bare .identifier "B",
          bare .separator ","], bare .identifier "from", bare .string "'m'", bare .operator "+",
        bare .keyword "import", bare .string "\"n\"", bare .separator ";"] =
      [{ path := [], names := ["D", "A"], module? := some "m" },
        { path := [], module? := some "n" }] := by
  refine @ofTokens_of_importRun _ [
    .ofModule {
      keyword := bare .keyword "import"
      type? := some (bare .identifier "type")
      clause? := some (.both (bare .identifier "D") (bare .separator ",") {
          block := .node ⟨.block, {}, "\x7b"⟩ [bare .identifier "A", bare .keyword "as",
            bare .identifier "B", bare .separator ","]
          list := [{
            name := bare .identifier "A"
            alias? := some (bare .keyword "as", bare .identifier "B")
            isType := by simp, isName := ⟨rfl, by decide⟩, isAlias := by simpa using by decide }]
          inside := [bare .identifier "A", bare .keyword "as", bare .identifier "B"]
          comma? := some (bare .separator ",")
          isBlock := by decide, holds := rfl, separated := .one _
          isComma := by simpa using by decide } ⟨rfl, by decide⟩ (by decide),
        bare .identifier "from")
      file := bare .string "'m'", opening := ['\''], source := ['m'], closing := ['\'']
      introduces := by decide
      isType := by rintro _ ⟨⟩; exact ⟨rfl, rfl⟩
      isFrom := by rintro _ ⟨⟩; exact ⟨rfl, rfl⟩
      isFile := rfl, literal := .quoted (by decide) (.char (by decide) (by decide) rfl .nil)
      spelled := rfl, ends := by simp } rfl,
    .ofModule {
      keyword := bare .keyword "import"
      file := bare .string "\"n\"", stop? := some (bare .separator ";")
      opening := ['"'], source := ['n'], closing := ['"']
      introduces := by decide, isType := by simp, isFrom := by simp, isFile := rfl
      literal := .quoted (by decide) (.char (by decide) (by decide) rfl .nil)
      spelled := rfl, ends := by simpa using by decide } rfl] _ ?_
  exact @ImportRun.cons _ _ _ (_ :: _ :: _ :: _ :: _ :: _ :: _ :: [_]) _ rfl
    (.other (by decide) (@ImportRun.cons _ _ _ [_, _, _] _ rfl .nil))

end Import

end Outline
