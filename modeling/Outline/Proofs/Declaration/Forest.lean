import Outline.Proofs.Declaration.Bodiless
import Outline.Proofs.Declaration.Headings
import Outline.Proofs.Declaration.Malformed
import Outline.Proofs.Written.Grammar

/-!
# Forests of declarations

Declarations with their bodies as they are written, side by side and one inside the other, between
statements and blocks that declare nothing.  Every part is given by its tokens together with what
makes it such a part.

* `Forest.WrittenHead` — what stands in front of a body.
* `Forest.Item` — a declaration with its body, or tokens up to the end of a statement or of a block.
* `Forest.treesAll` — the tokens of a forest.
* `Forest.headingsAll` — the declarations of a forest, each before those inside it.
-/

namespace Outline

namespace Forest

/-! ## Base types -/

/-- A base type that is written as an identifier. -/
structure BaseName (d : Dialect) where
  /-- The token. -/
  token : TokenTree
  /-- It is an identifier. -/
  isIdentifier : token.kind = .identifier
  /-- The recognizer of identifiers reads all of it. -/
  scanned : d.identifiers.scan token.text.toList = some token.text.toList.length
  /-- It has no number sign. -/
  unmarked : '#' ∉ token.text.toList

/-- The type that the identifier names. -/
def BaseName.ref {d : Dialect} (b : BaseName d) : TypeRef :=
  (TypeRef.parse b.token.text).toOption.getD (.simple b.token.text)

/-- Base types behind the token that introduces them. -/
structure BaseClause (d : Dialect) where
  /-- The token that introduces them. -/
  mark : TokenTree
  /-- The first one. -/
  first : BaseName d
  /-- The others, each behind its comma. -/
  more : List (TokenTree × BaseName d) := []
  /-- The commas. -/
  commas : ∀ m ∈ more, m.1.value.isSeparator "," = true

namespace BaseClause

variable {d : Dialect}

/-- The base types. -/
def names (c : BaseClause d) : List (BaseName d) := c.first :: c.more.map (·.2)

/-- The tokens. -/
def tokens (c : BaseClause d) : List TokenTree :=
  c.mark :: c.first.token :: c.more.flatMap fun m => [m.1, m.2.token]

/-- The types. -/
def refs (c : BaseClause d) : List TypeRef := c.names.map (·.ref)

end BaseClause

/-- The base types of a declaration of the given kind. -/
inductive BaseList (d : Dialect) (kind : DeclarationKind) where
  /-- There is none. -/
  | none
  /-- Those of C#, behind a colon. -/
  | colon (clause : BaseClause d) (hl : d.language = .csharp)
      (hkind : kind = .classLike ∨ kind = .interfaceLike)
      (hmark : clause.mark.value.isOperator ":" = true)
  /-- The interfaces that an interface extends. -/
  | interfaces (clause : BaseClause d) (hl : d.language ≠ .csharp) (hkind : kind = .interfaceLike)
      (hmark : clause.mark.value.isKeyword "extends" = true)
  /-- The class that a class extends and the interfaces that it implements. -/
  | classes (extended? implemented? : Option (BaseClause d)) (hl : d.language ≠ .csharp)
      (hkind : kind = .classLike)
      (hextended : ∀ c ∈ extended?, c.mark.value.isKeyword "extends" = true ∧ c.more = [])
      (himplemented : ∀ c ∈ implemented?, c.mark.value.isKeyword "implements" = true)

namespace BaseList

variable {d : Dialect} {kind : DeclarationKind}

/-- The tokens. -/
def tokens : BaseList d kind → List TokenTree
  | none => []
  | colon c _ _ _ | interfaces c _ _ _ => c.tokens
  | classes e c _ _ _ _ => e.toList.flatMap (·.tokens) ++ c.toList.flatMap (·.tokens)

/-- The base types. -/
def names : BaseList d kind → List (BaseName d)
  | none => []
  | colon c _ _ _ | interfaces c _ _ _ => c.names
  | classes e c _ _ _ _ => e.toList.flatMap (·.names) ++ c.toList.flatMap (·.names)

/-- The class that is extended and the other base types.  In C# only the first base type of a class
can be one, and it is unless it is named like an interface. -/
def split (keyword : String) : BaseList d kind → Option TypeRef × List TypeRef
  | none => (.none, [])
  | colon c _ _ _ =>
    if kind = .classLike ∧ keyword ≠ "struct" ∧ Head.isInterfaceName c.first.ref.name = false then
      (some c.first.ref, c.more.map (·.2.ref))
    else (.none, c.refs)
  | interfaces c _ _ _ => (.none, c.refs)
  | classes e c _ _ _ _ => (e.map (·.first.ref), c.toList.flatMap (·.refs))

end BaseList

/-! ## Heads -/

/-- What stands in front of the keyword of a declaration. -/
inductive HeadLead (l : Language) where
  /-- A comment or annotations. -/
  | lead (lead : WrittenLead l)
  /-- A modifier. -/
  | modifier (token : TokenTree) (isModifier : l.marks .classModifier token.value = true)

namespace HeadLead

variable {l : Language}

/-- The tokens. -/
def tokens : HeadLead l → List TokenTree
  | lead x => x.tokens
  | modifier token _ => [token]

/-- The modifiers. -/
def modifiers : HeadLead l → List String
  | lead _ => []
  | modifier token _ => [token.text]

/-- The annotations. -/
def annotations : HeadLead l → List Annotation
  | lead x => x.annotations
  | modifier _ _ => []

/-- The comments. -/
def comments : HeadLead l → List String
  | lead x => x.comments
  | modifier _ _ => []

end HeadLead

/-- What stands in front of a body. -/
structure WrittenHead (d : Dialect) where
  /-- The comments, annotations and modifiers. -/
  leads : List (HeadLead d.language) := []
  /-- The keyword. -/
  word : TokenTree
  /-- What it introduces. -/
  kind : DeclarationKind
  /-- The name. -/
  name : TokenTree
  /-- The base types. -/
  bases : BaseList d kind := .none
  /-- The keyword introduces declarations of the kind. -/
  introduces : Head.kind? d.language word.value = some kind
  /-- The name is an identifier. -/
  isName : name.kind = .identifier
  /-- Only that of a namespace may have dots. -/
  plain : kind ≠ .package →
    d.identifiers.scanName name.text.toList = some name.text.toList.length
  /-- Nor has any other one a number sign. -/
  unmarked : kind ≠ .package → '#' ∉ name.text.toList

namespace WrittenHead

variable {d : Dialect}

/-- The tokens in front of the keyword. -/
def leadTokens (h : WrittenHead d) : List TokenTree := h.leads.flatMap (·.tokens)

/-- The tokens. -/
def tokens (h : WrittenHead d) : List TokenTree :=
  h.leadTokens ++ h.word :: h.name :: h.bases.tokens

/-- The parts of the name. -/
def nameParts (h : WrittenHead d) : List String :=
  if h.kind = .package then Text.dottedParts h.name.text else [h.name.text]

/-- What is told of the declaration with the given body, where `scope` holds the parts of the full
name of what is around it.  The annotations are those that are read forwards. -/
def heading (h : WrittenHead d) (scope : List String) (body : TokenTree) : Heading where
  fullName := scope ++ h.nameParts
  kind := h.kind
  keyword := h.word.text
  modifiers := h.leads.flatMap (·.modifiers)
  typeParams := []
  extended? := (h.bases.split h.word.text).1
  implemented := (h.bases.split h.word.text).2
  annotations := (Extractor.run ⟨d.language, []⟩ [.annotations .idle] h.leadTokens).annotations
  comments := h.leads.flatMap (·.comments)
  position := h.word.span.start
  body := body

/-- No block inside the annotations is the body of a declaration, and no base type is named by the
word that ends a list of base types. -/
structure Exact (h : WrittenHead d) : Prop where
  /-- Annotations hold no declaration of their own. -/
  undeclaring : ∀ t ∈ h.leadTokens, t.kind = .block → Site.Bodiless d.language [] t.children
  /-- No base type ends the list. -/
  unending : ∀ b ∈ h.bases.names, d.language.baseListEnd? ≠ some b.token.text

end WrittenHead

/-! ## Forests -/

/-- A declaration with its body, or tokens that declare nothing up to a semicolon or a block in
braces. -/
inductive Item (d : Dialect) where
  /-- Tokens that declare nothing. -/
  | plain (front : List TokenTree) (stop : TokenTree) (stops : Head.isBarrier stop.value = true)
      (keywordless : Site.Keywordless d.language (front ++ [stop]))
  /-- A declaration. -/
  | declaration (head : WrittenHead d) (brace : Token) (items : List (Item d))
      (isBrace : brace.isBlock '\x7b' = true)

variable {d : Dialect}

mutual

/-- The tokens of an item. -/
def Item.trees : Item d → List TokenTree
  | .plain front stop _ _ => front ++ [stop]
  | .declaration head brace items _ => head.tokens ++ [.node brace (treesAll items)]

/-- The tokens of a forest. -/
def treesAll : List (Item d) → List TokenTree
  | [] => []
  | i :: is => i.trees ++ treesAll is

end

mutual

/-- The declarations of an item. -/
def Item.headings (scope : List String) : Item d → List Heading
  | .plain _ _ _ _ => []
  | .declaration head brace items _ =>
    head.heading scope (.node brace (treesAll items)) ::
      headingsAll false (scope ++ head.nameParts) items

/-- The declarations of a forest, each before those inside it.  At the top, package statements
count for what is behind them. -/
def headingsAll (isTop : Bool) (scope : List String) : List (Item d) → List Heading
  | [] => []
  | i :: is =>
    i.headings scope ++ headingsAll isTop
      (scope ++ if isTop then Site.packageParts d.language i.trees else []) is

end

mutual

/-- The heads of an item can be told exactly. -/
def Item.Exact : Item d → Prop
  | .plain _ _ _ _ => True
  | .declaration head _ items _ => head.Exact ∧ ExactAll items

/-- The heads of a forest can be told exactly. -/
def ExactAll : List (Item d) → Prop
  | [] => True
  | i :: is => i.Exact ∧ ExactAll is

end

end Forest

end Outline
