import Outline.Proofs.Declaration.Segments
import Outline.Proofs.Token.Quotes
import Outline.Proofs.Written.Parameters

/-!
# Import statements

Import statements as they are written, with what they bring into scope.  A statement is given by
its tokens together with what makes it such a statement; comments, which may stand anywhere between
them, are left out.

* `NamespaceImport` — `using N;` and `import N;` with what may stand around the name.
* `ModuleImport` — `import clause from file`.
* `ImportStatement.imported` — the import that a statement denotes.
* `ImportRun` — statements in a run of tokens.
-/

namespace Outline

namespace TokenTree

/-- Whether a token is no comment. -/
def isCode (t : TokenTree) : Bool := t.kind != .comment

/-- The tokens of a run without the comments. -/
def code (ts : List TokenTree) : List TokenTree := ts.filter isCode

theorem code_cons_of_comment {t : TokenTree} (h : t.kind = .comment) (ts : List TokenTree) :
    code (t :: ts) = code ts :=
  List.filter_cons_of_neg (by simp [isCode, h])

theorem code_cons_of_ne {t : TokenTree} (h : t.kind ≠ .comment) (ts : List TokenTree) :
    code (t :: ts) = t :: code ts :=
  List.filter_cons_of_pos (by simp [isCode, h])

theorem code_append (ts us : List TokenTree) : code (ts ++ us) = code ts ++ code us :=
  List.filter_append ..

end TokenTree

/-! ## Imports from namespaces -/

/-- A name with dots between its parts. -/
structure DottedName where
  /-- The parts in front of the last one. -/
  qualifier : List String := []
  /-- The last part. -/
  last : String
  /-- The parts have no dots of their own. -/
  plain : ∀ part ∈ qualifier ++ [last], Text.IsSegment part

namespace DottedName

/-- The parts. -/
def parts (n : DottedName) : List String := n.qualifier ++ [n.last]

/-- The name as it is written. -/
def text (n : DottedName) : String := Text.dotted n.parts

end DottedName

/-- A statement that imports from a namespace. -/
structure NamespaceImport (l : Language) where
  /-- The keyword that introduces it. -/
  keyword : TokenTree
  /-- The keyword that imports the members of a class. -/
  static? : Option TokenTree := none
  /-- The alias with the equals sign behind it. -/
  alias? : Option (TokenTree × TokenTree) := none
  /-- The name that is imported. -/
  target : TokenTree
  /-- The dot and the asterisk that import all members. -/
  wildcard? : Option (TokenTree × TokenTree) := none
  /-- The semicolon. -/
  stop : TokenTree
  /-- The keyword is the one of the language. -/
  introduces : keyword.value.isKeyword (ImportMachine.namespaceKeyword l) = true
  /-- The keyword behind it is `static`. -/
  isStatic : ∀ t ∈ static?, t.value.isKeyword "static" = true
  /-- Aliases are identifiers, in C#. -/
  isAlias : ∀ a ∈ alias?, l = .csharp ∧ a.1.kind = .identifier ∧ a.2.value.isOperator "=" = true
  /-- The name is an identifier. -/
  isTarget : target.kind = .identifier
  /-- All members are imported in Java. -/
  isWildcard : ∀ w ∈ wildcard?,
    l = .java ∧ w.1.value.isOperator "." = true ∧ w.2.value.isOperator "*" = true
  /-- The statement ends with a semicolon. -/
  ends : stop.value.isSeparator ";" = true

namespace NamespaceImport

variable {l : Language}

/-- The tokens. -/
def tokens (s : NamespaceImport l) : List TokenTree :=
  s.keyword :: s.static?.toList ++ s.alias?.elim [] (fun a => [a.1, a.2]) ++
    s.target :: s.wildcard?.elim [] (fun w => [w.1, w.2]) ++ [s.stop]

/-- Whether the name stands for a member of a namespace: behind an alias, and in Java unless all
members are imported. -/
def namesMember (s : NamespaceImport l) : Bool :=
  s.alias?.isSome || (l == .java && s.wildcard?.isNone)

/-- The import of a dotted name.  The last part of a name that stands for a member is listed, if
there is a namespace in front of it. -/
def imported (s : NamespaceImport l) (name : DottedName) : Import :=
  let listed := s.namesMember && !name.qualifier.isEmpty
  { path := if listed then name.qualifier else name.parts
    names := if listed then [name.last] else []
    alias? := s.alias?.map (·.1.text)
    isStatic := s.static?.isSome }

end NamespaceImport

/-! ## Imports of modules -/

/-- A name that a module import brings into scope. -/
structure IsImportedName (t : TokenTree) : Prop where
  /-- It is an identifier. -/
  identifier : t.kind = .identifier
  /-- It is not the word in front of types. -/
  ne_type : t.text ≠ "type"

/-- The word in front of types. -/
structure IsTypeWord (t : TokenTree) : Prop where
  /-- It is an identifier. -/
  identifier : t.kind = .identifier
  /-- It is the word `type`. -/
  text_eq : t.text = "type"

/-- A name in braces. -/
structure ListedName where
  /-- The word in front of types. -/
  type? : Option TokenTree := none
  /-- The name that the module gives it. -/
  name : TokenTree
  /-- The keyword in front of an alias, with the alias. -/
  alias? : Option (TokenTree × TokenTree) := none
  /-- The word in front is the one in front of types. -/
  isType : ∀ t ∈ type?, IsTypeWord t
  /-- The name is one. -/
  isName : IsImportedName name
  /-- The alias is an identifier. -/
  isAlias : ∀ a ∈ alias?, a.1.value.isKeyword "as" = true ∧ a.2.kind = .identifier

/-- The tokens. -/
def ListedName.tokens (n : ListedName) : List TokenTree :=
  n.type?.toList ++ n.name :: n.alias?.elim [] (fun a => [a.1, a.2])

/-- Names in braces. -/
structure NameBlock where
  /-- The block. -/
  block : TokenTree
  /-- The names in it. -/
  list : List ListedName
  /-- The names with commas between them. -/
  inside : List TokenTree
  /-- The comma behind the last name. -/
  comma? : Option TokenTree := none
  /-- It is a block in braces. -/
  isBlock : block.value.isBlock '\x7b' = true
  /-- It holds the names. -/
  holds : TokenTree.code block.children = inside ++ comma?.toList
  /-- There are commas between the names. -/
  separated : Separated (list.map (·.tokens)) inside
  /-- The comma behind them is one. -/
  isComma : ∀ c ∈ comma?, c.value.isSeparator "," = true

/-- What a module import brings into scope. -/
inductive ImportClause where
  /-- What the module exports by default. -/
  | default (name : TokenTree) (isName : IsImportedName name)
  /-- Names in braces. -/
  | listed (names : NameBlock)
  /-- What the module exports by default, and names in braces. -/
  | both (name comma : TokenTree) (names : NameBlock) (isName : IsImportedName name)
      (isComma : comma.value.isSeparator "," = true)
  /-- Everything, under an alias. -/
  | all (star word name : TokenTree) (isStar : star.value.isOperator "*" = true)
      (isAs : word.value.isKeyword "as" = true) (isName : name.kind = .identifier)

namespace ImportClause

/-- The tokens. -/
def tokens : ImportClause → List TokenTree
  | default name _ => [name]
  | listed names => [names.block]
  | both name comma names _ _ => [name, comma, names.block]
  | all star word name _ _ _ => [star, word, name]

/-- The names that are listed. -/
def names : ImportClause → List String
  | default name _ => [name.text]
  | listed names => names.list.map (·.name.text)
  | both name _ names _ _ => name.text :: names.list.map (·.name.text)
  | all _ _ _ _ _ _ => []

/-- The alias. -/
def alias? : ImportClause → Option String
  | all _ _ name _ _ _ => some name.text
  | default _ _ | listed _ | both _ _ _ _ _ => none

end ImportClause

/-- A statement that imports a module. -/
structure ModuleImport where
  /-- The keyword that introduces it. -/
  keyword : TokenTree
  /-- The word in front of types. -/
  type? : Option TokenTree := none
  /-- What it brings into scope, with the word behind it. -/
  clause? : Option (ImportClause × TokenTree) := none
  /-- The file. -/
  file : TokenTree
  /-- The semicolon. -/
  stop? : Option TokenTree := none
  /-- The quotes in front of the name of the file. -/
  opening : List Char
  /-- The name of the file. -/
  source : List Char
  /-- The quotes behind it. -/
  closing : List Char
  /-- The keyword is `import`. -/
  introduces : keyword.value.isKeyword "import" = true
  /-- The word in front is the one in front of types. -/
  isType : ∀ t ∈ type?, IsTypeWord t
  /-- The word behind the clause is `from`. -/
  isFrom : ∀ c ∈ clause?, c.2.kind = .identifier ∧ c.2.text = "from"
  /-- The file is a string literal. -/
  isFile : file.kind = .string
  /-- The quotes are those of the literal. -/
  literal : TypeScript.strings.IsLiteral opening source closing
  /-- The name of the file stands between them. -/
  spelled : file.text.toList = opening ++ (source ++ closing)
  /-- The statement may end with a semicolon. -/
  ends : ∀ t ∈ stop?, t.value.isSeparator ";" = true

namespace ModuleImport

/-- The tokens. -/
def tokens (s : ModuleImport) : List TokenTree :=
  s.keyword :: s.type?.toList ++ s.clause?.elim [] (fun c => c.1.tokens ++ [c.2]) ++
    s.file :: s.stop?.toList

/-- The import of the module. -/
def imported (s : ModuleImport) : Import where
  path := []
  names := s.clause?.elim [] (·.1.names)
  alias? := s.clause?.bind (·.1.alias?)
  module? := some (String.ofList s.source)

end ModuleImport

/-! ## Statements -/

/-- An import statement. -/
inductive ImportStatement (l : Language) where
  /-- From a namespace. -/
  | ofNamespace (s : NamespaceImport l) (name : DottedName) (spelled : s.target.text = name.text)
      (language : l ≠ .typescript)
  /-- Of a module. -/
  | ofModule (s : ModuleImport) (language : l = .typescript)

namespace ImportStatement

variable {l : Language}

/-- The tokens. -/
def tokens : ImportStatement l → List TokenTree
  | ofNamespace s _ _ _ => s.tokens
  | ofModule s _ => s.tokens

/-- The import that the statement denotes. -/
def imported : ImportStatement l → Import
  | ofNamespace s name _ _ => s.imported name
  | ofModule s _ => s.imported

end ImportStatement

/-- Import statements in a run of tokens.  There may be comments in them, and any tokens between
them that start no statement. -/
inductive ImportRun (l : Language) : List (ImportStatement l) → List TokenTree → Prop where
  /-- There is no token. -/
  | nil : ImportRun l [] []
  /-- A token that starts no statement. -/
  | other {statements : List (ImportStatement l)} {t : TokenTree} {rest : List TokenTree}
      (plain : t.value.isKeyword (ImportMachine.namespaceKeyword l) = false)
      (hrest : ImportRun l statements rest) : ImportRun l statements (t :: rest)
  /-- A statement. -/
  | cons {s : ImportStatement l} {statements : List (ImportStatement l)}
      {ts rest : List TokenTree} (written : TokenTree.code ts = s.tokens)
      (hrest : ImportRun l statements rest) : ImportRun l (s :: statements) (ts ++ rest)

end Outline
