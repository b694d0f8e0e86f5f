import Outline.Member.Extractor
import Outline.Proofs.Written.Words

/-!
# Written declarations

The members of a body as they are written where the type comes first: fields without initializers
and properties, methods and constructors, and declarations inside the declaration, each behind
comments and annotations.  Every part is given by its tokens together with what makes it such a
part, so that only well-formed declarations can be built.

* `Written.tokens` — the tokens of a declaration.
* `Written.field?`, `Written.method?` — the member that it declares.
-/

namespace Outline

/-- A token by itself. -/
def TokenTree.bare (kind : TokenKind) (text : String) : TokenTree := .leaf ⟨kind, {}, text⟩

@[simp] theorem TokenTree.kind_bare (kind : TokenKind) (text : String) :
    (bare kind text).kind = kind := rfl

/-! ## Names and types -/

/-- A name that is written as a single word. -/
structure IsName (t : TokenTree) : Prop where
  /-- It is an identifier. -/
  identifier : t.kind = .identifier
  /-- It is a word. -/
  word : Text.isWord t.text = true

/-- Identifiers with commas between them. -/
inductive Names : List TokenTree → Prop where
  /-- The last identifier. -/
  | one {name : TokenTree} (hname : name.kind = .identifier) : Names [name]
  /-- An identifier in front of others. -/
  | cons {name comma : TokenTree} {rest : List TokenTree} (hname : name.kind = .identifier)
      (hcomma : comma.value.isSeparator "," = true) (hrest : Names rest) :
      Names (name :: comma :: rest)

/-- Groups of tokens with commas between them. -/
inductive Separated : List (List TokenTree) → List TokenTree → Prop where
  /-- There is no group. -/
  | nil : Separated [] []
  /-- The last group. -/
  | one (group : List TokenTree) : Separated [group] group
  /-- A group in front of others. -/
  | cons {group next rest : List TokenTree} {groups : List (List TokenTree)} {comma : TokenTree}
      (hcomma : comma.value.isSeparator "," = true) (hrest : Separated (next :: groups) rest) :
      Separated (group :: next :: groups) (group ++ comma :: rest)

/-- A type that is written as a single token, behind which C# may have a question mark. -/
structure WrittenType (l : Language) (allowVoid : Bool) where
  /-- The token. -/
  word : TokenTree
  /-- The question mark. -/
  mark? : Option TokenTree := none
  /-- The type that the text of the token names. -/
  named : TypeRef
  /-- The token may start a type. -/
  starts : TypeMachine.starts l allowVoid word.value = true
  /-- Its text is the type. -/
  parsed : TypeRef.parse word.text = .ok named
  /-- The mark is a question mark. -/
  marked : ∀ m ∈ mark?, l = .csharp ∧ m.value.isOperator "?" = true

namespace WrittenType

variable {l : Language} {allowVoid : Bool}

/-- The tokens. -/
def tokens (t : WrittenType l allowVoid) : List TokenTree := t.word :: t.mark?.toList

/-- The type. -/
def ref (t : WrittenType l allowVoid) : TypeRef :=
  if t.mark?.isSome then { t.named with nullable := true } else t.named

end WrittenType

/-! ## Annotations -/

/-- Annotations that are written in one place.  There is no room for a comment between an at sign, a
name and the arguments: what is proved of written declarations does not tell of annotations with
comments there.  Inside brackets and arguments there may be comments. -/
inductive WrittenMark (l : Language) where
  /-- Some in square brackets. -/
  | brackets (block : TokenTree) (style : l.annotationStyle = .bracketed)
      (isBlock : block.value.isBlock '[' = true) (found : Annotation.ofBrackets block ≠ [])
  /-- One behind an at sign. -/
  | sign (start name : TokenTree) (arguments? : Option TokenTree)
      (style : l.annotationStyle = .atSign) (isSign : start.value.isSeparator "@" = true)
      (isName : name.kind = .identifier) (isBlock : ∀ b ∈ arguments?, b.value.isBlock '(' = true)

namespace WrittenMark

variable {l : Language}

/-- The tokens. -/
def tokens : WrittenMark l → List TokenTree
  | brackets block _ _ _ => [block]
  | sign start name arguments? _ _ _ _ => start :: name :: arguments?.toList

/-- The annotations. -/
def annotations : WrittenMark l → List Annotation
  | brackets block _ _ _ => Annotation.ofBrackets block
  | sign _ name arguments? _ _ _ _ => [⟨name.text, arguments?.elim [] Annotation.argumentsOf⟩]

end WrittenMark

/-- What stands in front of a declaration. -/
inductive WrittenLead (l : Language) where
  /-- A comment. -/
  | comment (token : TokenTree) (isComment : token.kind = .comment)
  /-- Annotations. -/
  | mark (mark : WrittenMark l)

namespace WrittenLead

variable {l : Language}

/-- The tokens. -/
def tokens : WrittenLead l → List TokenTree
  | comment token _ => [token]
  | mark m => m.tokens

/-- The annotations. -/
def annotations : WrittenLead l → List Annotation
  | comment _ _ => []
  | mark m => m.annotations

/-- The comments. -/
def comments : WrittenLead l → List String
  | comment token _ => [Text.commentText token.text]
  | mark _ => []

end WrittenLead

/-! ## Parameters -/

/-- A parameter: annotations, modifiers, a type, a name, and a default value. -/
structure WrittenParam (l : Language) where
  /-- The annotations. -/
  marks : List (WrittenMark l) := []
  /-- The modifiers. -/
  modifiers : List TokenTree := []
  /-- The type. -/
  type : WrittenType l false
  /-- The name. -/
  name : TokenTree
  /-- The equals sign and the tokens of the default value. -/
  default? : Option (TokenTree × List TokenTree) := none
  /-- The name is an identifier. -/
  isName : name.kind = .identifier
  /-- The default value is behind an equals sign. -/
  isEquals : ∀ d ∈ default?, d.1.value.isOperator "=" = true
  /-- The default value has no comma and no comment of its own. -/
  isValue : ∀ d ∈ default?, ∀ t ∈ d.2, t.value.isSeparator "," = false ∧ t.kind ≠ .comment

namespace WrittenParam

variable {l : Language}

/-- The tokens. -/
def tokens (p : WrittenParam l) : List TokenTree :=
  p.marks.flatMap (·.tokens) ++ p.modifiers ++ p.type.tokens ++
    p.name :: p.default?.elim [] fun d => d.1 :: d.2

/-- The parameter. -/
def param (p : WrittenParam l) : Parameter TypeRef where
  name := p.name.text
  type := p.type.ref
  modifiers := p.modifiers.map (·.text)
  annotations := p.marks.flatMap (·.annotations)
  isOptional := p.default?.isSome
  default? := p.default?.map fun d => TokenTree.joined d.2

end WrittenParam

/-- The modifiers of parameters, the first of which is at the given place, are allowed there. -/
def ModifiedFrom {l : Language} : Nat → List (WrittenParam l) → Prop
  | _, [] => True
  | place, p :: ps =>
    (∀ m ∈ p.modifiers, m.kind = .keyword ∧ l.isParameterModifier m.text place = true) ∧
      ModifiedFrom (place + 1) ps

/-- Parameters in parentheses. -/
structure WrittenParams (l : Language) where
  /-- The block in parentheses. -/
  block : TokenTree
  /-- The parameters in it. -/
  list : List (WrittenParam l)
  /-- It is a block in parentheses. -/
  isBlock : block.value.isBlock '(' = true
  /-- It holds the parameters. -/
  holds : Separated (list.map (·.tokens)) block.children
  /-- Each modifier is allowed at its place. -/
  modified : ModifiedFrom 0 list

/-! ## Declarations -/

/-- What may stand between the parameters and the body. -/
inductive Clause (l : Language) : List TokenTree → Prop where
  /-- Nothing. -/
  | none : Clause l []
  /-- The exceptions that a method throws. -/
  | throws {word : TokenTree} {names : List TokenTree} (hl : l = .java)
      (hword : word.value.isKeyword "throws" = true) (hnames : Names names) :
      Clause l (word :: names)
  /-- The constructor that is called first. -/
  | base {colon word arguments : TokenTree} (hl : l = .csharp)
      (hcolon : colon.value.isOperator ":" = true) (hword : word.value.isKeyword "base" = true)
      (harguments : arguments.value.isBlock '(' = true) : Clause l [colon, word, arguments]

/-- The base types of a declaration. -/
inductive Bases (l : Language) : List TokenTree → Prop where
  /-- There is none. -/
  | none : Bases l []
  /-- A list of them in front of others. -/
  | cons {word : TokenTree} {names rest : List TokenTree}
      (hword : l.isInheritance word.value = true) (hnames : Names names) (hrest : Bases l rest) :
      Bases l (word :: names ++ rest)

/-- A field or a property. -/
structure WrittenField (l : Language) where
  /-- The modifiers. -/
  modifiers : List TokenTree := []
  /-- The type. -/
  type : WrittenType l false
  /-- The name. -/
  name : TokenTree
  /-- The last token. -/
  stop : TokenTree
  /-- The modifiers are those of fields. -/
  modified : ∀ m ∈ modifiers, l.marks .fieldModifier m.value = true
  /-- The name is a word. -/
  isName : IsName name
  /-- A field ends with a semicolon and a property with a block in braces. -/
  stops : stop.value.isSeparator ";" = true ∨
    l.hasPropertyBlocks = true ∧ stop.value.isBlock '\x7b' = true

/-- A method, or a constructor if there is no type. -/
structure WrittenMethod (o : Owner) where
  /-- The modifiers. -/
  modifiers : List TokenTree := []
  /-- The type of the result. -/
  result? : Option (WrittenType o.language true)
  /-- The name. -/
  name : TokenTree
  /-- The parameters. -/
  params : WrittenParams o.language
  /-- The clause in front of the body. -/
  clause : List TokenTree := []
  /-- The last token. -/
  stop : TokenTree
  /-- The modifiers are those of methods. -/
  modified : ∀ m ∈ modifiers, o.language.marks .methodModifier m.value = true
  /-- The name is a word. -/
  isName : IsName name
  /-- A constructor has the name of its declaration. -/
  owned : result? = none → o.name? = some name.text
  /-- The clause is one. -/
  isClause : Clause o.language clause
  /-- The last token is a semicolon or the body. -/
  stops : MethodMachine.isBody stop.value = true

/-- A declaration inside the declaration. -/
structure WrittenNested (l : Language) where
  /-- The modifiers. -/
  modifiers : List TokenTree := []
  /-- The word that introduces it. -/
  word : TokenTree
  /-- The name. -/
  name : TokenTree
  /-- The base types. -/
  bases : List TokenTree := []
  /-- The body. -/
  stop : TokenTree
  /-- The modifiers are those of declarations. -/
  modified : ∀ m ∈ modifiers, l.marks .classModifier m.value = true
  /-- The word introduces declarations. -/
  introduces : l.marks .block word.value = true
  /-- The name is an identifier. -/
  isName : name.kind = .identifier
  /-- The base types are such. -/
  isBases : Bases l bases
  /-- The body is in braces. -/
  stops : stop.value.isBlock '\x7b' = true

/-- A declaration in the body of the declaration `o`, without what stands in front of it. -/
inductive Written (o : Owner) where
  /-- A field or a property. -/
  | field (f : WrittenField o.language)
  /-- A method or a constructor. -/
  | method (m : WrittenMethod o)
  /-- A declaration. -/
  | nested (n : WrittenNested o.language)

namespace WrittenField

variable {l : Language}

/-- The tokens in front of the last one. -/
def front (f : WrittenField l) : List TokenTree := f.modifiers ++ f.type.tokens ++ [f.name]

/-- The field, without annotations and comments. -/
def field (o : Owner) (f : WrittenField l) : Field TypeRef where
  name := f.name.text
  fullName := o.memberName f.name.text
  type := f.type.ref
  modifiers := f.modifiers.map (·.text)
  annotations := []
  comments := []

end WrittenField

namespace WrittenMethod

variable {o : Owner}

/-- The tokens in front of the last one. -/
def front (m : WrittenMethod o) : List TokenTree :=
  m.modifiers ++ m.result?.elim [] (·.tokens) ++ m.name :: m.params.block :: m.clause

/-- The method, without annotations and comments.  A constructor makes its declaration. -/
def method (m : WrittenMethod o) : Method TypeRef where
  name := m.name.text
  fullName := o.memberName m.name.text
  returnType := m.result?.elim (.simple m.name.text) (·.ref)
  typeParams := []
  params := m.params.list.map (·.param)
  modifiers := m.modifiers.map (·.text)
  annotations := []
  comments := []

end WrittenMethod

namespace WrittenNested

/-- The tokens in front of the last one. -/
def front {l : Language} (n : WrittenNested l) : List TokenTree :=
  n.modifiers ++ n.word :: n.name :: n.bases

end WrittenNested

namespace Written

variable {o : Owner}

/-- The tokens in front of the last one. -/
def front : Written o → List TokenTree
  | field f => f.front
  | method m => m.front
  | nested n => n.front

/-- The last token. -/
def stop : Written o → TokenTree
  | field f => f.stop
  | method m => m.stop
  | nested n => n.stop

/-- The tokens. -/
def tokens (w : Written o) : List TokenTree := w.front ++ [w.stop]

/-- The field that is declared. -/
def field? : Written o → Option (Field TypeRef)
  | field f => some (f.field o)
  | method _ | nested _ => none

/-- The method that is declared. -/
def method? : Written o → Option (Method TypeRef)
  | method m => some m.method
  | field _ | nested _ => none

end Written

/-- A declaration with what stands in front of it. -/
structure Declared (o : Owner) where
  /-- The comments and annotations in front. -/
  leads : List (WrittenLead o.language) := []
  /-- The declaration. -/
  body : Written o

namespace Declared

variable {o : Owner}

/-- The tokens. -/
def tokens (d : Declared o) : List TokenTree := d.leads.flatMap (·.tokens) ++ d.body.tokens

/-- The annotations. -/
def annotations (d : Declared o) : List Annotation := d.leads.flatMap (·.annotations)

/-- The comments. -/
def comments (d : Declared o) : List String := d.leads.flatMap (·.comments)

/-- The field that is declared. -/
def field? (d : Declared o) : Option (Field TypeRef) :=
  d.body.field?.map fun f => { f with annotations := d.annotations, comments := d.comments }

/-- The method that is declared. -/
def method? (d : Declared o) : Option (Method TypeRef) :=
  d.body.method?.map fun m => { m with annotations := d.annotations, comments := d.comments }

end Declared

end Outline
