import Outline.Language.CSharp
import Outline.Language.Java
import Outline.Language.TypeScript
import Outline.Token.Basic

/-!
# Languages

The languages whose declarations can be outlined, and every question whose answer depends on the
language.  A `Dialect` is a language together with the deepest nesting of type arguments that is
read as part of an identifier.
-/

namespace Outline

/-- A language whose declarations can be outlined. -/
inductive Language where
  | csharp
  | java
  | typescript
  deriving DecidableEq, Repr, Inhabited

/-- The order of the type and the name in the declaration of a member. -/
inductive MemberOrder where
  /-- The type, then the name. -/
  | typeFirst
  /-- The name, then a colon and the type. -/
  | nameFirst
  deriving DecidableEq, Repr

/-- How annotations are written. -/
inductive AnnotationStyle where
  /-- Several between square brackets. -/
  | bracketed
  /-- Each after an at sign. -/
  | atSign
  deriving DecidableEq, Repr

namespace Language

/-! ## Names and files -/

/-- Every language, in ascending order of names. -/
def all : List Language := [csharp, java, typescript]

/-- The name of the language in output. -/
def name : Language → String
  | csharp => "csharp"
  | java => "java"
  | typescript => "typescript"

/-- The extensions of its files, in lower case and without the dot. -/
def extensions : Language → List String
  | csharp => ["cs"]
  | java => ["java"]
  | typescript => ["ts", "tsx", "mts", "cts"]

/-- The language that a user calls by the given name; capitals do not matter. -/
def ofName? (s : String) : Option Language :=
  match s.toLower with
  | "csharp" | "c#" | "cs" => some csharp
  | "java" => some java
  | "typescript" | "ts" => some typescript
  | _ => none

/-- Drops the dots at the start of an extension. -/
def bareExtension (s : String) : String := String.ofList (s.toList.dropWhile (· == '.'))

/-- The language of the files with the given extension; leading dots and capitals do not
matter. -/
def ofExtension? (s : String) : Option Language :=
  all.find? (·.extensions.contains (bareExtension s).toLower)

/-! ## Words -/

/-- The reserved words. -/
def keywords : Language → KeywordTable
  | csharp => CSharp.keywords
  | java => Java.keywords
  | typescript => TypeScript.keywords

/-- Whether a word is reserved. -/
def isKeyword (l : Language) (word : String) : Bool := l.keywords.isKeyword word

/-- Whether a word is reserved and may play the given role. -/
def has (l : Language) (role : Capability) (word : String) : Bool := l.keywords.has word role

/-- Whether a token is a keyword that may play the given role. -/
def marks (l : Language) (role : Capability) (t : Token) : Bool :=
  t.kind == .keyword && l.has role t.text

/-- The types that need neither a declaration nor an import. -/
def implicitTypes : Language → List String
  | csharp => CSharp.implicitTypes
  | java => Java.implicitTypes
  | typescript => TypeScript.implicitTypes

/-- Whether a name always denotes a type of the language itself. -/
def isBuiltinType (l : Language) (name : String) : Bool :=
  l.has .type name || l.implicitTypes.contains name

/-- The rules that split a text into tokens. -/
def rules : Language → Nat → List Rule
  | csharp => CSharp.rules
  | java => Java.rules
  | typescript => TypeScript.rules

/-! ## Grammar -/

/-- The order of the type and the name of a member. -/
def memberOrder : Language → MemberOrder
  | csharp | java => .typeFirst
  | typescript => .nameFirst

/-- How annotations are written. -/
def annotationStyle : Language → AnnotationStyle
  | csharp => .bracketed
  | java | typescript => .atSign

/-- Whether a token starts a list of base types: a colon in C#, a keyword elsewhere. -/
def isInheritance (l : Language) (t : Token) : Bool :=
  match l with
  | csharp => t.isOperator ":"
  | java | typescript => l.marks .inheritance t

/-- Whether a word is a modifier of the parameter at the given place of its list.  In C# the
word `this` marks the first parameter only. -/
def isParameterModifier (l : Language) (word : String) (place : Nat) : Bool :=
  if l == csharp && word == "this" then place == 0 else l.has .parameterModifier word

/-- Whether a block in braces after the name of a member makes it a property. -/
def hasPropertyBlocks (l : Language) : Bool := l == csharp

/-- The keyword of a statement that names the package of the rest of the file. -/
def packageStatement? : Language → Option String
  | csharp => some "namespace"
  | java => some "package"
  | typescript => none

/-- The word that ends the list of base types in the head of a declaration. -/
def baseListEnd? : Language → Option String
  | csharp => some "where"
  | java => some "permits"
  | typescript => none

/-- Whether declarations of the given kind hold fields and methods.  Only Java has them in
enumerations. -/
def hasFieldsAndMethods (l : Language) : DeclarationKind → Bool
  | .classLike | .interfaceLike => true
  | .enumLike => l == java
  | .package => false

/-! ## Access -/

/-- The access that modifiers ask for. -/
def explicitAccess : Language → List String → Option Access
  | csharp => CSharp.explicitAccess
  | java => Java.explicitAccess
  | typescript => TypeScript.explicitAccess

/-- The access of a declaration without such modifiers, by its kind and the kind of the
declaration around it. -/
def defaultAccess : Language → DeclarationKind → Option DeclarationKind → Access
  | csharp => CSharp.defaultAccess
  | java => Java.defaultAccess
  | typescript => TypeScript.defaultAccess

/-- The access of a declaration. -/
def access (l : Language) (modifiers : List String) (kind : DeclarationKind)
    (parent : Option DeclarationKind) : Access :=
  (l.explicitAccess modifiers).getD (l.defaultAccess kind parent)

end Language

/-- A language with a limit on the nesting of type arguments inside an identifier. -/
structure Dialect where
  /-- The language. -/
  language : Language
  /-- The deepest nesting of angle brackets inside an identifier. -/
  maxDepth : Nat := 3
  deriving DecidableEq, Repr

namespace Dialect

/-- The indexed rules that split a text into tokens. -/
def ruleSet (d : Dialect) : RuleSet := RuleSet.ofRules (d.language.rules d.maxDepth)

end Dialect

end Outline
