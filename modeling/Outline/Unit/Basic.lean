import Outline.Declaration.Discovery
import Outline.Token.Reading

/-!
# Units

A unit is one source file after it has been read: its token tree, its declarations without the
namespaces, and its imports.  A text in the place of a type that is none costs either the member
that it stands in or the whole file.
-/

namespace Outline

/-! ## Errors -/

/-- What becomes of a file with a text in the place of a type that is none. -/
inductive MalformedPolicy where
  /-- The member is left out, with a warning. -/
  | skipMember
  /-- The file has no unit. -/
  | failFile
  deriving DecidableEq, Repr, Inhabited

namespace MalformedPolicy

/-- The name of the policy in a configuration. -/
def code : MalformedPolicy → String
  | skipMember => "skip_member"
  | failFile => "fail_file"

/-- The policy with the given name. -/
def ofCode? : String → Option MalformedPolicy
  | "skip_member" => some skipMember
  | "fail_file" => some failFile
  | _ => none

end MalformedPolicy

/-- Why a file has no unit. -/
inductive UnitError where
  /-- The text has no token tree. -/
  | token (sourceId : String) (error : TokenError)
  /-- A text in the place of a type is none. -/
  | malformedType (sourceId : String) (malformed : MalformedType)
  /-- No language has files with the extension of the file. -/
  | unsupported (sourceId : String)
  /-- The file has more bytes than are allowed. -/
  | tooLarge (sourceId : String) (size limit : Nat)
  deriving DecidableEq, Repr

namespace UnitError

/-- How the error reads. -/
def message : UnitError → String
  | token sourceId error => "Failed to tokenize " ++ sourceId ++ ": " ++ error.message
  | malformedType sourceId malformed =>
    "Malformed type '" ++ malformed.text ++ "' in " ++ sourceId ++ ": " ++ malformed.error.message
  | unsupported sourceId => "No parser registered for " ++ sourceId
  | tooLarge sourceId size limit =>
    sourceId ++ " is " ++ toString size ++ " bytes, over the " ++ toString limit ++ " byte limit"

/-- The message of the error behind this one. -/
def cause? : UnitError → Option String
  | token _ error => some error.message
  | malformedType _ malformed => some malformed.error.message
  | unsupported _ | tooLarge .. => none

end UnitError

/-! ## Units -/

/-- A source file after it has been read. -/
structure SourceUnit where
  /-- The name of the file. -/
  sourceId : String
  /-- The language of the file. -/
  language : Language
  /-- The tokens. -/
  tree : TokenTree
  /-- The classes, interfaces and enumerations; each comes before those inside it. -/
  declarations : List (Declaration TypeRef)
  /-- The imports of the file and of the namespaces in it. -/
  imports : List Import
  /-- The full names of the namespaces and packages. -/
  packages : List (List String)
  /-- What has been left out. -/
  warnings : List String
  /-- The work done. -/
  metrics : Metrics
  deriving Repr

namespace SourceUnit

/-- The first declaration with the given full name. -/
def declaration? (u : SourceUnit) (fullName : String) : Option (Declaration TypeRef) :=
  u.declarations.find? (·.fullNameText == fullName)

/-- The warning about a text in the place of a type. -/
def warning (malformed : MalformedType) : String :=
  "Skipped '" ++ malformed.text ++ "': " ++ malformed.error.message

/-- The warnings about malformed types, if the policy allows them. -/
def warnings? (sourceId : String) (policy : MalformedPolicy) (malformed : List MalformedType) :
    Except UnitError (List String) :=
  match policy, malformed with
  | .failFile, first :: _ => .error (.malformedType sourceId first)
  | _, _ => .ok (malformed.map warning)

/-- Reads a source file. -/
def read (sourceId text : String) (d : Dialect) (policy : MalformedPolicy) :
    Except UnitError SourceUnit := do
  let tree ← (TokenTree.read d text).mapError (.token sourceId)
  let found := Discovery.ofDocument d.language tree
  let warnings ← warnings? sourceId policy found.malformed
  pure {
    sourceId, language := d.language, tree
    declarations := (found.declarations.map (·.declaration)).filter (·.kind != .package)
    imports := found.imports, packages := found.packages, warnings
    metrics := { found.metrics with files := 1, tokens := tree.tokenCount } }

end SourceUnit

/-- How source files are read. -/
structure ReadingOptions where
  /-- The deepest nesting of angle brackets inside an identifier. -/
  maxDepth : Nat := 3
  /-- What becomes of malformed types. -/
  malformed : MalformedPolicy := .skipMember
  deriving DecidableEq, Repr

namespace Language

/-- Reads a source file of the language. -/
def readUnit (l : Language) (options : ReadingOptions) (sourceId text : String) :
    Except UnitError SourceUnit :=
  SourceUnit.read sourceId text ⟨l, options.maxDepth⟩ options.malformed

/-- Whether files of the language have exactly the given extension; capitals do not matter. -/
def hasExtension (l : Language) (extension : String) : Bool :=
  l.extensions.contains extension.toLower

end Language

end Outline
