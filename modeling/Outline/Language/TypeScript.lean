import Outline.Declaration.Kind
import Outline.Language.Keyword
import Outline.Token.Recognizer

/-!
# TypeScript declarations

The words, tokens and visibility rules of TypeScript.
-/

namespace Outline.TypeScript

/-- The reserved words. -/
def keywords : KeywordTable := [
  ("abstract", [.classModifier, .fieldModifier, .methodModifier]), ("any", [.type]),
  ("as", [.operator]), ("async", [.methodModifier]), ("bigint", [.type]), ("boolean", [.type]),
  ("break", []), ("case", []), ("catch", []), ("class", [.block]), ("const", [.classModifier]),
  ("continue", []), ("declare", [.classModifier, .fieldModifier]), ("default", [.classModifier]),
  ("delete", [.operator]), ("do", []), ("else", []), ("enum", [.block]),
  ("export", [.classModifier]), ("extends", [.inheritance]), ("false", [.literal]), ("finally", []),
  ("for", []), ("function", []), ("if", []), ("implements", [.inheritance]), ("import", []),
  ("in", [.operator]), ("instanceof", [.operator]), ("interface", [.block]), ("let", []),
  ("module", [.block]), ("namespace", [.block]), ("never", [.type]), ("new", []),
  ("null", [.literal]), ("number", [.type]), ("object", [.type]),
  ("override", [.fieldModifier, .methodModifier]),
  ("private", [.fieldModifier, .methodModifier, .parameterModifier]),
  ("protected", [.fieldModifier, .methodModifier, .parameterModifier]),
  ("public", [.fieldModifier, .methodModifier, .parameterModifier]),
  ("readonly", [.fieldModifier, .parameterModifier]), ("return", []),
  ("static", [.fieldModifier, .methodModifier]), ("string", [.type]), ("super", []), ("switch", []),
  ("symbol", [.type]), ("this", []), ("throw", []), ("true", [.literal]), ("try", []),
  ("typeof", [.operator]), ("undefined", [.type, .literal]), ("unknown", [.type]), ("var", []),
  ("void", []), ("while", [])]

/-- The types that need neither a declaration nor an import. -/
def implicitTypes : List String := [
  "Array", "Boolean", "Date", "Error", "Function", "Iterable", "Map", "Number", "Object", "Omit",
  "Partial", "Pick", "Promise", "Readonly", "ReadonlyArray", "Record", "RegExp", "Set", "String",
  "Symbol", "null", "void"]

/-- The operators. -/
def operators : List String := [
  "===", "!==", "...", "**=", "=>", "==", "!=", "<=", ">=", "&&", "||", "??", "?.", "**", "++",
  "--", "+=", "-=", "*=", "/=", "%=", "&=", "|=", "^=", "<<", ">>", "+", "-", "*", "/", "%", "=",
  "!", "<", ">", "&", "|", "^", "~", "?", ":", "."]

/-- The separators. -/
def separators : List String := [";", ",", "@"]

/-- The string literals. -/
def strings : StringStyle where
  quotes := ['"', '\'']
  verbatim := false
  interpolated := false
  textBlocks := false
  templates := true

/-- The identifiers, with up to `depth` levels of type arguments. -/
def identifiers (depth : Nat) : IdentifierStyle where
  extraStart := ['$', '#']
  extraPart := ['$']
  generics := true
  wildcards := false
  maxDepth := depth

/-- The rules that split a text into tokens, in order of priority. -/
def rules (depth : Nat) : List Rule := [
  ⟨.whitespace, .discard⟩,
  ⟨.lineComment "//", .ofKind .comment⟩,
  ⟨.blockComment "/*" "*/", .ofKind .comment⟩,
  ⟨.string strings, .ofKind .string⟩,
  ⟨.block '\x7b' '\x7d', .ofKind .block⟩,
  ⟨.block '(' ')', .ofKind .block⟩,
  ⟨.block '[' ']', .ofKind .block⟩,
  ⟨.identifier (identifiers depth), .keywordOrIdentifier⟩,
  ⟨.separators separators, .ofKind .separator⟩,
  ⟨.operators operators, .ofKind .operator⟩,
  ⟨.number, .ofKind .number⟩]

/-- The access that the first access modifier asks for; an exported declaration is for everyone. -/
def explicitAccess (modifiers : List String) : Option Access :=
  modifiers.findSome? fun
    | "public" | "export" => some .everyone
    | "protected" => some .heirs
    | "private" => some .owner
    | _ => none

/-- The access without such a modifier: the module, and everyone inside types. -/
def defaultAccess (kind : DeclarationKind) (parent : Option DeclarationKind) : Access :=
  match kind, parent with
  | .package, _ => .package
  | _, none | _, some .package => .package
  | _, some .classLike | _, some .interfaceLike | _, some .enumLike => .everyone

end Outline.TypeScript
