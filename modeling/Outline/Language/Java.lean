import Outline.Declaration.Kind
import Outline.Language.Keyword
import Outline.Token.Recognizer

/-!
# Java declarations

The words, tokens and visibility rules of Java.
-/

namespace Outline.Java

/-- The reserved words. -/
def keywords : KeywordTable := [
  ("abstract", [.classModifier, .methodModifier]), ("assert", []), ("boolean", [.type]),
  ("break", []), ("byte", [.type]), ("case", []), ("catch", []), ("char", [.type]),
  ("class", [.block]), ("const", []), ("continue", []), ("default", [.methodModifier]), ("do", []),
  ("double", [.type]), ("else", []), ("enum", [.block]), ("extends", [.inheritance]),
  ("false", [.literal]),
  ("final", [.classModifier, .fieldModifier, .methodModifier, .parameterModifier]), ("finally", []),
  ("float", [.type]), ("for", []), ("goto", []), ("if", []), ("implements", [.inheritance]),
  ("import", []), ("instanceof", [.operator]), ("int", [.type]), ("interface", [.block]),
  ("long", [.type]), ("native", [.methodModifier]), ("new", []), ("null", [.literal]),
  ("package", []), ("private", [.classModifier, .fieldModifier, .methodModifier]),
  ("protected", [.classModifier, .fieldModifier, .methodModifier]),
  ("public", [.classModifier, .fieldModifier, .methodModifier]), ("return", []), ("short", [.type]),
  ("static", [.classModifier, .fieldModifier, .methodModifier]),
  ("strictfp", [.classModifier, .methodModifier]), ("super", []), ("switch", []),
  ("synchronized", [.methodModifier]), ("this", []), ("throw", []), ("throws", []),
  ("transient", [.fieldModifier]), ("true", [.literal]), ("try", []), ("void", []),
  ("volatile", [.fieldModifier]), ("while", [])]

/-- The types that need neither a declaration nor an import. -/
def implicitTypes : List String := [
  "Boolean", "Byte", "Character", "Class", "Comparable", "Deprecated", "Double", "Enum", "Error",
  "Exception", "Float", "FunctionalInterface", "Integer", "Iterable", "Long", "Math", "Number",
  "Object", "Override", "Record", "Runnable", "RuntimeException", "Short", "String",
  "StringBuilder", "SuppressWarnings", "System", "Thread", "Throwable", "Void", "var", "void"]

/-- The operators. -/
def operators : List String := [
  ">>>", "...", "->", "==", "!=", "<=", ">=", "&&", "||", "++", "--", "+=", "-=", "*=", "/=", "%=",
  "&=", "|=", "^=", "<<", ">>", "+", "-", "*", "/", "%", "=", "!", "<", ">", "&", "|", "^", "~",
  "?", ":", "."]

/-- The separators. -/
def separators : List String := [";", ",", "@", "::"]

/-- The string literals. -/
def strings : StringStyle where
  quotes := ['"', '\'']
  verbatim := false
  interpolated := false
  textBlocks := true
  templates := false

/-- The identifiers, with up to `depth` levels of type arguments. -/
def identifiers (depth : Nat) : IdentifierStyle where
  extraStart := ['$']
  extraPart := ['$']
  generics := true
  wildcards := true
  maxDepth := depth

/-- The rules that split a text into tokens, in order of priority. -/
def rules (depth : Nat) : List Rule := [
  ⟨.whitespace, .discard⟩,
  ⟨.lineComment "//", .ofKind .comment⟩,
  ⟨.blockComment "/*" "*/", .ofKind .comment⟩,
  ⟨.string strings, .ofKind .string⟩,
  ⟨.block '\x7b' '\x7d', .ofKind .block⟩,
  ⟨.block '(' ')', .ofKind .block⟩,
  ⟨.block '[' ']', .ofKind .block⟩,
  ⟨.identifier (identifiers depth), .keywordOrIdentifier⟩,
  ⟨.separators separators, .ofKind .separator⟩,
  ⟨.operators operators, .ofKind .operator⟩,
  ⟨.number, .ofKind .number⟩]

/-- The access that the first access modifier asks for. -/
def explicitAccess (modifiers : List String) : Option Access :=
  modifiers.findSome? fun
    | "public" => some .everyone
    | "protected" => some .packageAndHeirs
    | "private" => some .owner
    | _ => none

/-- The access without such a modifier: the package, and everyone inside interfaces. -/
def defaultAccess (kind : DeclarationKind) (parent : Option DeclarationKind) : Access :=
  match kind, parent with
  | .package, _ => .everyone
  | _, none | _, some .package => .package
  | _, some .classLike | _, some .enumLike => .package
  | _, some .interfaceLike => .everyone

end Outline.Java
