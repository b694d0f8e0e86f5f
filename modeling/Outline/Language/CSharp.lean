import Outline.Declaration.Kind
import Outline.Language.Keyword
import Outline.Token.Recognizer

/-!
# C# declarations

The words, tokens and visibility rules of C#.
-/

namespace Outline.CSharp

/-- The reserved words. -/
def keywords : KeywordTable := [
  ("abstract", [.classModifier, .methodModifier]), ("as", [.operator]),
  ("async", [.methodModifier]), ("base", []), ("bool", [.type]), ("break", []), ("byte", [.type]),
  ("case", []), ("catch", []), ("char", [.type]), ("checked", []), ("class", [.block]),
  ("const", [.fieldModifier]), ("continue", []), ("decimal", [.type]), ("default", []),
  ("delegate", []), ("do", []), ("double", [.type]), ("else", []), ("enum", [.block]),
  ("event", [.fieldModifier]), ("explicit", []), ("extern", [.methodModifier]),
  ("false", [.literal]), ("finally", []), ("fixed", []), ("float", [.type]), ("for", []),
  ("foreach", []), ("goto", []), ("if", []), ("implicit", []), ("in", [.parameterModifier]),
  ("int", [.type]), ("interface", [.block]),
  ("internal", [.classModifier, .fieldModifier, .methodModifier]), ("is", [.operator]),
  ("lock", []), ("long", [.type]), ("namespace", [.block]),
  ("new", [.classModifier, .fieldModifier, .methodModifier]), ("null", [.literal]),
  ("object", [.type]), ("operator", []), ("out", [.parameterModifier]),
  ("override", [.methodModifier]), ("params", [.parameterModifier]),
  ("partial", [.classModifier, .methodModifier]),
  ("private", [.classModifier, .fieldModifier, .methodModifier]),
  ("protected", [.classModifier, .fieldModifier, .methodModifier]),
  ("public", [.classModifier, .fieldModifier, .methodModifier]), ("readonly", [.fieldModifier]),
  ("record", [.block]), ("ref", [.parameterModifier]), ("return", []), ("sbyte", [.type]),
  ("sealed", [.classModifier, .methodModifier]), ("short", [.type]), ("sizeof", []),
  ("stackalloc", []), ("static", [.classModifier, .fieldModifier, .methodModifier]),
  ("string", [.type]), ("struct", [.block]), ("switch", []), ("this", [.parameterModifier]),
  ("throw", []), ("true", [.literal]), ("try", []), ("typeof", []), ("uint", [.type]),
  ("ulong", [.type]), ("unchecked", []), ("unsafe", [.classModifier, .methodModifier]),
  ("ushort", [.type]), ("using", []), ("virtual", [.methodModifier]), ("void", []),
  ("volatile", [.fieldModifier]), ("while", [])]

/-- The types that need neither a declaration nor an import. -/
def implicitTypes : List String := [
  "dynamic", "nint", "nuint", "var", "void"]

/-- The operators. -/
def operators : List String := [
  "=>", "==", "!=", "<=", ">=", "&&", "||", "??", "?.", "++", "--", "+=", "-=", "*=", "/=", "%=",
  "&=", "|=", "^=", "<<", ">>", "->", "::", "+", "-", "*", "/", "%", "=", "!", "<", ">", "&", "|",
  "^", "~", "?", ":", "."]

/-- The separators. -/
def separators : List String := [";", ","]

/-- The string literals. -/
def strings : StringStyle where
  quotes := ['"', '\'']
  verbatim := true
  interpolated := true
  textBlocks := false
  templates := false

/-- The identifiers, with up to `depth` levels of type arguments. -/
def identifiers (depth : Nat) : IdentifierStyle where
  extraStart := ['@']
  extraPart := []
  generics := true
  wildcards := false
  maxDepth := depth

/-- The rules that split a text into tokens, in order of priority. -/
def rules (depth : Nat) : List Rule := [
  ⟨.whitespace, .discard⟩,
  ⟨.lineComment "//", .ofKind .comment⟩,
  ⟨.blockComment "/*" "*/", .ofKind .comment⟩,
  ⟨.directive '#', .discard⟩,
  ⟨.string strings, .ofKind .string⟩,
  ⟨.block '\x7b' '\x7d', .ofKind .block⟩,
  ⟨.block '(' ')', .ofKind .block⟩,
  ⟨.block '[' ']', .ofKind .block⟩,
  ⟨.identifier (identifiers depth), .keywordOrIdentifier⟩,
  ⟨.operators operators, .ofKind .operator⟩,
  ⟨.separators separators, .ofKind .separator⟩,
  ⟨.number, .ofKind .number⟩]

/-- The access that modifiers ask for.  The order of the modifiers does not matter; `protected`
and `internal` together allow what either of them allows. -/
def explicitAccess (modifiers : List String) : Option Access :=
  if modifiers.contains "public" then some .everyone
  else if modifiers.contains "protected" then
    if modifiers.contains "internal" then some .packageAndHeirs else some .heirs
  else if modifiers.contains "internal" then some .package
  else if modifiers.contains "private" then some .owner
  else none

/-- The access without such modifiers.  Types outside of types are visible in their assembly,
members of classes and enumerations to their owner, members of interfaces to everyone. -/
def defaultAccess (kind : DeclarationKind) (parent : Option DeclarationKind) : Access :=
  match kind, parent with
  | .package, _ => .everyone
  | _, none | _, some .package => .package
  | _, some .classLike | _, some .enumLike => .owner
  | _, some .interfaceLike => .everyone

end Outline.CSharp
