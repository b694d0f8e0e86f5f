import Outline.Project.NameMap
import Outline.Unit.Basic

/-!
# Declared names

The declarations of a project by their dotted full names.  Several partial declarations of one
C# class, structure, interface or namespace become one; any other two declarations of the same
name are a conflict.
-/

namespace Outline

/-- Why the names of a project have no meaning. -/
inductive ResolveError where
  /-- Two declarations of the same name, with the places where they are written. -/
  | duplicateName (name first second : String)
  deriving DecidableEq, Repr

namespace ResolveError

/-- How the error reads. -/
def message : ResolveError → String
  | duplicateName name first second =>
    "Duplicate declaration of '" ++ name ++ "' in " ++ first ++ " and " ++ second

end ResolveError

/-! ## Partial declarations -/

/-- The items of the first list and then those items of the second that are new. -/
def appendNew {α : Type} [BEq α] (xs ys : List α) : List α :=
  ys.foldl (fun xs y => if xs.contains y then xs else xs ++ [y]) xs

namespace Declaration

/-- The modifier of a declaration that is one of several parts. -/
def partialModifier : String := "partial"

/-- The declaration that two parts make up.  The first part decides the kind, the access and the
position. -/
def merge (a b : Declaration TypeRef) : Declaration TypeRef :=
  { a with
    extended? := a.extended?.or b.extended?
    typeParams := if a.typeParams.isEmpty then b.typeParams else a.typeParams
    implemented := appendNew a.implemented b.implemented
    modifiers := appendNew a.modifiers b.modifiers
    imports := appendNew a.imports b.imports
    annotations := a.annotations ++ b.annotations
    comments := a.comments ++ b.comments
    fields := a.fields ++ b.fields
    methods := a.methods ++ b.methods
    enumMembers := a.enumMembers ++ b.enumMembers }

end Declaration

/-! ## Symbols -/

/-- A declaration of a project. -/
structure ProjectSymbol where
  /-- The declaration, with all its parts. -/
  declaration : Declaration TypeRef
  /-- The language of the first part. -/
  language : Language
  /-- The file and the position of the first part. -/
  origin : String
  deriving Repr

namespace ProjectSymbol

/-- The dotted full name. -/
def name (s : ProjectSymbol) : String := s.declaration.fullNameText

/-- The symbols of a source file, in order. -/
def ofUnit (u : SourceUnit) : List ProjectSymbol :=
  u.declarations.map fun d =>
    { declaration := d, language := u.language,
      origin := u.sourceId ++ " (" ++ d.position.text ++ ")" }

/-- Whether two symbols of the same name are parts of one declaration. -/
def isPartOf (s t : ProjectSymbol) : Bool :=
  s.language == .csharp && t.language == .csharp &&
    s.declaration.kind == t.declaration.kind &&
    s.declaration.hasModifier Declaration.partialModifier &&
    t.declaration.hasModifier Declaration.partialModifier

/-- The symbol with a further part. -/
def merge (s t : ProjectSymbol) : ProjectSymbol :=
  { s with declaration := s.declaration.merge t.declaration }

/-- Adds a symbol to those that are known. -/
def addTo (table : NameMap ProjectSymbol) (s : ProjectSymbol) :
    Except ResolveError (NameMap ProjectSymbol) :=
  match table.get? s.name with
  | none => .ok (table.insert s.name s)
  | some known =>
    if known.isPartOf s then .ok (table.insert s.name (known.merge s))
    else .error (.duplicateName s.name known.origin s.origin)

end ProjectSymbol

/-- The declared names of a project. -/
structure Symbols where
  /-- The declarations by their dotted full names. -/
  table : NameMap ProjectSymbol
  /-- The full names of the packages and declarations. -/
  fullNames : List (List String)

namespace Symbols

/-- The declared names of the given source files. -/
def ofUnits (units : List SourceUnit) : Except ResolveError Symbols := do
  let table ← (units.flatMap ProjectSymbol.ofUnit).foldlM ProjectSymbol.addTo NameMap.empty
  pure {
    table
    fullNames := units.flatMap fun u => u.packages ++ u.declarations.map (·.fullName) }

/-- The declaration with the given full name. -/
def get? (s : Symbols) (fullName : List String) : Option ProjectSymbol :=
  s.table.get? (Text.dotted fullName)

/-- Whether there is a declaration with the given full name. -/
def contains (s : Symbols) (fullName : List String) : Bool :=
  s.table.contains (Text.dotted fullName)

/-- Whether a package or a declaration has the given name or lies under it. -/
def isDeclared (s : Symbols) (path : List String) : Bool :=
  !path.isEmpty && s.fullNames.any (path.isPrefixOf ·)

/-- The full name of the first declaration, in the order of names, that ends with the given parts
behind a scope that is accepted. -/
def endingWith? (s : Symbols) (parts : List String) (accepts : List String → Bool) :
    Option (List String) :=
  (s.table.values.map (·.declaration.fullName)).find? fun full =>
    parts.length < full.length && parts.isSuffixOf full &&
      accepts (full.take (full.length - parts.length))

end Symbols

end Outline
