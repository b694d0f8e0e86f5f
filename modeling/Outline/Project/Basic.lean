import Outline.Project.Resolution

/-!
# Projects

A project is what a list of source files declares together: every declaration by its full name,
with the meaning of every type in it, and the names that denote nothing.

* `Project.resolve` fails only where two declarations of the same name are in conflict.
-/

namespace Outline

/-- The declarations of a list of source files. -/
structure Project where
  /-- The declarations by their dotted full names. -/
  declarations : NameMap (Declaration ResolvedRef) := .empty
  /-- The names of types and namespaces that nothing in the project declares. -/
  missing : NameSet := .empty

namespace Project

/-- The paths of the imports that lead nowhere. -/
def missingImports (symbols : Symbols) (imports : List Import) : List (List String) :=
  (imports.filter fun i =>
    i.module?.isNone && !i.path.isEmpty && !symbols.isDeclared i.path).map (·.path)

/-- A declaration with the meaning of its types. -/
def resolveSymbol (symbols : Symbols) (s : ProjectSymbol) : Declaration ResolvedRef :=
  (Scope.ofSymbol symbols s).resolveTypes s.declaration

/-- The names that denote nothing in a declaration. -/
def symbolGaps (symbols : Symbols) (s : ProjectSymbol) : List (List String) :=
  (Scope.ofSymbol symbols s).gapsOf s.declaration

/-- Resolves the types of a list of source files. -/
def resolve (units : List SourceUnit) : Except ResolveError Project := do
  let symbols ← Symbols.ofUnits units
  let missing :=
    missingImports symbols (units.flatMap (·.imports)) ++
      symbols.table.values.flatMap (symbolGaps symbols)
  pure {
    declarations := symbols.table.map (resolveSymbol symbols)
    missing := NameSet.ofNames (missing.map Text.dotted) }

/-- The declaration with the given dotted name. -/
def get? (p : Project) (fullName : String) : Option (Declaration ResolvedRef) :=
  p.declarations.get? fullName

/-- The declarations whose full names start with the given parts. -/
def under (p : Project) (path : List String) : NameMap (Declaration ResolvedRef) :=
  p.declarations.filter fun _ d => path.isPrefixOf d.fullName

end Project

end Outline
