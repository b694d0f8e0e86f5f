import Outline.Project.Symbols

/-!
# The meaning of type references

What a type reference inside a declaration denotes.  A name is looked up, in this order, among

* the type parameters of the method and of the declarations around the reference,
* the types of the language,
* the declarations of the enclosing scopes, from the innermost to the global one,
* the declarations that the imports stand for, in the order of the imports,
* the declarations below a namespace that is imported, in the order of their names.

A dotted name cannot be a type parameter or a type of the language.
-/

namespace Outline

namespace Import

/-- The full name that the given parts of a name would have if the import brings it into scope. -/
def target? (i : Import) (parts : List String) : Option (List String) :=
  match parts with
  | [] => none
  | first :: rest =>
    match i.alias? with
    | some other => if other == first then some (i.path ++ i.names ++ rest) else none
    | none =>
      if i.names.isEmpty || i.names.contains first then some (i.path ++ parts) else none

end Import

/-- What is visible inside a declaration of a project. -/
structure Scope where
  /-- The declared names of the project. -/
  symbols : Symbols
  /-- The language of the declaration. -/
  language : Language
  /-- The parts of the full name of the declaration. -/
  fullName : List String
  /-- The type parameters of the declaration and of those around it. -/
  typeParams : List String
  /-- The imports that are visible inside the declaration. -/
  imports : List Import

namespace Scope

/-- The names of the type parameters of a declaration and of those around it. -/
def typeParamsOf (symbols : Symbols) (d : Declaration TypeRef) : List String :=
  let around := (List.range d.fullName.length).filterMap fun n =>
    if n == 0 then none else symbols.get? (d.fullName.take n)
  (d.typeParams ++ around.flatMap (·.declaration.typeParams)).map (·.name)

/-- The scope inside a declaration. -/
def ofSymbol (symbols : Symbols) (s : ProjectSymbol) : Scope where
  symbols := symbols
  language := s.language
  fullName := s.declaration.fullName
  typeParams := typeParamsOf symbols s.declaration
  imports := s.declaration.imports

/-! ## Looking names up -/

/-- The full names that the given parts may have in one of the enclosing scopes, the innermost
first. -/
def enclosing (s : Scope) (parts : List String) : List (List String) :=
  (List.range (s.fullName.length + 1)).reverse.map fun n => s.fullName.take n ++ parts

/-- The full names that the given parts may have through an import, in order. -/
def imported (s : Scope) (parts : List String) : List (List String) :=
  s.imports.filterMap (·.target? parts)

/-- Whether a namespace lies at or under a path of an import. -/
def importsUnder (s : Scope) (path : List String) : Bool :=
  s.imports.any fun i => !i.path.isEmpty && i.path.isPrefixOf path

/-- The full name of the declaration that the given parts of a name denote. -/
def find? (s : Scope) (parts : List String) : Option (List String) :=
  ((s.enclosing parts ++ s.imported parts).find? s.symbols.contains).or
    (s.symbols.endingWith? parts s.importsUnder)

/-- Whether a name is that of a type parameter of a method or of a declaration around it. -/
def isTypeParam (s : Scope) (methodParams : List TypeRef) (name : String) : Bool :=
  methodParams.any (·.name == name) || s.typeParams.contains name

/-- What a name denotes, with its full name.  A wildcard stands for a type parameter. -/
def meaning (s : Scope) (methodParams : List TypeRef) (t : TypeRef) :
    List String × Resolution :=
  let parts := t.parts
  if t.isWildcard then ([t.name], .typeParameter)
  else if parts.length == 1 && s.isTypeParam methodParams t.name then (parts, .typeParameter)
  else if parts.length == 1 && s.language.isBuiltinType t.name then (parts, .builtin)
  else match s.find? parts with
    | some fullName => (fullName, .project)
    | none => (parts, .unresolved)

mutual

/-- Resolves a type reference with its arguments. -/
def resolve (s : Scope) (methodParams : List TypeRef) : TypeRef → ResolvedRef
  | ⟨name, nullable, dimensions, params⟩ =>
    let (fullName, resolution) := s.meaning methodParams ⟨name, nullable, dimensions, params⟩
    { name, fullName, resolution, nullable, dimensions, params := s.resolveAll methodParams params }

/-- Resolves a list of type references. -/
def resolveAll (s : Scope) (methodParams : List TypeRef) : List TypeRef → List ResolvedRef
  | [] => []
  | t :: ts => s.resolve methodParams t :: s.resolveAll methodParams ts

end

/-- Resolves every type of a declaration. -/
def resolveTypes (s : Scope) (d : Declaration TypeRef) : Declaration ResolvedRef :=
  d.mapTypes fun t methodParams => s.resolve methodParams t

/-! ## Missing names -/

/-- The name to report for a name that denotes nothing.  An import that names it tells where it
should be, unless that is outside the project.  Nothing is reported if a namespace that is
imported as a whole is missing itself. -/
def gap? (s : Scope) (parts : List String) : Option (List String) :=
  match parts with
  | [] => none
  | first :: _ =>
    match s.imports.find? (·.importsName first) with
    | some i => if i.module?.isSome then none else i.target? parts
    | none =>
      if s.imports.any fun i => i.isWholeNamespace && !s.symbols.isDeclared i.path then none
      else some parts

mutual

/-- The names to report for a type reference and its arguments. -/
def gaps (s : Scope) (methodParams : List TypeRef) : TypeRef → List (List String)
  | ⟨name, nullable, dimensions, params⟩ =>
    let here :=
      match s.meaning methodParams ⟨name, nullable, dimensions, params⟩ with
      | (parts, .unresolved) => (s.gap? parts).toList
      | _ => []
    s.gapsAll methodParams params ++ here

/-- The names to report for a list of type references. -/
def gapsAll (s : Scope) (methodParams : List TypeRef) : List TypeRef → List (List String)
  | [] => []
  | t :: ts => s.gaps methodParams t ++ s.gapsAll methodParams ts

end

/-- The names to report for the types of a declaration. -/
def gapsOf (s : Scope) (d : Declaration TypeRef) : List (List String) :=
  d.types.flatMap fun (t, methodParams) => s.gaps methodParams t

end Scope

end Outline
