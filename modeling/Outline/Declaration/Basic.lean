import Outline.Declaration.Kind
import Outline.Source
import Outline.TypeRef.Basic

/-!
# Declarations

What is kept of a class, an interface, an enumeration or a namespace: its head, its members and
the imports that are visible inside.  The types in it are of a type `T`, which is `TypeRef` in a
declaration as it is written and `ResolvedRef` after the resolution of a project.

* `Declaration.mapTypesM` changes every type of a declaration, in the order fields, methods (the
  parameters before the result), extended type, implemented types.
-/

namespace Outline

/-! ## Parts of declarations -/

/-- An argument of an annotation.  The name of an argument without one is `arg1`, `arg2`, … -/
structure AnnotationArgument where
  /-- The name. -/
  name : String
  /-- The text of the value, without the quotes of a string literal. -/
  value : String
  deriving DecidableEq, Repr, Inhabited

/-- An annotation or attribute. -/
structure Annotation where
  /-- The name. -/
  name : String
  /-- The arguments. -/
  arguments : List AnnotationArgument := []
  deriving DecidableEq, Repr, Inhabited

namespace Annotation

/-- The value of the first argument with the given name. -/
def argument? (a : Annotation) (name : String) : Option String :=
  (a.arguments.find? (·.name == name)).map (·.value)

end Annotation

/-- A statement that brings names into scope.  It names either a namespace, with the members
that it lists or with all of them, or the file of a module. -/
structure Import where
  /-- The parts of the name of the namespace. -/
  path : List String
  /-- The members that are listed; with none, the whole namespace is imported. -/
  names : List String := []
  /-- The name under which the target is imported. -/
  alias? : Option String := none
  /-- Whether the members of a class are imported. -/
  isStatic : Bool := false
  /-- The file of the module. -/
  module? : Option String := none
  deriving DecidableEq, Repr, Inhabited

namespace Import

/-- Whether the statement brings the given name into scope by itself.  An alias hides the name
that it stands for. -/
def importsName (i : Import) (name : String) : Bool :=
  match i.alias? with
  | some other => other == name
  | none => i.names.contains name

/-- Whether the statement imports all members of a namespace. -/
def isWholeNamespace (i : Import) : Bool :=
  i.module?.isNone && i.alias?.isNone && i.names.isEmpty && !i.path.isEmpty

end Import

/-- A field or property. -/
structure Field (T : Type) where
  /-- The name. -/
  name : String
  /-- The parts of the full name. -/
  fullName : List String
  /-- The type. -/
  type : T
  /-- The modifiers, in order. -/
  modifiers : List String
  /-- The annotations, in order. -/
  annotations : List Annotation
  /-- The comments before it, in order. -/
  comments : List String
  deriving DecidableEq, Repr

/-- A parameter of a method. -/
structure Parameter (T : Type) where
  /-- The name. -/
  name : String
  /-- The type. -/
  type : T
  /-- The modifiers, in order. -/
  modifiers : List String := []
  /-- The annotations, in order. -/
  annotations : List Annotation := []
  /-- Whether a call may leave the parameter out. -/
  isOptional : Bool := false
  /-- The text of the default value. -/
  default? : Option String := none
  deriving DecidableEq, Repr

/-- A method or constructor. -/
structure Method (T : Type) where
  /-- The name. -/
  name : String
  /-- The parts of the full name. -/
  fullName : List String
  /-- The type of the result. -/
  returnType : T
  /-- The type parameters, as they are written. -/
  typeParams : List TypeRef
  /-- The parameters. -/
  params : List (Parameter T)
  /-- The modifiers, in order. -/
  modifiers : List String
  /-- The annotations, in order. -/
  annotations : List Annotation
  /-- The comments before it, in order. -/
  comments : List String
  deriving DecidableEq, Repr

/-- A constant of an enumeration. -/
structure EnumMember where
  /-- The name. -/
  name : String
  /-- The parts of the full name. -/
  fullName : List String
  /-- The text of the value, or of the arguments. -/
  value? : Option String
  /-- The annotations, in order. -/
  annotations : List Annotation
  /-- The comments before it, in order. -/
  comments : List String
  deriving DecidableEq, Repr

/-! ## Declarations -/

/-- A class, interface, enumeration or namespace. -/
structure Declaration (T : Type) where
  /-- The parts of the full name. -/
  fullName : List String
  /-- What is declared. -/
  kind : DeclarationKind
  /-- The keyword of the declaration. -/
  keyword : String
  /-- Who may use it. -/
  access : Access
  /-- The modifiers, in order. -/
  modifiers : List String
  /-- The type parameters, as they are written. -/
  typeParams : List TypeRef
  /-- The class that it extends. -/
  extended? : Option T
  /-- The other base types. -/
  implemented : List T
  /-- The annotations, in order. -/
  annotations : List Annotation
  /-- The comments before it, in order. -/
  comments : List String
  /-- The fields and properties. -/
  fields : List (Field T) := []
  /-- The methods and constructors. -/
  methods : List (Method T) := []
  /-- The constants of an enumeration. -/
  enumMembers : List EnumMember := []
  /-- The imports that are visible inside. -/
  imports : List Import := []
  /-- The position of the keyword. -/
  position : Position
  deriving DecidableEq, Repr

namespace Declaration

variable {T U : Type} {m : Type → Type} [Monad m]

/-- The last part of the full name. -/
def simpleName (d : Declaration T) : String := (d.fullName.getLast?).getD ""

/-- The full name with its dots. -/
def fullNameText (d : Declaration T) : String := Text.dotted d.fullName

/-- The full name of the declaration around it. -/
def scope (d : Declaration T) : List String := d.fullName.dropLast

/-- Whether the declaration carries the given modifier. -/
def hasModifier (d : Declaration T) (modifier : String) : Bool := d.modifiers.contains modifier

/-- The base types, the extended one first. -/
def bases (d : Declaration T) : List T := d.extended?.toList ++ d.implemented

/-- The types of a declaration, each with the type parameters of the method that it belongs to:
those of the fields, of the methods, the extended type and the implemented types. -/
def types (d : Declaration T) : List (T × List TypeRef) :=
  d.fields.map (fun f => (f.type, [])) ++
    d.methods.flatMap (fun f =>
      f.params.map (fun p => (p.type, f.typeParams)) ++ [(f.returnType, f.typeParams)]) ++
    d.bases.map (fun t => (t, []))

/-- Changes the type of a field. -/
def mapFieldM (f : T → List TypeRef → m U) (x : Field T) : m (Field U) := do
  let type ← f x.type []
  pure { x with type }

/-- Changes the type of a parameter of a method with the given type parameters. -/
def mapParameterM (f : T → List TypeRef → m U) (typeParams : List TypeRef) (x : Parameter T) :
    m (Parameter U) := do
  let type ← f x.type typeParams
  pure { x with type }

/-- Changes the types of a method, those of its parameters first. -/
def mapMethodM (f : T → List TypeRef → m U) (x : Method T) : m (Method U) := do
  let params ← x.params.mapM (mapParameterM f x.typeParams)
  let returnType ← f x.returnType x.typeParams
  pure { x with params, returnType }

/-- Changes every type of a declaration.  The function is also given the type parameters of the
method that a type belongs to. -/
def mapTypesM (f : T → List TypeRef → m U) (d : Declaration T) : m (Declaration U) := do
  let fields ← d.fields.mapM (mapFieldM f)
  let methods ← d.methods.mapM (mapMethodM f)
  let extended? ← d.extended?.mapM (f · [])
  let implemented ← d.implemented.mapM (f · [])
  pure { d with fields, methods, extended?, implemented }

/-- Changes every type of a declaration. -/
def mapTypes (f : T → List TypeRef → U) (d : Declaration T) : Declaration U :=
  Id.run (d.mapTypesM fun t params => pure (f t params))

end Declaration

end Outline
