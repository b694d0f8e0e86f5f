/-!
# Kinds of declarations and their visibility
-/

namespace Outline

/-- What a declaration with a body declares. -/
inductive DeclarationKind where
  /-- A namespace, package or module. -/
  | package
  /-- A class, structure or record. -/
  | classLike
  /-- An interface. -/
  | interfaceLike
  /-- An enumeration. -/
  | enumLike
  deriving DecidableEq, Repr, Inhabited

namespace DeclarationKind

/-- Every kind. -/
def all : List DeclarationKind := [package, classLike, interfaceLike, enumLike]

/-- The name of the kind in output. -/
def text : DeclarationKind → String
  | package => "namespace"
  | classLike => "class"
  | interfaceLike => "interface"
  | enumLike => "enum"

/-- The kind with the given name in output. -/
def ofText? (s : String) : Option DeclarationKind := all.find? (·.text == s)

/-- The kind of declaration that a keyword introduces. -/
def ofKeyword? : String → Option DeclarationKind
  | "namespace" | "module" => some package
  | "class" | "struct" | "record" => some classLike
  | "interface" => some interfaceLike
  | "enum" => some enumLike
  | _ => none

/-- Whether declarations of this kind hold fields, methods or constants. -/
def hasMembers : DeclarationKind → Bool
  | package => false
  | classLike | interfaceLike | enumLike => true

end DeclarationKind

/-- Who may use a declaration. -/
inductive Access where
  /-- Everyone. -/
  | everyone
  /-- Only the enclosing declaration. -/
  | owner
  /-- Subclasses. -/
  | heirs
  /-- The surrounding namespace, package or assembly. -/
  | package
  /-- The surrounding namespace, package or assembly, and subclasses. -/
  | packageAndHeirs
  deriving DecidableEq, Repr, Inhabited

namespace Access

/-- How the access reads in a message. -/
def text : Access → String
  | everyone => "public"
  | owner => "private"
  | heirs => "inheritance-local"
  | package => "namespace-local"
  | packageAndHeirs => "namespace-or-inheritance-local"

/-- The name of the access in output files. -/
def code : Access → String
  | everyone => "PUBLIC"
  | owner => "PRIVATE"
  | heirs => "INHERITANCE_LOCAL"
  | package => "NAMESPACE_LOCAL"
  | packageAndHeirs => "NAMESPACE_OR_INHERITANCE_LOCAL"

end Access

end Outline
