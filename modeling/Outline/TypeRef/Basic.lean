import Outline.Text.Split

/-!
# Type references

A type reference is what a declaration writes where it names a type: a name, possibly with type
arguments, array brackets and a mark for a type that admits no value.

Wildcard arguments are references with the names `?`, `? extends` and `? super`; the last two
have the bound as their only argument.
-/

namespace Outline

/-- A type as it is written in a source text. -/
structure TypeRef where
  /-- The name, with dots where it is qualified. -/
  name : String
  /-- Whether the type is marked as admitting no value. -/
  nullable : Bool := false
  /-- Number of array brackets. -/
  dimensions : Nat := 0
  /-- The type arguments. -/
  params : List TypeRef := []
  deriving Repr, Inhabited

namespace TypeRef

/-! ## Equality -/

mutual

/-- Decides whether two type references are equal. -/
def decideEq : (a b : TypeRef) → Decidable (a = b)
  | ⟨n, q, d, ps⟩, ⟨n', q', d', ps'⟩ =>
    match decEq n n', decEq q q', decEq d d', decideEqAll ps ps' with
    | isTrue h₁, isTrue h₂, isTrue h₃, isTrue h₄ => isTrue (by rw [h₁, h₂, h₃, h₄])
    | isFalse h, _, _, _ => isFalse (fun e => h (by injection e))
    | _, isFalse h, _, _ => isFalse (fun e => h (by injection e))
    | _, _, isFalse h, _ => isFalse (fun e => h (by injection e))
    | _, _, _, isFalse h => isFalse (fun e => h (by injection e))

/-- Decides whether two lists of type references are equal. -/
def decideEqAll : (as bs : List TypeRef) → Decidable (as = bs)
  | [], [] => isTrue rfl
  | [], _ :: _ => isFalse (fun e => by injection e)
  | _ :: _, [] => isFalse (fun e => by injection e)
  | a :: as, b :: bs =>
    match decideEq a b, decideEqAll as bs with
    | isTrue h₁, isTrue h₂ => isTrue (by rw [h₁, h₂])
    | isFalse h, _ => isFalse (fun e => h (by injection e))
    | _, isFalse h => isFalse (fun e => h (by injection e))

end

instance : DecidableEq TypeRef := decideEq

/-! ## Parts -/

/-- A name without arguments, brackets and marks. -/
def simple (name : String) : TypeRef := { name }

/-- The parts of the dotted name. -/
def parts (t : TypeRef) : List String := Text.dottedParts t.name

/-- Whether the reference has type arguments. -/
def isGeneric (t : TypeRef) : Bool := !t.params.isEmpty

/-- The name of a wildcard without a bound. -/
def anyWildcard : String := "?"

/-- The name of a wildcard with an upper bound. -/
def upperWildcard : String := "? extends"

/-- The name of a wildcard with a lower bound. -/
def lowerWildcard : String := "? super"

/-- Whether a name is that of a wildcard. -/
def isWildcardName (name : String) : Bool :=
  [anyWildcard, upperWildcard, lowerWildcard].contains name

/-- Whether the reference is a wildcard argument. -/
def isWildcard (t : TypeRef) : Bool := isWildcardName t.name

/-! ## Text -/

/-- The text of a type with the given name and arguments. -/
def shapeText (name : String) (params : List String) (dimensions : Nat) (nullable : Bool) :
    String :=
  match isWildcardName name, params with
  | true, [bound] => name ++ " " ++ bound
  | _, _ =>
    name ++ (if params.isEmpty then "" else "<" ++ ", ".intercalate params ++ ">") ++
      String.join (List.replicate dimensions "[]") ++ (if nullable then "?" else "")

mutual

/-- The text of a type reference. -/
def text : TypeRef → String
  | ⟨name, nullable, dimensions, params⟩ => shapeText name (texts params) dimensions nullable

/-- The texts of a list of type references. -/
def texts : List TypeRef → List String
  | [] => []
  | t :: ts => t.text :: texts ts

end

end TypeRef

/-! ## References with a meaning -/

/-- What a type reference denotes. -/
inductive Resolution where
  /-- A declaration of the project. -/
  | project
  /-- A type of the language. -/
  | builtin
  /-- A type parameter of the method or of a declaration around the reference. -/
  | typeParameter
  /-- Nothing that is known. -/
  | unresolved
  deriving DecidableEq, Repr, Inhabited

namespace Resolution

/-- The name of the resolution in output files. -/
def code : Resolution → String
  | project => "project"
  | builtin => "builtin"
  | typeParameter => "type_parameter"
  | unresolved => "unresolved"

/-- The resolution with the given name. -/
def ofCode? : String → Option Resolution
  | "project" => some project
  | "builtin" => some builtin
  | "type_parameter" => some typeParameter
  | "unresolved" => some unresolved
  | _ => none

end Resolution

/-- A type reference with the full name of what it denotes. -/
structure ResolvedRef where
  /-- The name as it is written. -/
  name : String
  /-- The parts of the full name. -/
  fullName : List String
  /-- What the reference denotes. -/
  resolution : Resolution
  /-- Whether the type is marked as admitting no value. -/
  nullable : Bool := false
  /-- Number of array brackets. -/
  dimensions : Nat := 0
  /-- The type arguments. -/
  params : List ResolvedRef := []
  deriving Repr, Inhabited

namespace ResolvedRef

/-- The full name with its dots. -/
def fullNameText (t : ResolvedRef) : String := Text.dotted t.fullName

/-- Whether the reference denotes something that is known. -/
def isResolved (t : ResolvedRef) : Bool := t.resolution != .unresolved

mutual

/-- The text of a reference, with full names. -/
def text : ResolvedRef → String
  | ⟨_, fullName, _, nullable, dimensions, params⟩ =>
    TypeRef.shapeText (Text.dotted fullName) (texts params) dimensions nullable

/-- The texts of a list of references. -/
def texts : List ResolvedRef → List String
  | [] => []
  | t :: ts => t.text :: texts ts

end

mutual

/-- The reference without its meaning. -/
def erase : ResolvedRef → TypeRef
  | ⟨name, _, _, nullable, dimensions, params⟩ =>
    { name, nullable, dimensions, params := eraseAll params }

/-- The references of a list without their meanings. -/
def eraseAll : List ResolvedRef → List TypeRef
  | [] => []
  | t :: ts => t.erase :: eraseAll ts

end

end ResolvedRef

end Outline
