import Outline.Output.Data
import Outline.Declaration.Basic
import Outline.TypeRef.Basic

/-!
# Records of declarations

How declarations and their parts are written in output files: which fields there are, in which
order, and which of them are left out when they are empty.
-/

namespace Outline

open Data (optionalList optionalText texts textOrNull)

/-! ## Types -/

namespace TypeRef

/-- The fields for a mark and for array brackets, which are left out if there are none. -/
def markFields (nullable : Bool) (dimensions : Nat) : List (String × Data) :=
  (if nullable then [("nullable", .bool true)] else []) ++
    (if dimensions == 0 then [] else [("array_dimensions", .number dimensions)])

mutual

/-- The record of a type reference. -/
def record : TypeRef → Data
  | ⟨name, nullable, dimensions, params⟩ =>
    .record (("name", .text name) :: markFields nullable dimensions ++
      optionalList "params" (records params))

/-- The records of a list of type references. -/
def records : List TypeRef → List Data
  | [] => []
  | t :: ts => t.record :: records ts

end

end TypeRef

namespace ResolvedRef

mutual

/-- The record of a reference with its meaning. -/
def record : ResolvedRef → Data
  | ⟨name, fullName, resolution, nullable, dimensions, params⟩ =>
    .record ([("name", Data.text name), ("full_name", Data.texts fullName),
        ("resolution", Data.text resolution.code)] ++
      TypeRef.markFields nullable dimensions ++ optionalList "params" (records params))

/-- The records of a list of references. -/
def records : List ResolvedRef → List Data
  | [] => []
  | t :: ts => t.record :: records ts

end

end ResolvedRef

/-! ## Parts of declarations -/

/-- The record of an argument of an annotation. -/
def AnnotationArgument.record (a : AnnotationArgument) : Data :=
  .record [("name", .text a.name), ("value", .text a.value)]

/-- The record of an annotation. -/
def Annotation.record (a : Annotation) : Data :=
  .record (("name", .text a.name) ::
    optionalList "arguments" (a.arguments.map AnnotationArgument.record))

/-- The record of an import. -/
def Import.record (i : Import) : Data :=
  .record (("path", texts i.path) :: optionalList "names" (i.names.map .text) ++
    optionalText "alias" i.alias? ++ [("is_static", .bool i.isStatic)] ++
    optionalText "source" i.module?)

variable {T : Type}

/-- The record of a field, where `type` makes the record of a type. -/
def Field.record (type : T → Data) (f : Field T) : Data :=
  .record [("name", .text f.name), ("full_name", texts f.fullName), ("type", type f.type),
    ("modifiers", texts f.modifiers), ("annotations", .list (f.annotations.map Annotation.record)),
    ("comments", texts f.comments)]

/-- The record of a parameter, where `type` makes the record of a type. -/
def Parameter.record (type : T → Data) (p : Parameter T) : Data :=
  .record ([("name", .text p.name), ("type", type p.type)] ++
    optionalList "modifiers" (p.modifiers.map .text) ++
    optionalList "annotations" (p.annotations.map Annotation.record) ++
    [("optional", .bool p.isOptional)] ++ optionalText "default_value" p.default?)

/-- The record of a method, where `type` makes the record of a type. -/
def Method.record (type : T → Data) (m : Method T) : Data :=
  .record ([("name", .text m.name), ("full_name", texts m.fullName),
      ("return_type", type m.returnType)] ++
    optionalList "generic_params" (TypeRef.records m.typeParams) ++
    [("params", .list (m.params.map (Parameter.record type))), ("modifiers", texts m.modifiers),
      ("annotations", .list (m.annotations.map Annotation.record)), ("comments", texts m.comments)])

/-- The record of a constant. -/
def EnumMember.record (m : EnumMember) : Data :=
  .record ([("name", .text m.name), ("full_name", texts m.fullName)] ++
    optionalText "value" m.value? ++
    [("annotations", .list (m.annotations.map Annotation.record)), ("comments", texts m.comments)])

/-- The record of a position. -/
def Position.record (p : Position) : Data :=
  .record [("line", .number p.line), ("column", .number p.column)]

/-! ## Declarations -/

/-- The record of a declaration, where `type` makes the record of a type. -/
def Declaration.record (type : T → Data) (d : Declaration T) : Data :=
  .record [
    ("full_name", texts d.fullName),
    ("kind", .text d.kind.text),
    ("declaration", .text d.keyword),
    ("access", .text d.access.code),
    ("modifiers", texts d.modifiers),
    ("generic_params", .list (TypeRef.records d.typeParams)),
    ("extends", (d.extended?.map type).getD .null),
    ("implements", .list (d.implemented.map type)),
    ("annotations", .list (d.annotations.map Annotation.record)),
    ("comments", texts d.comments),
    ("fields", .list (d.fields.map (Field.record type))),
    ("methods", .list (d.methods.map (Method.record type))),
    ("enum_members", .list (d.enumMembers.map EnumMember.record)),
    ("imports", .list (d.imports.map Import.record)),
    ("position", d.position.record)]

end Outline
