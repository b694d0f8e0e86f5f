import Mathlib.Data.List.Basic
import Outline.Project.Resolution

/-!
# The references of a declaration

A declaration refers to types, and a type to those among its arguments.

* `Declaration.types_mapTypes` — the types of a declaration after every type has been changed.
* `ResolvedRef.within`, `Scope.mem_within_resolve` — the references at any depth of a type, and how
  they are resolved.
-/

namespace Outline

namespace TypeRef

mutual

/-- A type with its arguments, their arguments, and so on. -/
def within : TypeRef → List TypeRef
  | ⟨name, nullable, dimensions, params⟩ =>
    ⟨name, nullable, dimensions, params⟩ :: withinAll params

/-- The types of a list with their arguments at any depth. -/
def withinAll : List TypeRef → List TypeRef
  | [] => []
  | t :: ts => t.within ++ withinAll ts

end

end TypeRef

namespace ResolvedRef

mutual

/-- A reference with its arguments, their arguments, and so on. -/
def within : ResolvedRef → List ResolvedRef
  | ⟨name, fullName, resolution, nullable, dimensions, params⟩ =>
    ⟨name, fullName, resolution, nullable, dimensions, params⟩ :: withinAll params

/-- The references of a list with their arguments at any depth. -/
def withinAll : List ResolvedRef → List ResolvedRef
  | [] => []
  | t :: ts => t.within ++ withinAll ts

end

end ResolvedRef

/-! ## The types of a declaration -/

namespace Declaration

variable {T U : Type} (f : T → List TypeRef → U)

/-- A field with its type changed. -/
def mapField (x : Field T) : Field U := { x with type := f x.type [] }

/-- A method with its types changed. -/
def mapMethod (x : Method T) : Method U :=
  { x with
    params := x.params.map fun p => { p with type := f p.type x.typeParams }
    returnType := f x.returnType x.typeParams }

/-- Changing the types of a declaration changes them one by one. -/
theorem mapTypes_eq (d : Declaration T) :
    d.mapTypes f = { d with
      fields := d.fields.map (mapField f)
      methods := d.methods.map (mapMethod f)
      extended? := d.extended?.map (f · [])
      implemented := d.implemented.map (f · []) } := by
  cases hextended : d.extended? <;>
    simp [mapTypes, mapTypesM, mapFieldM, mapMethodM, mapParameterM, mapField, mapMethod, hextended]

/-- The types of a declaration are changed each by itself. -/
theorem types_mapTypes (d : Declaration T) :
    (d.mapTypes f).types = d.types.map fun x => (f x.1 x.2, x.2) := by
  rw [mapTypes_eq]
  simp only [types, bases, mapField, mapMethod, List.map_append, List.map_map, List.flatMap_map,
    List.map_flatMap, Function.comp_def, List.map_cons, List.map_nil]
  cases d.extended? <;> simp

end Declaration

/-! ## References at any depth -/

namespace Scope

variable (s : Scope) (methodParams : List TypeRef)

theorem resolve_eq (t : TypeRef) :
    s.resolve methodParams t = {
      name := t.name, fullName := (s.meaning methodParams t).1,
      resolution := (s.meaning methodParams t).2, nullable := t.nullable,
      dimensions := t.dimensions, params := s.resolveAll methodParams t.params } := by
  cases t
  rw [resolve]

mutual

/-- The references at any depth are resolved each by itself. -/
theorem within_resolve (t : TypeRef) :
    (s.resolve methodParams t).within = t.within.map (s.resolve methodParams) := by
  match t with
  | ⟨name, nullable, dimensions, params⟩ =>
    rw [TypeRef.within, List.map_cons, ← withinAll_resolveAll, resolve_eq, ResolvedRef.within]

theorem withinAll_resolveAll (ts : List TypeRef) :
    ResolvedRef.withinAll (s.resolveAll methodParams ts) =
      (TypeRef.withinAll ts).map (s.resolve methodParams) := by
  match ts with
  | [] => rw [resolveAll, ResolvedRef.withinAll, TypeRef.withinAll, List.map_nil]
  | t :: ts =>
    rw [resolveAll, ResolvedRef.withinAll, TypeRef.withinAll, List.map_append, within_resolve t,
      withinAll_resolveAll ts]

end

/-- A reference at any depth of a resolved type is that of a written one. -/
theorem mem_within_resolve {t : TypeRef} {r : ResolvedRef}
    (h : r ∈ (s.resolve methodParams t).within) :
    ∃ x ∈ t.within, r.name = x.name ∧ (r.fullName, r.resolution) = s.meaning methodParams x := by
  rw [within_resolve, List.mem_map] at h
  obtain ⟨x, hx, rfl⟩ := h
  exact ⟨x, hx, by rw [resolve_eq], by rw [resolve_eq]⟩

mutual

/-- Each reference at any depth that denotes nothing is a gap. -/
theorem mem_gaps {t x : TypeRef} (hx : x ∈ t.within) {parts gap : List String}
    (hmeaning : s.meaning methodParams x = (parts, .unresolved)) (hgap : s.gap? parts = some gap) :
    gap ∈ s.gaps methodParams t := by
  match t with
  | ⟨name, nullable, dimensions, params⟩ =>
    rw [gaps]
    rw [TypeRef.within] at hx
    rcases List.mem_cons.1 hx with rfl | hx
    · refine List.mem_append_right _ ?_
      rw [hmeaning]
      simp [hgap]
    · exact List.mem_append_left _ (mem_gapsAll hx hmeaning hgap)

theorem mem_gapsAll {ts : List TypeRef} {x : TypeRef} (hx : x ∈ TypeRef.withinAll ts)
    {parts gap : List String} (hmeaning : s.meaning methodParams x = (parts, .unresolved))
    (hgap : s.gap? parts = some gap) : gap ∈ s.gapsAll methodParams ts := by
  match ts with
  | [] =>
    rw [TypeRef.withinAll] at hx
    exact absurd hx List.not_mem_nil
  | t :: ts =>
    rw [TypeRef.withinAll] at hx
    rw [gapsAll]
    rcases List.mem_append.1 hx with hx | hx
    · exact List.mem_append_left _ (mem_gaps hx hmeaning hgap)
    · exact List.mem_append_right _ (mem_gapsAll hx hmeaning hgap)

end

end Scope

end Outline
