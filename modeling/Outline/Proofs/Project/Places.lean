import Mathlib.Data.List.Nodup
import Outline.Proofs.Project.References

/-!
# The places of types in a declaration

A type of a declaration is found at its place: in a field, in a method, among the base types.  A
reference inside a type is found by the numbers of the arguments that lead to it.

* `Declaration.typeAt?` — the type at a place.
* `Declaration.places` — the places of all types, each once, in the order of `Declaration.types`.
* `Declaration.reference?` — the reference at a place and behind a path of arguments.
* `Scope.argument?_resolve`, `Scope.erase_resolve` — resolving a type keeps the paths, and what is
  written is still there.
-/

namespace Outline

/-- Where a type stands in a declaration. -/
inductive TypePlace where
  /-- The type of the field with the given number. -/
  | field (i : Nat)
  /-- The type of a parameter, by the numbers of the method and of the parameter. -/
  | parameter (i j : Nat)
  /-- The type of the result of the method with the given number. -/
  | result (i : Nat)
  /-- The extended type. -/
  | extended
  /-- The implemented type with the given number. -/
  | implemented (i : Nat)
  deriving DecidableEq

namespace Declaration

variable {T U : Type}

/-! ## Types at places -/

/-- The type at a place, with the type parameters of the method that it belongs to. -/
def typeAt? (d : Declaration T) : TypePlace → Option (T × List TypeRef)
  | .field i => d.fields[i]?.map fun f => (f.type, [])
  | .parameter i j => d.methods[i]?.bind fun f => f.params[j]?.map fun p => (p.type, f.typeParams)
  | .result i => d.methods[i]?.map fun f => (f.returnType, f.typeParams)
  | .extended => d.extended?.map (·, [])
  | .implemented i => d.implemented[i]?.map (·, [])

/-- The types stay at their places when they are changed. -/
theorem typeAt?_mapTypes (f : T → List TypeRef → U) (d : Declaration T) (place : TypePlace) :
    (d.mapTypes f).typeAt? place = (d.typeAt? place).map fun x => (f x.1 x.2, x.2) := by
  rw [mapTypes_eq]
  cases place with
  | field i => simp [typeAt?, mapField, Function.comp_def]
  | parameter i j =>
      cases hmethod : d.methods[i]? with
      | none => simp [typeAt?, hmethod]
      | some x => cases hparam : x.params[j]? <;> simp [typeAt?, hmethod, hparam, mapMethod]
  | result i => simp [typeAt?, mapMethod, Function.comp_def]
  | extended => simp [typeAt?, Function.comp_def]
  | implemented i => simp [typeAt?, Function.comp_def]

/-! ## All places -/

/-- The places of the types in the method with the given number. -/
def methodPlaces (i : Nat) (f : Method T) : List TypePlace :=
  (List.range f.params.length).map (.parameter i) ++ [.result i]

/-- The places of the types of a declaration, in the order of the types. -/
def places (d : Declaration T) : List TypePlace :=
  (List.range d.fields.length).map .field ++
    d.methods.zipIdx.flatMap (fun x => methodPlaces x.2 x.1) ++
      (d.extended?.toList.map (fun _ => .extended) ++
        (List.range d.implemented.length).map .implemented)

theorem map_getElem?_range {α : Type} (xs : List α) :
    (List.range xs.length).map (xs[·]?) = xs.map some := by
  refine List.ext_getElem? fun i => ?_
  rw [List.getElem?_map, List.getElem?_map]
  by_cases hi : i < xs.length
  · simp [hi]
  · simp [hi]

/-- The types of a declaration are those at its places, in order. -/
theorem map_typeAt?_places (d : Declaration T) : d.places.map d.typeAt? = d.types.map some := by
  have hmethods : (d.methods.zipIdx.flatMap fun x => methodPlaces x.2 x.1).map d.typeAt? =
      (d.methods.flatMap fun f => f.params.map (fun p => (p.type, f.typeParams)) ++
        [(f.returnType, f.typeParams)]).map some := by
    rw [List.map_flatMap, List.map_flatMap]
    conv_rhs => rw [← List.zipIdx_map_fst (l := d.methods) (i := 0), List.flatMap_map]
    refine List.flatMap_congr fun x hx => ?_
    have hget : d.methods[x.2]? = some x.1 := List.mem_zipIdx_iff_getElem?.1 hx
    have hparams := congrArg (List.map (Option.map fun p => (p.type, x.1.typeParams)))
      (map_getElem?_range x.1.params)
    simp only [List.map_map] at hparams
    simp only [methodPlaces, List.map_append, List.map_map, List.map_cons, List.map_nil]
    refine congrArg₂ _ (Eq.trans ?_ hparams) (by simp [typeAt?, hget])
    refine List.map_congr_left fun j _ => ?_
    simp only [Function.comp_def, typeAt?, hget, Option.bind_some]
  have hfields := congrArg (List.map (Option.map fun f => (f.type, ([] : List TypeRef))))
    (map_getElem?_range d.fields)
  have himplemented := congrArg (List.map (Option.map fun t => (t, ([] : List TypeRef))))
    (map_getElem?_range d.implemented)
  simp only [List.map_map] at hfields himplemented
  rw [places, types, bases, List.map_append, List.map_append, List.map_append, List.map_append,
    List.map_append, List.map_append, List.map_append, hmethods]
  simp only [List.map_map]
  refine congrArg₂ _ (congrArg₂ _ hfields rfl) (congrArg₂ _ ?_ himplemented)
  cases hextended : d.extended? <;> simp [typeAt?, hextended]

/-- A place is among them exactly if there is a type. -/
theorem mem_places_iff {d : Declaration T} {place : TypePlace} :
    place ∈ d.places ↔ (d.typeAt? place).isSome = true := by
  cases place with
  | field i => simp [places, methodPlaces, typeAt?]
  | parameter i j =>
      cases hmethod : d.methods[i]? <;>
        simp [places, methodPlaces, typeAt?, List.mem_zipIdx_iff_getElem?, hmethod]
  | result i =>
      cases hmethod : d.methods[i]? <;>
        simp [places, methodPlaces, typeAt?, List.mem_zipIdx_iff_getElem?, hmethod]
  | extended => cases hextended : d.extended? <;> simp [places, methodPlaces, typeAt?, hextended]
  | implemented i => simp [places, methodPlaces, typeAt?]

theorem nodup_methodPlaces (i : Nat) (f : Method T) : (methodPlaces i f).Nodup := by
  refine List.nodup_append.2 ⟨List.nodup_range.map ?_, List.nodup_singleton _, ?_⟩
  · intro j j' h
    cases h
    rfl
  · simp

theorem eq_of_mem_methodPlaces {place : TypePlace} {i i' : Nat} {f f' : Method T}
    (h : place ∈ methodPlaces i f) (h' : place ∈ methodPlaces i' f') : i = i' := by
  simp only [methodPlaces, List.mem_append, List.mem_map, List.mem_singleton] at h h'
  rcases h with ⟨j, -, rfl⟩ | rfl
  · rcases h' with ⟨j', -, heq⟩ | heq
    · cases heq
      rfl
    · cases heq
  · rcases h' with ⟨j', -, heq⟩ | heq
    · cases heq
    · cases heq
      rfl

/-- Each place is among them once. -/
theorem nodup_places (d : Declaration T) : d.places.Nodup := by
  have hmethods : (d.methods.zipIdx.flatMap fun x => methodPlaces x.2 x.1).Nodup := by
    refine List.nodup_flatMap.2 ⟨fun x _ => nodup_methodPlaces x.2 x.1, ?_⟩
    have hnumbers : (d.methods.zipIdx.map (·.2)).Nodup := by
      rw [List.zipIdx_map_snd]
      exact List.nodup_range'
    exact (List.pairwise_map.1 hnumbers).imp fun hne place hx hy =>
      hne (eq_of_mem_methodPlaces hx hy)
  refine List.nodup_append.2 ⟨List.nodup_append.2 ⟨List.nodup_range.map ?_, hmethods, ?_⟩,
    List.nodup_append.2 ⟨?_, List.nodup_range.map ?_, ?_⟩, ?_⟩
  · intro i i' h
    cases h
    rfl
  · intro place hfield _ hmethod heq
    obtain ⟨i, -, rfl⟩ := List.mem_map.1 hfield
    simp [← heq, methodPlaces] at hmethod
  · cases d.extended? <;> simp
  · intro i i' h
    cases h
    rfl
  · simp
  · intro place hmember _ hbase heq
    subst heq
    rcases List.mem_append.1 hbase with hbase | hbase
    · obtain ⟨t, -, rfl⟩ := List.mem_map.1 hbase
      simp [methodPlaces] at hmember
    · obtain ⟨i, -, rfl⟩ := List.mem_map.1 hbase
      simp [methodPlaces] at hmember

end Declaration

/-! ## Arguments of types -/

namespace TypeRef

/-- What holds of a type if it holds of its arguments holds of every type. -/
theorem params_induction {P : TypeRef → Prop} (step : ∀ t, (∀ u ∈ t.params, P u) → P t)
    (t : TypeRef) : P t :=
  step t fun u _ => params_induction step u
termination_by sizeOf t
decreasing_by
  rename_i hu
  cases t with
  | mk name nullable dimensions params =>
    have hlt := List.sizeOf_lt_of_mem hu
    simp only [TypeRef.mk.sizeOf_spec] at hlt ⊢
    omega

/-- What the numbers of some arguments lead to, each of them an argument of the one before it. -/
def argument? : List Nat → TypeRef → Option TypeRef
  | [], t => some t
  | i :: path, t => t.params[i]?.bind (argument? path)

end TypeRef

namespace ResolvedRef

/-- What the numbers of some arguments lead to, each of them an argument of the one before it. -/
def argument? : List Nat → ResolvedRef → Option ResolvedRef
  | [], t => some t
  | i :: path, t => t.params[i]?.bind (argument? path)

theorem mem_withinAll_iff {ts : List ResolvedRef} {r : ResolvedRef} :
    r ∈ withinAll ts ↔ ∃ t ∈ ts, r ∈ t.within := by
  induction ts with
  | nil => simp [withinAll]
  | cons t ts ih => simp [withinAll, ih]

/-- Some arguments lead to each reference at any depth. -/
theorem exists_argument? {t r : ResolvedRef} (h : r ∈ t.within) :
    ∃ path, t.argument? path = some r := by
  match t with
  | ⟨name, fullName, resolution, nullable, dimensions, params⟩ =>
    rw [within] at h
    rcases List.mem_cons.1 h with rfl | h
    · exact ⟨[], rfl⟩
    · obtain ⟨u, hu, h⟩ := mem_withinAll_iff.1 h
      obtain ⟨path, hpath⟩ := exists_argument? h
      obtain ⟨i, hi⟩ := List.mem_iff_getElem?.1 hu
      refine ⟨i :: path, ?_⟩
      rw [argument?, hi, Option.bind_some, hpath]
termination_by sizeOf t
decreasing_by
  have hlt := List.sizeOf_lt_of_mem hu
  simp only [ResolvedRef.mk.sizeOf_spec]
  omega

end ResolvedRef

namespace Declaration

/-- The reference at a place and behind a path of arguments. -/
def reference? (d : Declaration ResolvedRef) (place : TypePlace) (path : List Nat) :
    Option ResolvedRef :=
  (d.typeAt? place).bind fun x => x.1.argument? path

/-- Each reference of a declaration, at any depth, stands at some place. -/
theorem exists_reference? {d : Declaration ResolvedRef} {t r : ResolvedRef}
    {methodParams : List TypeRef} (ht : (t, methodParams) ∈ d.types) (hr : r ∈ t.within) :
    ∃ place path, d.reference? place path = some r := by
  have hsome : some (t, methodParams) ∈ d.places.map d.typeAt? := by
    rw [map_typeAt?_places]
    exact List.mem_map_of_mem ht
  obtain ⟨place, -, hplace⟩ := List.mem_map.1 hsome
  obtain ⟨path, hpath⟩ := ResolvedRef.exists_argument? hr
  exact ⟨place, path, by rw [reference?, hplace, Option.bind_some, hpath]⟩

end Declaration

/-! ## Resolved types -/

namespace Scope

variable (s : Scope) (methodParams : List TypeRef)

theorem resolveAll_eq_map (ts : List TypeRef) :
    s.resolveAll methodParams ts = ts.map (s.resolve methodParams) := by
  induction ts with
  | nil => rw [resolveAll, List.map_nil]
  | cons t ts ih => rw [resolveAll, List.map_cons, ih]

/-- The arguments of a type are resolved where they stand. -/
theorem argument?_resolve (path : List Nat) (t : TypeRef) :
    (s.resolve methodParams t).argument? path = (t.argument? path).map (s.resolve methodParams) := by
  induction path generalizing t with
  | nil => rfl
  | cons i path ih =>
      rw [ResolvedRef.argument?, TypeRef.argument?, resolve_eq, resolveAll_eq_map,
        List.getElem?_map]
      cases t.params[i]? with
      | none => rfl
      | some u => exact ih u

/-- The references of a declaration are resolved where they stand, each with the type parameters of
the method that it belongs to. -/
theorem reference?_resolveTypes (d : Declaration TypeRef) (place : TypePlace) (path : List Nat) :
    (s.resolveTypes d).reference? place path = (d.typeAt? place).bind fun x =>
      (x.1.argument? path).map (s.resolve x.2) := by
  rw [resolveTypes, Declaration.reference?, Declaration.typeAt?_mapTypes]
  cases d.typeAt? place with
  | none => rfl
  | some x => exact s.argument?_resolve x.2 path x.1

mutual

/-- A type that has been resolved is still what is written. -/
theorem erase_resolve (t : TypeRef) : (s.resolve methodParams t).erase = t := by
  match t with
  | ⟨name, nullable, dimensions, params⟩ =>
    rw [resolve_eq, ResolvedRef.erase, eraseAll_resolveAll params]

theorem eraseAll_resolveAll (ts : List TypeRef) :
    ResolvedRef.eraseAll (s.resolveAll methodParams ts) = ts := by
  match ts with
  | [] => rw [resolveAll, ResolvedRef.eraseAll]
  | t :: ts => rw [resolveAll, ResolvedRef.eraseAll, erase_resolve t, eraseAll_resolveAll ts]

end

end Scope

end Outline
