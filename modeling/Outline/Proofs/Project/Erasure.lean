import Mathlib.Data.Prod.Basic
import Outline.Proofs.Project.Parts
import Outline.Proofs.Project.Places
import Outline.Proofs.Token.Reading

/-!
# What resolution adds

Resolving the types of a declaration adds the meaning of each of them and changes nothing else.
The types are walked through one by one, the arguments of a type before the type itself.

* `Declaration.erase` — a declaration without the meaning of its types.
* `Declaration.ListsOnce` — a list has each reference of a declaration once.
* `Scope.resolveM` — one walk through a type, with a look-up that may do more than to answer.
* `Scope.mapTypesM_resolveM` — the look-ups of a walk through a declaration.
* `Scope.mapTypesM_gapsAt` — the names to report come out of the same walk.
* `Project.erase_of_resolve` — what becomes of a declaration whose name is declared once.
-/

namespace Outline

/-! ## Taking notes -/

/-- An answer, with some items that are added to a list. -/
def note {α β : Type} (items : List α) (x : β) : StateM (List α) β := do
  modify (· ++ items)
  pure x

section

variable {α β γ : Type}

/-- What is noted one after the other stands in the list in this order. -/
theorem note_bind_note (items : List α) (x : β) (later : β → List α) (next : β → γ) :
    (note items x >>= fun x => note (later x) (next x)) = note (items ++ later x) (next x) := by
  funext seen
  exact congrArg (fun items => (next x, items)) (List.append_assoc seen items (later x))

theorem note_bind_pure (items : List α) (x : β) (next : β → γ) :
    (note items x >>= fun x => pure (next x)) = note items (next x) := rfl

theorem pure_eq_note (x : β) : (pure x : StateM (List α) β) = note [] x := by
  funext seen
  exact congrArg (fun items => (x, items)) (List.append_nil seen).symm

theorem mapM_note (items : γ → List α) (answer : γ → β) (xs : List γ) :
    xs.mapM (fun x => note (items x) (answer x)) = note (xs.flatMap items) (xs.map answer) := by
  induction xs with
  | nil => rw [List.mapM_nil, pure_eq_note, List.flatMap_nil, List.map_nil]
  | cons x xs ih =>
      rw [List.mapM_cons, ih, List.flatMap_cons, List.map_cons]
      simp only [note_bind_pure, note_bind_note]

end

/-! ## Walking through a declaration -/

namespace Declaration

variable {α T U : Type} (items : T → List TypeRef → List α) (answer : T → List TypeRef → U)

theorem mapMethodM_note (f : Method T) :
    mapMethodM (fun t methodParams => note (items t methodParams) (answer t methodParams)) f =
      note ((f.params.map (fun p => (p.type, f.typeParams)) ++ [(f.returnType, f.typeParams)]).flatMap
        fun x => items x.1 x.2) (mapMethod answer f) := by
  have hparams : mapParameterM (fun t methodParams => note (items t methodParams)
      (answer t methodParams)) f.typeParams = fun p : Parameter T =>
        note (items p.type f.typeParams) { p with type := answer p.type f.typeParams } := rfl
  rw [mapMethodM, hparams, mapM_note]
  simp only [note_bind_pure, note_bind_note]
  rw [List.flatMap_append, List.flatMap_map, List.flatMap_singleton]
  rfl

/-- A walk through a declaration comes to each of its types once, in order. -/
theorem mapTypesM_note (d : Declaration T) :
    d.mapTypesM (fun t methodParams => note (items t methodParams) (answer t methodParams)) =
      note (d.types.flatMap fun x => items x.1 x.2) (d.mapTypes answer) := by
  have hfield : mapFieldM (fun t methodParams => note (items t methodParams)
      (answer t methodParams)) = fun f : Field T => note (items f.type []) (mapField answer f) := rfl
  have hextended : d.extended?.mapM (fun t => note (items t []) (answer t [])) =
      note (d.extended?.toList.flatMap (items · [])) (d.extended?.map (answer · [])) := by
    cases d.extended? with
    | none => exact pure_eq_note _
    | some t =>
        rw [Option.toList_some, List.flatMap_singleton, Option.map_some]
        exact note_bind_pure (items t []) (answer t []) some
  rw [mapTypesM, hfield, funext (mapMethodM_note items answer), hextended]
  simp only [mapM_note, note_bind_pure, note_bind_note]
  rw [mapTypes_eq]
  refine congrArg (note · _) ?_
  simp only [types, bases, List.map_append, List.flatMap_append, List.flatMap_map,
    List.flatMap_assoc, List.append_assoc]

end Declaration

/-! ## Walking through a type -/

namespace TypeRef

mutual

/-- The references of a type in the order of a walk, the arguments of each before the type. -/
def visits : TypeRef → List TypeRef
  | ⟨name, nullable, dimensions, params⟩ =>
    visitsAll params ++ [⟨name, nullable, dimensions, params⟩]

/-- The references of some types in the order of a walk. -/
def visitsAll : List TypeRef → List TypeRef
  | [] => []
  | t :: ts => t.visits ++ visitsAll ts

end

mutual

/-- The numbers of the arguments that lead to the references of a type, in the order of a walk. -/
def paths : TypeRef → List (List Nat)
  | ⟨_, _, _, params⟩ => pathsFrom 0 params ++ [[]]

/-- Those for some arguments, the first of which has the given number. -/
def pathsFrom : Nat → List TypeRef → List (List Nat)
  | _, [] => []
  | i, t :: ts => t.paths.map (i :: ·) ++ pathsFrom (i + 1) ts

end

theorem visitsAll_eq (ts : List TypeRef) : visitsAll ts = ts.flatMap visits := by
  induction ts with
  | nil => rw [visitsAll, List.flatMap_nil]
  | cons t ts ih => rw [visitsAll, List.flatMap_cons, ih]

theorem pathsFrom_eq (i : Nat) (ts : List TypeRef) :
    pathsFrom i ts = (ts.zipIdx i).flatMap fun x => x.1.paths.map (x.2 :: ·) := by
  induction ts generalizing i with
  | nil => rw [pathsFrom, List.zipIdx_nil, List.flatMap_nil]
  | cons t ts ih => rw [pathsFrom, List.zipIdx_cons, List.flatMap_cons, ih]

theorem visits_eq (t : TypeRef) : t.visits = t.params.flatMap visits ++ [t] := by
  cases t
  rw [visits, visitsAll_eq]

theorem paths_eq (t : TypeRef) :
    t.paths = (t.params.zipIdx.flatMap fun x => x.1.paths.map (x.2 :: ·)) ++ [[]] := by
  cases t
  rw [paths, pathsFrom_eq]

/-- The paths lead to the references, in the order of a walk. -/
theorem map_argument?_paths (t : TypeRef) : t.paths.map (argument? · t) = t.visits.map some := by
  induction t using params_induction with
  | step t ih =>
    rw [paths_eq, visits_eq, List.map_append, List.map_append, List.map_flatMap, List.map_flatMap]
    refine congrArg₂ _ ?_ rfl
    conv_rhs => rw [← List.zipIdx_map_fst (l := t.params) (i := 0), List.flatMap_map]
    refine List.flatMap_congr fun x hx => ?_
    have hget : t.params[x.2]? = some x.1 := List.mem_zipIdx_iff_getElem?.1 hx
    rw [← ih x.1 (List.mem_of_getElem? hget), List.map_map]
    refine List.map_congr_left fun path _ => ?_
    rw [Function.comp_apply, argument?, hget, Option.bind_some]

/-- A path is among them exactly if it leads to a reference. -/
theorem mem_paths_iff (t : TypeRef) (path : List Nat) :
    path ∈ t.paths ↔ (t.argument? path).isSome = true := by
  induction path generalizing t with
  | nil =>
      rw [paths_eq]
      simp [argument?]
  | cons i path ih =>
      rw [paths_eq, argument?]
      cases hget : t.params[i]? with
      | none => simp [List.mem_zipIdx_iff_getElem?, hget]
      | some u => simp [List.mem_zipIdx_iff_getElem?, hget, ih]

/-- Each path is among them once. -/
theorem nodup_paths (t : TypeRef) : t.paths.Nodup := by
  induction t using params_induction with
  | step t ih =>
    rw [paths_eq]
    refine List.nodup_append.2 ⟨List.nodup_flatMap.2 ⟨fun x hx => ?_, ?_⟩, List.nodup_singleton _, ?_⟩
    · have hget : t.params[x.2]? = some x.1 := List.mem_zipIdx_iff_getElem?.1 hx
      exact (ih x.1 (List.mem_of_getElem? hget)).map (List.cons_injective)
    · have hnumbers : (t.params.zipIdx.map (·.2)).Nodup := by
        rw [List.zipIdx_map_snd]
        exact List.nodup_range'
      refine (List.pairwise_map.1 hnumbers).imp fun hne path hx hy => hne ?_
      obtain ⟨_, -, rfl⟩ := List.mem_map.1 hx
      obtain ⟨_, -, heq⟩ := List.mem_map.1 hy
      exact (List.cons.inj heq).1.symm
    · intro path hpath last hlast heq
      rw [List.mem_singleton.1 hlast] at heq
      subst heq
      simp at hpath

end TypeRef

/-! ## The references of a declaration -/

namespace Declaration

/-- The reference at a place and behind a path of arguments, as it is written, with the type
parameters of the method that it belongs to. -/
def written? (d : Declaration TypeRef) (place : TypePlace) (path : List Nat) :
    Option (TypeRef × List TypeRef) :=
  (d.typeAt? place).bind fun x => (x.1.argument? path).map (·, x.2)

/-- A list has each reference of a declaration, at any depth, once. -/
def ListsOnce (d : Declaration TypeRef) (visits : List (TypeRef × List TypeRef)) : Prop :=
  ∃ spots : List (TypePlace × List Nat), spots.Nodup ∧
    (∀ place path, (place, path) ∈ spots ↔ (d.written? place path).isSome = true) ∧
    spots.map (fun x => d.written? x.1 x.2) = visits.map some

/-- The references of a declaration in the order of a walk. -/
def visits (d : Declaration TypeRef) : List (TypeRef × List TypeRef) :=
  d.types.flatMap fun x => x.1.visits.map (·, x.2)

/-- Where the references of a declaration are, in the order of a walk. -/
def spots (d : Declaration TypeRef) : List (TypePlace × List Nat) :=
  d.places.flatMap fun place => (d.typeAt? place).elim [] fun x => x.1.paths.map (place, ·)

variable (d : Declaration TypeRef)

theorem map_written?_spots :
    d.spots.map (fun x => d.written? x.1 x.2) = d.visits.map some := by
  have hplace (place : TypePlace) : ((d.typeAt? place).elim [] fun x =>
      x.1.paths.map (place, ·)).map (fun x => d.written? x.1 x.2) =
        (d.typeAt? place).elim [] fun x => x.1.visits.map fun t => some (t, x.2) := by
    cases htype : d.typeAt? place with
    | none => rfl
    | some x =>
        have hpaths := congrArg (List.map (Option.map (·, x.2))) (TypeRef.map_argument?_paths x.1)
        simp only [List.map_map] at hpaths
        simp only [Option.elim_some, List.map_map]
        refine (List.map_congr_left fun path _ => ?_).trans hpaths
        rw [Function.comp_apply, Function.comp_apply, written?, htype, Option.bind_some]
  have hplaces := congrArg (List.flatMap fun x? : Option (TypeRef × List TypeRef) =>
    x?.elim [] fun x => x.1.visits.map fun t => some (t, x.2)) d.map_typeAt?_places
  rw [List.flatMap_map, List.flatMap_map] at hplaces
  rw [spots, visits, List.map_flatMap, List.map_flatMap, List.flatMap_congr fun place _ =>
    hplace place, hplaces]
  simp only [Option.elim_some, List.map_map]
  rfl

theorem mem_spots_iff (place : TypePlace) (path : List Nat) :
    (place, path) ∈ d.spots ↔ (d.written? place path).isSome = true := by
  have hplace : (place, path) ∈ d.spots ↔
      ∃ x, d.typeAt? place = some x ∧ path ∈ x.1.paths := by
    rw [spots, List.mem_flatMap]
    constructor
    · rintro ⟨other, -, hpath⟩
      cases htype : d.typeAt? other with
      | none => simp [htype] at hpath
      | some x =>
          rw [htype, Option.elim_some] at hpath
          obtain ⟨path', hpath', heq⟩ := List.mem_map.1 hpath
          cases heq
          exact ⟨x, htype, hpath'⟩
    · rintro ⟨x, htype, hpath⟩
      refine ⟨place, mem_places_iff.2 (by rw [htype]; rfl), ?_⟩
      rw [htype, Option.elim_some]
      exact List.mem_map_of_mem hpath
  rw [hplace, written?]
  cases d.typeAt? place with
  | none => simp
  | some x => simp [TypeRef.mem_paths_iff]

theorem nodup_spots : d.spots.Nodup := by
  refine List.nodup_flatMap.2 ⟨fun place _ => ?_, d.nodup_places.imp fun hne x hx hy => hne ?_⟩
  · cases d.typeAt? place with
    | none => exact List.nodup_nil
    | some x => exact (TypeRef.nodup_paths x.1).map (Prod.mk_right_injective place)
  · have hfirst {place : TypePlace} (h : x ∈ (d.typeAt? place).elim [] fun y =>
        y.1.paths.map (place, ·)) : x.1 = place := by
      cases htype : d.typeAt? place with
      | none => simp [htype] at h
      | some y =>
          rw [htype, Option.elim_some] at h
          obtain ⟨path, -, rfl⟩ := List.mem_map.1 h
          rfl
    exact (hfirst hx).symm.trans (hfirst hy)

/-- A walk comes to each reference once. -/
theorem listsOnce_visits : d.ListsOnce d.visits :=
  ⟨d.spots, d.nodup_spots, d.mem_spots_iff, d.map_written?_spots⟩

end Declaration

/-! ## Resolving on the way -/

namespace TypeRef

section

variable {m : Type → Type} [Monad m] (lookUp : TypeRef → m (List String × Resolution))

mutual

/-- Resolves a type in one walk, by looking up first its arguments and then its name. -/
def resolveM : TypeRef → m ResolvedRef
  | ⟨name, nullable, dimensions, params⟩ => do
    let params' ← resolveAllM params
    let (fullName, resolution) ← lookUp ⟨name, nullable, dimensions, params⟩
    pure { name, fullName, resolution, nullable, dimensions, params := params' }

/-- Resolves some types in one walk. -/
def resolveAllM : List TypeRef → m (List ResolvedRef)
  | [] => pure []
  | t :: ts => do
    let t' ← resolveM t
    let ts' ← resolveAllM ts
    pure (t' :: ts')

end

end

end TypeRef

namespace Scope

variable {α : Type} (s : Scope) (items : TypeRef → List TypeRef → List α)
  (methodParams : List TypeRef)

mutual

/-- The look-ups of a walk through a type are those of its references. -/
theorem resolveM_note (t : TypeRef) :
    t.resolveM (fun u => note (items u methodParams) (s.meaning methodParams u)) =
      note (t.visits.flatMap (items · methodParams)) (s.resolve methodParams t) := by
  match t with
  | ⟨name, nullable, dimensions, params⟩ =>
    rw [TypeRef.resolveM, resolveAllM_note params, resolve_eq, TypeRef.visits,
      List.flatMap_append, List.flatMap_singleton]
    simp only [note_bind_pure, note_bind_note]

theorem resolveAllM_note (ts : List TypeRef) :
    TypeRef.resolveAllM (fun u => note (items u methodParams) (s.meaning methodParams u)) ts =
      note ((TypeRef.visitsAll ts).flatMap (items · methodParams)) (s.resolveAll methodParams ts) := by
  match ts with
  | [] => rw [TypeRef.resolveAllM, TypeRef.visitsAll, resolveAll, List.flatMap_nil, pure_eq_note]
  | t :: ts =>
    rw [TypeRef.resolveAllM, resolveM_note t, resolveAllM_note ts, TypeRef.visitsAll, resolveAll,
      List.flatMap_append]
    simp only [note_bind_pure, note_bind_note]

end

/-- The look-ups of a walk through a declaration are those of its references, each with the type
parameters of the method that it belongs to. -/
theorem mapTypesM_resolveM (d : Declaration TypeRef) :
    d.mapTypesM (fun t methodParams =>
      t.resolveM fun u => note (items u methodParams) (s.meaning methodParams u)) =
        note (d.visits.flatMap fun x => items x.1 x.2) (s.resolveTypes d) := by
  have htypes : (fun t methodParams => TypeRef.resolveM
      (fun u => note (items u methodParams) (s.meaning methodParams u)) t) =
        fun t methodParams => note (t.visits.flatMap (items · methodParams))
          (s.resolve methodParams t) :=
    funext fun t => funext fun methodParams => s.resolveM_note items methodParams t
  rw [htypes, Declaration.mapTypesM_note, Declaration.visits, List.flatMap_assoc]
  simp only [List.flatMap_map]
  rfl

/-- The names to report for a reference alone. -/
def gapsAt (t : TypeRef) (methodParams : List TypeRef) : List (List String) :=
  match s.meaning methodParams t with
  | (parts, .unresolved) => (s.gap? parts).toList
  | _ => []

mutual

theorem gaps_eq (t : TypeRef) :
    s.gaps methodParams t = t.visits.flatMap (s.gapsAt · methodParams) := by
  match t with
  | ⟨name, nullable, dimensions, params⟩ =>
    rw [gaps, gapsAll_eq params, TypeRef.visits, List.flatMap_append, List.flatMap_singleton]
    rfl

theorem gapsAll_eq (ts : List TypeRef) :
    s.gapsAll methodParams ts = (TypeRef.visitsAll ts).flatMap (s.gapsAt · methodParams) := by
  match ts with
  | [] => rw [gapsAll, TypeRef.visitsAll, List.flatMap_nil]
  | t :: ts => rw [gapsAll, gaps_eq t, gapsAll_eq ts, TypeRef.visitsAll, List.flatMap_append]

end

/-- The names to report come out of the same walk as the resolved declaration. -/
theorem mapTypesM_gapsAt (d : Declaration TypeRef) :
    d.mapTypesM (fun t methodParams =>
      t.resolveM fun u => note (s.gapsAt u methodParams) (s.meaning methodParams u)) =
        note (s.gapsOf d) (s.resolveTypes d) := by
  have hgaps : s.gapsOf d = d.visits.flatMap fun x => s.gapsAt x.1 x.2 := by
    rw [gapsOf, Declaration.visits, List.flatMap_assoc]
    simp only [gaps_eq, List.flatMap_map]
  rw [hgaps, mapTypesM_resolveM]

end Scope

/-! ## Declarations without meanings -/

namespace Declaration

/-- A declaration without the meaning of its types: each is only what is written. -/
def erase (d : Declaration ResolvedRef) : Declaration TypeRef :=
  { d with
    extended? := d.extended?.map (·.erase)
    implemented := d.implemented.map (·.erase)
    fields := d.fields.map fun f => { f with type := f.type.erase }
    methods := d.methods.map fun f => { f with
      params := f.params.map fun p => { p with type := p.type.erase }
      returnType := f.returnType.erase } }

end Declaration

/-- A resolved declaration is still the one that is written. -/
theorem Scope.erase_resolveTypes (s : Scope) (d : Declaration TypeRef) :
    (s.resolveTypes d).erase = d := by
  rw [resolveTypes, Declaration.mapTypes_eq, Declaration.erase]
  simp only [List.map_map, Option.map_map, Function.comp_def, Declaration.mapField,
    Declaration.mapMethod, erase_resolve, List.map_id', Option.map_id']

/-! ## Names that are declared once -/

namespace Project

variable {units : List SourceUnit} {p : Project} {key : String} {d : Declaration ResolvedRef}
  {part : Declaration TypeRef}

/-- The references of a declaration in the language `l` mean what they are resolved to, those of a
method with the type parameters of the method and all others with none. -/
structure MeansAll (p : Project) (l : Language) (d : Declaration ResolvedRef) : Prop where
  /-- The references of the fields. -/
  fields : ∀ f ∈ d.fields, ∀ r ∈ f.type.within, p.Means d l [] r.name r.fullName r.resolution
  /-- Those of the parameters. -/
  params : ∀ f ∈ d.methods, ∀ x ∈ f.params, ∀ r ∈ x.type.within,
    p.Means d l f.typeParams r.name r.fullName r.resolution
  /-- Those of the results. -/
  results : ∀ f ∈ d.methods, ∀ r ∈ f.returnType.within,
    p.Means d l f.typeParams r.name r.fullName r.resolution
  /-- Those of the base types. -/
  bases : ∀ t ∈ d.bases, ∀ r ∈ t.within, p.Means d l [] r.name r.fullName r.resolution

theorem meansAll_of_types {l : Language} (h : ∀ t methodParams, (t, methodParams) ∈ d.types →
    ∀ r ∈ t.within, p.Means d l methodParams r.name r.fullName r.resolution) :
    p.MeansAll l d where
  fields f hf := h _ _ (by
    rw [Declaration.types, List.append_assoc]
    exact List.mem_append_left _ (List.mem_map.2 ⟨f, hf, rfl⟩))
  params f hf x hx := h _ _ (by
    rw [Declaration.types]
    refine List.mem_append_left _ (List.mem_append_right _ (List.mem_flatMap.2 ⟨f, hf, ?_⟩))
    exact List.mem_append_left _ (List.mem_map.2 ⟨x, hx, rfl⟩))
  results f hf := h _ _ (by
    rw [Declaration.types]
    refine List.mem_append_left _ (List.mem_append_right _ (List.mem_flatMap.2 ⟨f, hf, ?_⟩))
    exact List.mem_append_right _ List.mem_cons_self)
  bases t ht := h _ _ (by
    rw [Declaration.types]
    exact List.mem_append_right _ (List.mem_map.2 ⟨t, ht, rfl⟩))

/-- What is known under a name that is declared once is this declaration, in the language of its
file. -/
theorem exists_unit_of_partsOf {symbols : Symbols} (h : Symbols.ofUnits units = .ok symbols)
    (hpart : Symbols.partsOf units key = [part]) :
    ∃ u ∈ units, part ∈ u.declarations ∧ ∃ s, symbols.table.get? key = some s ∧
      s.declaration = part ∧ s.language = u.language := by
  rw [Symbols.partsOf_eq, List.map_eq_singleton_iff] at hpart
  obtain ⟨s, hparts, rfl⟩ := hpart
  have hs : s ∈ units.flatMap ProjectSymbol.ofUnit :=
    List.mem_of_mem_filter (hparts ▸ List.mem_singleton_self s)
  obtain ⟨u, hu, hs⟩ := List.mem_flatMap.1 hs
  obtain ⟨part, hpart, rfl⟩ := List.mem_map.1 hs
  refine ⟨u, hu, hpart, _, ?_, rfl, rfl⟩
  rw [Symbols.get?_ofUnits h, hparts]
  rfl

/-- A declaration whose name is declared once is the one that is written, with the meaning of its
types.  One walk resolves it; this comes to each reference once, whatever it notes of it. -/
theorem erase_of_resolve (h : resolve units = .ok p) (hd : p.get? key = some d)
    (hpart : Symbols.partsOf units key = [part]) :
    d.erase = part ∧ (∃ u ∈ units, part ∈ u.declarations ∧ p.MeansAll u.language d) ∧
      ∃ s visits, part.ListsOnce visits ∧ ∀ (α : Type) (items : TypeRef → List TypeRef → List α),
        part.mapTypesM (fun t methodParams =>
          t.resolveM fun u => note (items u methodParams) (Scope.meaning s methodParams u)) =
            note (visits.flatMap fun x => items x.1 x.2) d := by
  obtain ⟨symbols, hsymbols, hp, -⟩ := exists_symbols h
  obtain ⟨u, hu, hwritten, s, hs, rfl, hlanguage⟩ := exists_unit_of_partsOf hsymbols hpart
  rw [get?, hp, NameMap.get?_map, hs, Option.map_some, Option.some.injEq] at hd
  subst hd
  refine ⟨Scope.erase_resolveTypes _ _, ⟨u, hu, hwritten, ?_⟩, Scope.ofSymbol symbols s,
    s.declaration.visits, s.declaration.listsOnce_visits, fun α items =>
      Scope.mapTypesM_resolveM _ items _⟩
  refine meansAll_of_types fun t methodParams ht r hr => ?_
  obtain ⟨y, -, x, -, hname, hmeaning⟩ := exists_written ht hr
  rw [hname, ← hlanguage]
  exact Scope.means_of_meaning hp (Symbols.gathered_ofUnits hsymbols).named hmeaning

/-- A class with types inside types, and with a method that has a type parameter of its own. -/
theorem erase_of_resolve_nested :
    let units := unitsOf [(.java,
      "class Box<T> extends Base<T> implements One { Map<String, List<T>> x; <U> U[] f(U u) {} }")]
    ∃ p d part, (resolve units = .ok p ∧ p.get? "Box" = some d ∧
        Symbols.partsOf units "Box" = [part]) ∧
      part.visits.map (·.1.name) = ["String", "T", "List", "Map", "U", "U", "T", "Base", "One"] ∧
      d.erase = part ∧ (∃ u ∈ units, part ∈ u.declarations ∧ p.MeansAll u.language d) ∧
      ∃ s visits, part.ListsOnce visits ∧ ∀ (α : Type) (items : TypeRef → List TypeRef → List α),
        part.mapTypesM (fun t methodParams =>
          t.resolveM fun u => note (items u methodParams) (Scope.meaning s methodParams u)) =
            note (visits.flatMap fun x => items x.1 x.2) d := by
  intro units
  have hparts : (Symbols.partsOf units "Box").map (fun part => part.visits.map (·.1.name)) =
      [["String", "T", "List", "Map", "U", "U", "T", "Base", "One"]] := by decide +kernel
  have hsome : ((resolve units).toOption.bind (·.get? "Box")).isSome = true := by decide +kernel
  obtain ⟨part, hpart, hvisits⟩ := List.map_eq_singleton_iff.1 hparts
  obtain ⟨d, hd⟩ := Option.isSome_iff_exists.1 hsome
  obtain ⟨p, hp, hd⟩ := Option.bind_eq_some_iff.1 hd
  have hp : resolve units = .ok p := eq_ok_of_toOption hp
  exact ⟨p, d, part, ⟨hp, hd, hpart⟩, hvisits, erase_of_resolve hp hd hpart⟩

end Project

end Outline
