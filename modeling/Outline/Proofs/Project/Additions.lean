import Mathlib.Data.List.Infix
import Outline.Proofs.Project.Parts
import Outline.Proofs.Project.Places
import Outline.Proofs.Token.Reading

/-!
# Further files

A project only grows when further files are read behind those that make it: a declaration keeps
what it has, and everything that can be looked up can still be looked up.  So a reference that
denotes something still does.  What it denotes may change, since a new declaration may stand in an
inner scope.

* `Declaration.Grows`, `ProjectSymbol.Grows`, `Symbols.Grows` — what further files keep.
* `Symbols.grows_ofUnits_append` — the names of a project grow.
* `Scope.Grows` — the look-ups that still succeed.
* `Project.resolved_of_resolve_append` — a reference that denotes something still does.
-/

namespace Outline

theorem prefix_appendNew {α : Type} [BEq α] (xs ys : List α) : xs <+: appendNew xs ys := by
  induction ys generalizing xs with
  | nil => exact List.prefix_refl xs
  | cons y ys ih =>
      have hstep : appendNew xs (y :: ys) =
          appendNew (if xs.contains y then xs else xs ++ [y]) ys := rfl
      rw [hstep]
      refine List.IsPrefix.trans ?_ (ih _)
      split
      · exact List.prefix_refl xs
      · exact List.prefix_append xs [y]

/-! ## Declarations -/

namespace Declaration

/-- A declaration has all that another one of its name has, its members and base types at the same
places. -/
structure Grows (a b : Declaration TypeRef) : Prop where
  /-- The full name is the same. -/
  fullName : b.fullName = a.fullName
  /-- The type parameters are still there. -/
  typeParams : a.typeParams ⊆ b.typeParams
  /-- So are the imports. -/
  imports : a.imports ⊆ b.imports
  /-- The fields are still there, in front of new ones. -/
  fields : a.fields <+: b.fields
  /-- So are the methods. -/
  methods : a.methods <+: b.methods
  /-- The extended type is the same, if there was one. -/
  extended : ∀ t, a.extended? = some t → b.extended? = some t
  /-- The implemented types are still there, in front of new ones. -/
  implemented : a.implemented <+: b.implemented

variable {a b c : Declaration TypeRef}

theorem Grows.refl (a : Declaration TypeRef) : Grows a a where
  fullName := rfl
  typeParams := List.Subset.refl _
  imports := List.Subset.refl _
  fields := List.prefix_refl _
  methods := List.prefix_refl _
  extended _ h := h
  implemented := List.prefix_refl _

theorem Grows.trans (h : Grows a b) (h' : Grows b c) : Grows a c where
  fullName := h'.fullName.trans h.fullName
  typeParams := List.Subset.trans h.typeParams h'.typeParams
  imports := List.Subset.trans h.imports h'.imports
  fields := h.fields.trans h'.fields
  methods := h.methods.trans h'.methods
  extended t ht := h'.extended t (h.extended t ht)
  implemented := h.implemented.trans h'.implemented

/-- A further part takes nothing away. -/
theorem grows_merge (a b : Declaration TypeRef) : Grows a (a.merge b) where
  fullName := rfl
  typeParams := by
    intro t ht
    have hne : a.typeParams.isEmpty = false := List.isEmpty_eq_false_iff.2 (List.ne_nil_of_mem ht)
    simpa [merge, hne] using ht
  imports _ hi := mem_appendNew_iff.2 (Or.inl hi)
  fields := List.prefix_append _ _
  methods := List.prefix_append _ _
  extended t ht := by simp [merge, ht]
  implemented := prefix_appendNew _ _

theorem getElem?_of_prefix {α : Type} {xs ys : List α} (h : xs <+: ys) {i : Nat} {x : α}
    (hx : xs[i]? = some x) : ys[i]? = some x := by
  obtain ⟨zs, rfl⟩ := h
  have hi : i < xs.length := (List.getElem?_eq_some_iff.1 hx).1
  rwa [List.getElem?_append_left hi]

/-- The types are still at their places. -/
theorem Grows.typeAt? (h : Grows a b) {place : TypePlace} {x : TypeRef × List TypeRef}
    (hx : a.typeAt? place = some x) : b.typeAt? place = some x := by
  cases place with
  | field i =>
      obtain ⟨f, hf, rfl⟩ := Option.map_eq_some_iff.1 hx
      exact Option.map_eq_some_iff.2 ⟨f, getElem?_of_prefix h.fields hf, rfl⟩
  | parameter i j =>
      obtain ⟨f, hf, hp⟩ := Option.bind_eq_some_iff.1 hx
      exact Option.bind_eq_some_iff.2 ⟨f, getElem?_of_prefix h.methods hf, hp⟩
  | result i =>
      obtain ⟨f, hf, rfl⟩ := Option.map_eq_some_iff.1 hx
      exact Option.map_eq_some_iff.2 ⟨f, getElem?_of_prefix h.methods hf, rfl⟩
  | extended =>
      obtain ⟨t, ht, rfl⟩ := Option.map_eq_some_iff.1 hx
      exact Option.map_eq_some_iff.2 ⟨t, h.extended t ht, rfl⟩
  | implemented i =>
      obtain ⟨t, ht, rfl⟩ := Option.map_eq_some_iff.1 hx
      exact Option.map_eq_some_iff.2 ⟨t, getElem?_of_prefix h.implemented ht, rfl⟩

end Declaration

/-! ## What is known under a name -/

namespace ProjectSymbol

/-- What is known under a name has all that was known before. -/
structure Grows (s t : ProjectSymbol) : Prop where
  /-- The language is the same. -/
  language : t.language = s.language
  /-- The declaration has all that it had. -/
  declaration : s.declaration.Grows t.declaration

variable {s t : ProjectSymbol}

theorem Grows.refl (s : ProjectSymbol) : s.Grows s := ⟨rfl, .refl _⟩

theorem Grows.merge (h : s.Grows t) (part : ProjectSymbol) : s.Grows (t.merge part) :=
  ⟨h.language, h.declaration.trans (Declaration.grows_merge _ _)⟩

/-- Reading further declarations takes nothing away from what is known. -/
theorem Grows.joined? (h : s.Grows t) (parts : List ProjectSymbol) :
    ∃ u, joined? (some t) parts = some u ∧ s.Grows u := by
  induction parts generalizing t with
  | nil => exact ⟨t, rfl, h⟩
  | cons part parts ih => exact ih (h.merge part)

end ProjectSymbol

namespace Symbols

/-- What is known under any name is still known, with all that it had. -/
def Grows (a b : Symbols) : Prop :=
  ∀ key s, a.table.get? key = some s → ∃ t, b.table.get? key = some t ∧ s.Grows t

/-- The names of a project grow when further files are read. -/
theorem grows_ofUnits_append {units more : List SourceUnit} {a b : Symbols}
    (ha : ofUnits units = .ok a) (hb : ofUnits (units ++ more) = .ok b) : a.Grows b := by
  intro key s hs
  have hparts := get?_ofUnits hb key
  rw [List.flatMap_append, List.filter_append, ProjectSymbol.joined?, List.foldl_append,
    ← ProjectSymbol.joined?, ← ProjectSymbol.joined?, ← get?_ofUnits ha key, hs] at hparts
  rw [hparts]
  exact (ProjectSymbol.Grows.refl s).joined? _

variable {a b : Symbols}

theorem Grows.contains (h : a.Grows b) {fullName : List String}
    (hcontains : a.contains fullName = true) : b.contains fullName = true := by
  obtain ⟨s, hs⟩ := Option.isSome_iff_exists.1 hcontains
  obtain ⟨t, ht, -⟩ := h _ s hs
  exact Option.isSome_iff_exists.2 ⟨t, ht⟩

/-- Each full name is still that of a declaration. -/
theorem Grows.fullName (h : a.Grows b) {full : List String}
    (hfull : full ∈ a.table.values.map (·.declaration.fullName)) :
    full ∈ b.table.values.map (·.declaration.fullName) := by
  obtain ⟨s, hs, rfl⟩ := List.mem_map.1 hfull
  obtain ⟨e, he, rfl⟩ := List.mem_map.1 hs
  obtain ⟨t, ht, hgrows⟩ := h e.1 e.2 (NameMap.get?_eq_some_iff.2 he)
  refine List.mem_map.2 ⟨t, List.mem_map.2 ⟨_, NameMap.get?_eq_some_iff.1 ht, rfl⟩, ?_⟩
  exact hgrows.declaration.fullName

end Symbols

/-! ## Looking names up -/

namespace Scope

/-- All that is visible in a scope is visible in another one at the same place. -/
structure Grows (s t : Scope) : Prop where
  /-- The declared names are still declared. -/
  symbols : s.symbols.Grows t.symbols
  /-- The language is the same. -/
  language : t.language = s.language
  /-- The full name is the same. -/
  fullName : t.fullName = s.fullName
  /-- The type parameters are still visible. -/
  typeParams : s.typeParams ⊆ t.typeParams
  /-- So are the imports. -/
  imports : s.imports ⊆ t.imports

variable {s t : Scope}

/-- The scope inside a declaration grows with the declaration and the names of the project. -/
theorem grows_ofSymbol {a b : Symbols} (h : a.Grows b) {x y : ProjectSymbol} (hxy : x.Grows y) :
    (ofSymbol a x).Grows (ofSymbol b y) where
  symbols := h
  language := hxy.language
  fullName := hxy.declaration.fullName
  typeParams := by
    refine List.map_subset _ (List.append_subset.2 ⟨?_, ?_⟩)
    · exact List.subset_append_of_subset_left _ hxy.declaration.typeParams
    · intro param hparam
      obtain ⟨outer, houter, hparam⟩ := List.mem_flatMap.1 hparam
      obtain ⟨n, hn, hget⟩ := List.mem_filterMap.1 houter
      split at hget
      · cases hget
      · next hpos =>
        obtain ⟨outer', houter', hgrows⟩ := h _ outer hget
        refine List.mem_append_right _ (List.mem_flatMap.2 ⟨outer', List.mem_filterMap.2
          ⟨n, ?_, ?_⟩, hgrows.declaration.typeParams hparam⟩)
        · rwa [hxy.declaration.fullName]
        · rw [if_neg hpos, hxy.declaration.fullName]
          exact houter'
  imports := hxy.declaration.imports

theorem Grows.isTypeParam (h : s.Grows t) {methodParams : List TypeRef} {name : String}
    (hparam : s.isTypeParam methodParams name = true) : t.isTypeParam methodParams name = true := by
  rw [Scope.isTypeParam, Bool.or_eq_true] at hparam ⊢
  refine hparam.imp_right fun hmem => ?_
  exact List.contains_iff_mem.2 (h.typeParams (List.contains_iff_mem.1 hmem))

theorem Grows.importsUnder (h : s.Grows t) {path : List String}
    (himports : s.importsUnder path = true) : t.importsUnder path = true := by
  obtain ⟨i, hi, hunder⟩ := List.any_eq_true.1 himports
  exact List.any_eq_true.2 ⟨i, h.imports hi, hunder⟩

/-- Parts of a name that denote a declaration still denote one. -/
theorem Grows.find?_isSome (h : s.Grows t) {parts : List String}
    (hfind : (s.find? parts).isSome = true) : (t.find? parts).isSome = true := by
  rw [find?, Option.isSome_or, Bool.or_eq_true, List.find?_isSome] at hfind ⊢
  rcases hfind with ⟨full, hfull, hcontains⟩ | hbelow
  · refine Or.inl ⟨full, ?_, h.symbols.contains hcontains⟩
    refine (List.mem_append.1 hfull).elim (fun hfull => ?_) fun hfull => ?_
    · rw [enclosing, h.fullName]
      exact List.mem_append_left _ hfull
    · obtain ⟨i, hi, htarget⟩ := List.mem_filterMap.1 hfull
      exact List.mem_append_right _ (List.mem_filterMap.2 ⟨i, h.imports hi, htarget⟩)
  · refine Or.inr ?_
    rw [Symbols.endingWith?, List.find?_isSome] at hbelow ⊢
    obtain ⟨full, hfull, hends⟩ := hbelow
    rw [Bool.and_eq_true] at hends
    exact ⟨full, h.symbols.fullName hfull, Bool.and_eq_true_iff.2
      ⟨hends.1, h.importsUnder hends.2⟩⟩

/-- A name denotes nothing exactly if all look-ups fail. -/
theorem meaning_unresolved_iff (s : Scope) (methodParams : List TypeRef) (t : TypeRef) :
    (s.meaning methodParams t).2 = .unresolved ↔ t.isWildcard = false ∧
      ¬ (t.parts.length = 1 ∧ s.isTypeParam methodParams t.name = true) ∧
      ¬ (t.parts.length = 1 ∧ s.language.isBuiltinType t.name = true) ∧
      (s.find? t.parts).isSome = false := by
  rw [meaning]
  cases t.isWildcard with
  | true => simp
  | false =>
      simp only [Bool.and_eq_true, beq_iff_eq, Bool.false_eq_true, if_false]
      split
      · next hparam => simp [hparam]
      · next hparam =>
        split
        · next hbuiltin => simp [hbuiltin]
        · next hbuiltin => cases s.find? t.parts <;> simp [hparam, hbuiltin]

/-- A name that denotes something still does. -/
theorem Grows.meaning_ne (h : s.Grows t) {methodParams : List TypeRef} {x : TypeRef}
    (hmeaning : (s.meaning methodParams x).2 ≠ .unresolved) :
    (t.meaning methodParams x).2 ≠ .unresolved := by
  refine mt (fun hnone => ?_) hmeaning
  obtain ⟨hwildcard, hparam, hbuiltin, hfind⟩ := (t.meaning_unresolved_iff _ _).1 hnone
  refine (s.meaning_unresolved_iff _ _).2 ⟨hwildcard, ?_, ?_, ?_⟩
  · exact fun hold => hparam ⟨hold.1, h.isTypeParam hold.2⟩
  · exact fun hold => hbuiltin ⟨hold.1, h.language ▸ hold.2⟩
  · refine Bool.eq_false_iff.2 fun hold => ?_
    exact absurd (h.find?_isSome hold) (Bool.eq_false_iff.1 hfind)

end Scope

/-! ## Projects with further files -/

namespace Project

variable {units more : List SourceUnit} {p p' : Project}

/-- A reference of a declaration that denotes something still does when further files are read: it
is written at the same place of the declaration of the same key, also if this one has further
parts. -/
theorem resolved_of_resolve_append (h : resolve units = .ok p)
    (h' : resolve (units ++ more) = .ok p') {key : String} {d : Declaration ResolvedRef}
    (hd : p.get? key = some d) :
    ∃ d', p'.get? key = some d' ∧
      (∀ x ∈ d.types, ∀ r ∈ x.1.within, ∃ place path, d.reference? place path = some r) ∧
      ∀ place path r, d.reference? place path = some r → ∃ r',
        d'.reference? place path = some r' ∧ r'.erase = r.erase ∧
          (r.isResolved = true → r'.isResolved = true) := by
  obtain ⟨a, ha, hp, -⟩ := exists_symbols h
  obtain ⟨b, hb, hp', -⟩ := exists_symbols h'
  have hgrows : a.Grows b := Symbols.grows_ofUnits_append ha hb
  rw [get?, hp, NameMap.get?_map, Option.map_eq_some_iff] at hd
  obtain ⟨s, hs, rfl⟩ := hd
  obtain ⟨t, ht, hst⟩ := hgrows key s hs
  have hscope := Scope.grows_ofSymbol hgrows hst
  refine ⟨resolveSymbol b t, ?_, ?_, ?_⟩
  · rw [get?, hp', NameMap.get?_map, ht, Option.map_some]
  · intro x hx r hr
    exact Declaration.exists_reference? hx hr
  · intro place path r hr
    rw [resolveSymbol, Scope.reference?_resolveTypes, Option.bind_eq_some_iff] at hr
    obtain ⟨x, hx, hr⟩ := hr
    obtain ⟨y, hy, rfl⟩ := Option.map_eq_some_iff.1 hr
    refine ⟨(Scope.ofSymbol b t).resolve x.2 y, ?_, ?_, fun hresolved => ?_⟩
    · rw [resolveSymbol, Scope.reference?_resolveTypes, hst.declaration.typeAt? hx,
        Option.bind_some, hy, Option.map_some]
    · rw [Scope.erase_resolve, Scope.erase_resolve]
    · rw [Scope.resolve_eq, ResolvedRef.isResolved, bne_iff_ne] at hresolved ⊢
      exact hscope.meaning_ne hresolved

/-- A further part of a declaration, and one that hides what a type argument denotes. -/
theorem resolved_of_resolve_append_part :
    let units := unitsOf [(.csharp, "using A; partial class Box { List<Item> x; }"),
      (.csharp, "namespace A { class Item {} }")]
    let more := unitsOf [(.csharp, "class Item {} partial class Box<T> { T y; }")]
    ∃ p p' d, resolve units = .ok p ∧ resolve (units ++ more) = .ok p' ∧ p.get? "Box" = some d ∧
      ((d.reference? (.field 0) [0]).map (·.fullName) = some ["A", "Item"] ∧
        (p'.get? "Box").bind (fun d' => (d'.reference? (.field 0) [0]).map (·.fullName)) =
          some ["Item"]) ∧
      ∃ d', p'.get? "Box" = some d' ∧
        (∀ x ∈ d.types, ∀ r ∈ x.1.within, ∃ place path, d.reference? place path = some r) ∧
        ∀ place path r, d.reference? place path = some r → ∃ r',
          d'.reference? place path = some r' ∧ r'.erase = r.erase ∧
            (r.isResolved = true → r'.isResolved = true) := by
  intro units more
  have hbefore : (resolve units).toOption.bind (fun p => (p.get? "Box").bind fun d =>
      (d.reference? (.field 0) [0]).map (·.fullName)) = some ["A", "Item"] := by decide +kernel
  have hafter : (resolve (units ++ more)).toOption.bind (fun p => (p.get? "Box").bind fun d =>
      (d.reference? (.field 0) [0]).map (·.fullName)) = some ["Item"] := by decide +kernel
  obtain ⟨p, hp, hbefore⟩ := Option.bind_eq_some_iff.1 hbefore
  obtain ⟨p', hp', hafter⟩ := Option.bind_eq_some_iff.1 hafter
  obtain ⟨d, hd, hbefore⟩ := Option.bind_eq_some_iff.1 hbefore
  have hp : resolve units = .ok p := eq_ok_of_toOption hp
  have hp' : resolve (units ++ more) = .ok p' := eq_ok_of_toOption hp'
  exact ⟨p, p', d, hp, hp', hd, ⟨hbefore, hafter⟩, resolved_of_resolve_append hp hp' hd⟩

end Project

end Outline
