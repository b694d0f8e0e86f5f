import Outline.Project.Basic
import Outline.Proofs.Project.References
import Outline.Proofs.Project.Table

/-!
# What references denote

What a reference denotes is told by the project alone: by the keys of its declarations, and by the
full name, the type parameters and the imports of the declaration that refers.

* `Project.Denotes` — the declaration that a name denotes: the first one among those in the scopes
  around the reference, those that the imports stand for, and those below imported namespaces.
* `Project.Means` — what a name means, and with which full name.
* `Project.means_iff_of_resolve` — a reference at any depth means exactly what it is resolved to.
-/

namespace Outline

/-! ## Names in a project -/

namespace Import

/-- A full name consists of the parts of a name behind a namespace that one of the imports names or
encloses. -/
def Reaches (imports : List Import) (parts fullName : List String) : Prop :=
  ∃ front, front ≠ [] ∧ fullName = front ++ parts ∧
    ∃ i ∈ imports, i.path ≠ [] ∧ i.path <+: front

end Import

namespace Project

/-- Whether a declaration of the project has the given full name. -/
def Declares (p : Project) (fullName : List String) : Prop :=
  p.declarations.contains (Text.dotted fullName) = true

section

variable (p : Project) (d : Declaration ResolvedRef)

/-- Whether a name in the declaration `d` is that of a type parameter of the method that it stands
in, of the declaration, or of one around it. -/
inductive IsTypeParam (methodParams : List TypeRef) (name : String) : Prop where
  /-- A type parameter of the method. -/
  | method {t : TypeRef} (ht : t ∈ methodParams) (hname : t.name = name)
  /-- A type parameter of the declaration. -/
  | own {t : TypeRef} (ht : t ∈ d.typeParams) (hname : t.name = name)
  /-- A type parameter of a declaration whose full name the one of `d` continues. -/
  | around {n : Nat} {outer : Declaration ResolvedRef} {t : TypeRef} (hpos : 0 < n)
      (hlt : n < d.fullName.length) (houter : p.get? (Text.dotted (d.fullName.take n)) = some outer)
      (ht : t ∈ outer.typeParams) (hname : t.name = name)

/-- No declaration stands in one of the scopes around `d` under the given parts of a name. -/
def NoneAround (parts : List String) : Prop :=
  ∀ n ≤ d.fullName.length, ¬ p.Declares (d.fullName.take n ++ parts)

/-- None of the imports stands for a declaration with the given parts of a name. -/
def NoneImported (imports : List Import) (parts : List String) : Prop :=
  ∀ i ∈ imports, ∀ fullName, i.target? parts = some fullName → ¬ p.Declares fullName

/-- The declaration that the parts of a name denote inside the declaration `d`. -/
inductive Denotes (parts : List String) : List String → Prop where
  /-- The declaration in the innermost of the scopes around `d`. -/
  | around {n : Nat} (hn : n ≤ d.fullName.length) (hdeclared : p.Declares (d.fullName.take n ++ parts))
      (hfirst : ∀ m, n < m → m ≤ d.fullName.length → ¬ p.Declares (d.fullName.take m ++ parts)) :
      Denotes parts (d.fullName.take n ++ parts)
  /-- The declaration that the first of the imports stands for. -/
  | imported {before after : List Import} {i : Import} {fullName : List String}
      (haround : NoneAround p d parts) (hsplit : d.imports = before ++ i :: after)
      (htarget : i.target? parts = some fullName) (hdeclared : p.Declares fullName)
      (hfirst : NoneImported p before parts) : Denotes parts fullName
  /-- The first declaration, in the order of keys, below an imported namespace. -/
  | below {before after : List (String × Declaration ResolvedRef)} {key : String}
      {e : Declaration ResolvedRef} (haround : NoneAround p d parts)
      (himported : NoneImported p d.imports parts)
      (hsplit : p.declarations.entries = before ++ (key, e) :: after)
      (hreached : Import.Reaches d.imports parts e.fullName)
      (hfirst : ∀ x ∈ before, ¬ Import.Reaches d.imports parts x.2.fullName) :
      Denotes parts e.fullName

/-- No declaration is denoted by the given parts of a name. -/
structure Undeclared (parts : List String) : Prop where
  /-- There is none in the scopes around `d`. -/
  around : NoneAround p d parts
  /-- The imports stand for none. -/
  imported : NoneImported p d.imports parts
  /-- There is none below an imported namespace. -/
  below : ∀ e ∈ p.declarations.entries, ¬ Import.Reaches d.imports parts e.2.fullName

/-- A name that is that of a declaration, if it is one at all: neither a wildcard nor, with a
single part, a type parameter or a type of the language. -/
structure IsOpen (l : Language) (methodParams : List TypeRef) (name : String) : Prop where
  /-- It is no wildcard. -/
  wildcard : TypeRef.isWildcardName name = false
  /-- It is no type parameter. -/
  typeParam : (Text.dottedParts name).length = 1 → ¬ IsTypeParam p d methodParams name
  /-- It is no type of the language. -/
  builtin : (Text.dottedParts name).length = 1 → l.isBuiltinType name = false

/-- What a name means inside the declaration `d`, which is written in the language `l`, and its full
name. -/
inductive Means (l : Language) (methodParams : List TypeRef) (name : String) :
    List String → Resolution → Prop where
  /-- A wildcard stands for a type parameter. -/
  | wildcard (hname : TypeRef.isWildcardName name = true) :
      Means l methodParams name [name] .typeParameter
  /-- A type parameter. -/
  | typeParam (hwildcard : TypeRef.isWildcardName name = false)
      (hsingle : (Text.dottedParts name).length = 1) (hparam : IsTypeParam p d methodParams name) :
      Means l methodParams name (Text.dottedParts name) .typeParameter
  /-- A type of the language. -/
  | builtin (hwildcard : TypeRef.isWildcardName name = false)
      (hsingle : (Text.dottedParts name).length = 1) (hparam : ¬ IsTypeParam p d methodParams name)
      (hbuiltin : l.isBuiltinType name = true) :
      Means l methodParams name (Text.dottedParts name) .builtin
  /-- A declaration of the project. -/
  | project {fullName : List String} (hopen : IsOpen p d l methodParams name)
      (hdeclared : p.Declares fullName) (hdenotes : Denotes p d (Text.dottedParts name) fullName) :
      Means l methodParams name fullName .project
  /-- Nothing. -/
  | unresolved (hopen : IsOpen p d l methodParams name)
      (hnone : Undeclared p d (Text.dottedParts name)) :
      Means l methodParams name (Text.dottedParts name) .unresolved

end

/-! ## A name means one thing -/

section

variable {p : Project} {d : Declaration ResolvedRef} {parts : List String}

/-- Two ways of splitting a list are the same, or the item of one stands in the front of the
other. -/
theorem split_cases {α : Type} {before before' after after' : List α} {x y : α}
    (h : before ++ x :: after = before' ++ y :: after') : x = y ∨ x ∈ before' ∨ y ∈ before := by
  induction before generalizing before' with
  | nil =>
      cases before' with
      | nil =>
          cases h
          exact Or.inl rfl
      | cons z before' =>
          cases h
          exact Or.inr (Or.inl List.mem_cons_self)
  | cons w before ih =>
      cases before' with
      | nil =>
          cases h
          exact Or.inr (Or.inr List.mem_cons_self)
      | cons z before' =>
          rw [List.cons_append, List.cons_append, List.cons.injEq] at h
          rcases ih h.2 with heq | hx | hy
          · exact Or.inl heq
          · exact Or.inr (Or.inl (List.mem_cons_of_mem _ hx))
          · exact Or.inr (Or.inr (List.mem_cons_of_mem _ hy))

theorem Denotes.not_undeclared {full : List String} (h : p.Denotes d parts full)
    (hnone : p.Undeclared d parts) : False := by
  cases h with
  | around hn hdeclared hfirst => exact hnone.around _ hn hdeclared
  | imported haround hsplit htarget hdeclared hfirst =>
      exact hnone.imported _ (by rw [hsplit]; simp) _ htarget hdeclared
  | @below before after key e haround himported hsplit hreached hfirst =>
      exact hnone.below (key, e) (by rw [hsplit]; simp) hreached

/-- A name denotes one declaration at most. -/
theorem Denotes.unique {full full' : List String} (h : p.Denotes d parts full)
    (h' : p.Denotes d parts full') : full = full' := by
  cases h with
  | @around n hn hdeclared hfirst =>
      cases h' with
      | @around m hm hdeclared' hfirst' =>
          rcases Nat.lt_trichotomy n m with hlt | rfl | hlt
          · exact absurd hdeclared' (hfirst m hlt hm)
          · rfl
          · exact absurd hdeclared (hfirst' n hlt hn)
      | imported haround _ _ _ _ => exact absurd hdeclared (haround n hn)
      | below haround _ _ _ _ => exact absurd hdeclared (haround n hn)
  | imported haround hsplit htarget hdeclared hfirst =>
      cases h' with
      | around hn hdeclared' _ => exact absurd hdeclared' (haround _ hn)
      | imported _ hsplit' htarget' hdeclared' hfirst' =>
          rcases split_cases (hsplit.symm.trans hsplit') with rfl | hmem | hmem
          · exact Option.some.inj (htarget.symm.trans htarget')
          · exact absurd hdeclared (hfirst' _ hmem _ htarget)
          · exact absurd hdeclared' (hfirst _ hmem _ htarget')
      | below _ himported _ _ _ =>
          exact absurd hdeclared (himported _ (by rw [hsplit]; simp) _ htarget)
  | below haround himported hsplit hreached hfirst =>
      cases h' with
      | around hn hdeclared' _ => exact absurd hdeclared' (haround _ hn)
      | imported _ hsplit' htarget' hdeclared' _ =>
          exact absurd hdeclared' (himported _ (by rw [hsplit']; simp) _ htarget')
      | below _ _ hsplit' hreached' hfirst' =>
          rcases split_cases (hsplit.symm.trans hsplit') with heq | hmem | hmem
          · rw [(Prod.mk.injEq ..).mp heq |>.2]
          · exact absurd hreached (hfirst' _ hmem)
          · exact absurd hreached' (hfirst _ hmem)

/-- A name means one thing at most. -/
theorem Means.unique {l : Language} {methodParams : List TypeRef} {name : String}
    {full full' : List String} {resolution resolution' : Resolution}
    (h : p.Means d l methodParams name full resolution)
    (h' : p.Means d l methodParams name full' resolution') :
    full = full' ∧ resolution = resolution' := by
  cases h with
  | wildcard hname =>
      cases h' with
      | wildcard => exact ⟨rfl, rfl⟩
      | typeParam hwildcard _ _ => exact absurd (hname.symm.trans hwildcard) (by decide)
      | builtin hwildcard _ _ _ => exact absurd (hname.symm.trans hwildcard) (by decide)
      | project hopen _ _ => exact absurd (hname.symm.trans hopen.wildcard) (by decide)
      | unresolved hopen _ => exact absurd (hname.symm.trans hopen.wildcard) (by decide)
  | typeParam hwildcard hsingle hparam =>
      cases h' with
      | wildcard hname => exact absurd (hname.symm.trans hwildcard) (by decide)
      | typeParam => exact ⟨rfl, rfl⟩
      | builtin _ _ hfree _ => exact absurd hparam hfree
      | project hopen _ _ => exact absurd hparam (hopen.typeParam hsingle)
      | unresolved hopen _ => exact absurd hparam (hopen.typeParam hsingle)
  | builtin hwildcard hsingle hfree hbuiltin =>
      cases h' with
      | wildcard hname => exact absurd (hname.symm.trans hwildcard) (by decide)
      | typeParam _ _ hparam => exact absurd hparam hfree
      | builtin => exact ⟨rfl, rfl⟩
      | project hopen _ _ => exact absurd (hbuiltin.symm.trans (hopen.builtin hsingle)) (by decide)
      | unresolved hopen _ =>
          exact absurd (hbuiltin.symm.trans (hopen.builtin hsingle)) (by decide)
  | project hopen _ hdenotes =>
      cases h' with
      | wildcard hname => exact absurd (hname.symm.trans hopen.wildcard) (by decide)
      | typeParam _ hsingle hparam => exact absurd hparam (hopen.typeParam hsingle)
      | builtin _ hsingle _ hbuiltin =>
          exact absurd (hbuiltin.symm.trans (hopen.builtin hsingle)) (by decide)
      | project _ _ hdenotes' => exact ⟨hdenotes.unique hdenotes', rfl⟩
      | unresolved _ hnone => exact (hdenotes.not_undeclared hnone).elim
  | unresolved hopen hnone =>
      cases h' with
      | wildcard hname => exact absurd (hname.symm.trans hopen.wildcard) (by decide)
      | typeParam _ hsingle hparam => exact absurd hparam (hopen.typeParam hsingle)
      | builtin _ hsingle _ hbuiltin =>
          exact absurd (hbuiltin.symm.trans (hopen.builtin hsingle)) (by decide)
      | project _ _ hdenotes => exact (hdenotes.not_undeclared hnone).elim
      | unresolved => exact ⟨rfl, rfl⟩

end

/-! ## The declarations of a resolved project -/

section

variable {units : List SourceUnit} {p : Project}

/-- What a resolved project is made of. -/
theorem exists_symbols (h : resolve units = .ok p) :
    ∃ symbols, Symbols.ofUnits units = .ok symbols ∧
      p.declarations = symbols.table.map (resolveSymbol symbols) ∧
      p.missing = NameSet.ofNames
        ((missingImports symbols (units.flatMap (·.imports)) ++
          symbols.table.values.flatMap (symbolGaps symbols)).map Text.dotted) := by
  unfold resolve at h
  cases hsymbols : Symbols.ofUnits units with
  | error e =>
      rw [hsymbols] at h
      cases h
  | ok symbols =>
      rw [hsymbols] at h
      cases h
      exact ⟨symbols, rfl, rfl, rfl⟩

/-- A declaration as it is resolved has the same head as before. -/
theorem resolveSymbol_eq (symbols : Symbols) (s : ProjectSymbol) :
    (resolveSymbol symbols s).fullName = s.declaration.fullName ∧
      (resolveSymbol symbols s).typeParams = s.declaration.typeParams ∧
      (resolveSymbol symbols s).imports = s.declaration.imports := by
  rw [resolveSymbol, Scope.resolveTypes, Declaration.mapTypes_eq]
  exact ⟨rfl, rfl, rfl⟩

/-- A reference of a resolved declaration is that of a written type. -/
theorem exists_written {symbols : Symbols} {s : ProjectSymbol} {t r : ResolvedRef}
    {methodParams : List TypeRef} (ht : (t, methodParams) ∈ (resolveSymbol symbols s).types)
    (hr : r ∈ t.within) :
    ∃ y, (y, methodParams) ∈ s.declaration.types ∧ ∃ x ∈ y.within, r.name = x.name ∧
      (r.fullName, r.resolution) = (Scope.ofSymbol symbols s).meaning methodParams x := by
  rw [resolveSymbol, Scope.resolveTypes, Declaration.types_mapTypes, List.mem_map] at ht
  obtain ⟨⟨y, params⟩, hy, heq⟩ := ht
  cases heq
  exact ⟨y, hy, Scope.mem_within_resolve _ _ hr⟩

end

end Project

/-! ## The search for a declaration -/

namespace Scope

variable {symbols : Symbols} {s : ProjectSymbol} {parts fullName : List String}

/-- The first number of a descending list that has a property. -/
theorem find?_descending {P : Nat → Bool} {k n : Nat}
    (h : (List.range k).reverse.find? P = some n) :
    n < k ∧ P n = true ∧ ∀ m, n < m → m < k → P m = false := by
  induction k with
  | zero => simp at h
  | succ k ih =>
      rw [List.range_succ, List.reverse_append, List.reverse_singleton, List.singleton_append,
        List.find?_cons] at h
      cases hk : P k with
      | true =>
          rw [hk] at h
          cases h
          exact ⟨Nat.lt_succ_self _, hk, fun m hlt hle => by omega⟩
      | false =>
          rw [hk] at h
          obtain ⟨hn, hP, hlast⟩ := ih h
          refine ⟨by omega, hP, fun m hlt hle => ?_⟩
          by_cases hm : m = k
          · rwa [hm]
          · exact hlast m hlt (by omega)

/-- The first item whose answer has a property. -/
theorem find?_filterMap {α β : Type} {f : α → Option β} {P : β → Bool} {xs : List α} {y : β}
    (h : (xs.filterMap f).find? P = some y) :
    ∃ before x after, xs = before ++ x :: after ∧ f x = some y ∧ P y = true ∧
      ∀ z ∈ before, ∀ y, f z = some y → P y = false := by
  induction xs with
  | nil => simp at h
  | cons x xs ih =>
      rw [List.filterMap_cons] at h
      have hlater (hrest : (xs.filterMap f).find? P = some y)
          (hx : ∀ y, f x = some y → P y = false) :
          ∃ before z after, x :: xs = before ++ z :: after ∧ f z = some y ∧ P y = true ∧
            ∀ z ∈ before, ∀ y, f z = some y → P y = false := by
        obtain ⟨before, z, after, rfl, hz, hy, hbefore⟩ := ih hrest
        refine ⟨x :: before, z, after, rfl, hz, hy, fun w hw => ?_⟩
        rcases List.mem_cons.1 hw with rfl | hw
        · exact hx
        · exact hbefore w hw
      cases hfx : f x with
      | none =>
          rw [hfx] at h
          exact hlater h fun y hy => by simp [hfx] at hy
      | some y' =>
          rw [hfx, List.find?_cons] at h
          cases hP : P y' with
          | true =>
              rw [hP] at h
              cases h
              exact ⟨[], x, xs, rfl, hfx, hP, by simp⟩
          | false =>
              rw [hP] at h
              refine hlater h fun y hy => ?_
              rw [hfx, Option.some.injEq] at hy
              rwa [← hy]

/-- What is accepted below an imported namespace. -/
theorem reaches_iff {imports : List Import} {full : List String} {s : Scope}
    (himports : s.imports = imports) :
    (parts.length < full.length && parts.isSuffixOf full &&
      s.importsUnder (full.take (full.length - parts.length))) = true ↔
      Import.Reaches imports parts full := by
  simp only [importsUnder, himports, Bool.and_eq_true, decide_eq_true_eq, List.isSuffixOf_iff_suffix,
    List.any_eq_true, Bool.not_eq_true', List.isPrefixOf_iff_prefix, List.isEmpty_eq_false_iff,
    and_assoc]
  constructor
  · rintro ⟨hlt, hsuffix, i, hi, hpath, hprefix⟩
    have hfull := List.suffix_iff_eq_append.1 hsuffix
    refine ⟨_, ?_, hfull.symm, i, hi, hpath, hprefix⟩
    intro hnil
    rw [hnil, List.nil_append] at hfull
    rw [hfull] at hlt
    omega
  · rintro ⟨front, hfront, rfl, i, hi, hpath, hprefix⟩
    have hpos := List.length_pos_of_ne_nil hfront
    refine ⟨by simp; omega, List.suffix_append _ _, i, hi, hpath, ?_⟩
    simpa using hprefix

/-- The search through the declarations, in the order of their keys. -/
theorem endingWith?_eq (accepts : List String → Bool) :
    symbols.endingWith? parts accepts =
      (symbols.table.entries.filterMap fun e => some e.2.declaration.fullName).find? fun full =>
        parts.length < full.length && parts.isSuffixOf full &&
          accepts (full.take (full.length - parts.length)) := by
  rw [Symbols.endingWith?, NameMap.values, List.map_map, List.filterMap_eq_map']
  rfl

variable {p : Project} (hp : p.declarations = symbols.table.map (Project.resolveSymbol symbols))

include hp

theorem contains_iff_declares : symbols.contains fullName = true ↔ p.Declares fullName := by
  rw [Project.Declares, hp, NameMap.contains_map, Symbols.contains]

theorem not_declares (h : symbols.contains fullName = false) : ¬ p.Declares fullName := by
  rw [← contains_iff_declares hp, h]
  exact Bool.false_ne_true

/-- No declaration is found around a reference. -/
theorem noneAround_of_find?
    (h : ((ofSymbol symbols s).enclosing parts).find? symbols.contains = none) :
    p.NoneAround (Project.resolveSymbol symbols s) parts := by
  intro n hn
  rw [(Project.resolveSymbol_eq symbols s).1] at hn ⊢
  rw [List.find?_eq_none] at h
  refine not_declares hp (Bool.eq_false_iff.2 (h _ ?_))
  simp only [enclosing, List.mem_map, List.mem_reverse, List.mem_range]
  exact ⟨n, Nat.lt_succ_of_le hn, rfl⟩

/-- None is found through the imports. -/
theorem noneImported_of_find? {imports : List Import}
    (h : (imports.filterMap (·.target? parts)).find? symbols.contains = none) :
    p.NoneImported imports parts := by
  intro i hi full htarget
  rw [List.find?_eq_none] at h
  exact not_declares hp (Bool.eq_false_iff.2 (h _ (List.mem_filterMap.2 ⟨i, hi, htarget⟩)))

/-- If none is found around or through the imports, the one that is found below them is the one
that the name denotes. -/
theorem denotes_of_endingWith? (hnamed : ∀ e ∈ symbols.table.entries, e.1 = e.2.name)
    (haround : p.NoneAround (Project.resolveSymbol symbols s) parts)
    (himported : p.NoneImported (Project.resolveSymbol symbols s).imports parts)
    (h : symbols.endingWith? parts (ofSymbol symbols s).importsUnder = some fullName) :
    p.Declares fullName ∧ p.Denotes (Project.resolveSymbol symbols s) parts fullName := by
  rw [endingWith?_eq] at h
  obtain ⟨before, e, after, hsplit, htarget, hreached, hbefore⟩ := find?_filterMap h
  cases htarget
  have hreaches (full : List String) := @reaches_iff parts _ full (ofSymbol symbols s)
    (Project.resolveSymbol_eq symbols s).2.2.symm
  have hentries : p.declarations.entries =
      before.map (fun e => (e.1, Project.resolveSymbol symbols e.2)) ++
        (e.1, Project.resolveSymbol symbols e.2) ::
          after.map (fun e => (e.1, Project.resolveSymbol symbols e.2)) := by
    rw [hp, NameMap.entries_map, hsplit, List.map_append, List.map_cons]
  have he := Project.resolveSymbol_eq symbols e.2
  have hdenotes := Project.Denotes.below haround himported hentries
    (he.1 ▸ (hreaches _).1 hreached) ?_
  · rw [he.1] at hdenotes
    refine ⟨?_, hdenotes⟩
    refine (contains_iff_declares hp).1 (NameMap.contains_iff.2 ⟨e, ?_, ?_⟩)
    · rw [hsplit]
      simp
    · exact hnamed e (by rw [hsplit]; simp)
  · intro x hx
    obtain ⟨y, hy, rfl⟩ := List.mem_map.1 hx
    rw [(Project.resolveSymbol_eq symbols y.2).1, ← hreaches, hbefore y hy _ rfl]
    exact Bool.false_ne_true

/-- The declaration that is found is the one that the name denotes. -/
theorem denotes_of_find? (hnamed : ∀ e ∈ symbols.table.entries, e.1 = e.2.name)
    (h : (ofSymbol symbols s).find? parts = some fullName) :
    p.Declares fullName ∧ p.Denotes (Project.resolveSymbol symbols s) parts fullName := by
  have hd := Project.resolveSymbol_eq symbols s
  rw [find?, List.find?_append] at h
  cases haround : ((ofSymbol symbols s).enclosing parts).find? symbols.contains with
  | some full =>
      rw [show (ofSymbol symbols s).symbols = symbols from rfl, haround] at h
      cases h
      rw [enclosing, List.find?_map, Option.map_eq_some_iff] at haround
      obtain ⟨n, hn, rfl⟩ := haround
      obtain ⟨hlt, hdeclared, hlast⟩ := find?_descending hn
      have hdeclares := (contains_iff_declares hp).1 hdeclared
      refine ⟨hdeclares, ?_⟩
      rw [ofSymbol, ← hd.1] at hlt hlast hdeclares ⊢
      exact .around (Nat.le_of_lt_succ hlt) hdeclares fun m hnm hm =>
        not_declares hp (hlast m hnm (Nat.lt_succ_of_le hm))
  | none =>
      rw [show (ofSymbol symbols s).symbols = symbols from rfl, haround, Option.none_or] at h
      have hnone := noneAround_of_find? hp haround
      cases himported : ((ofSymbol symbols s).imported parts).find? symbols.contains with
      | some full =>
          rw [himported] at h
          cases h
          obtain ⟨before, i, after, hsplit, htarget, hdeclared, hbefore⟩ := find?_filterMap himported
          have hdeclares := (contains_iff_declares hp).1 hdeclared
          refine ⟨hdeclares, .imported hnone (hd.2.2.trans hsplit) htarget hdeclares ?_⟩
          intro j hj full hfull
          exact not_declares hp (hbefore j hj full hfull)
      | none =>
          rw [himported, Option.none_or] at h
          have hnone' : p.NoneImported (Project.resolveSymbol symbols s).imports parts := by
            rw [hd.2.2]
            exact noneImported_of_find? hp himported
          exact denotes_of_endingWith? hp hnamed hnone hnone' h

/-- If none is found, the name denotes none. -/
theorem undeclared_of_find? (h : (ofSymbol symbols s).find? parts = none) :
    p.Undeclared (Project.resolveSymbol symbols s) parts := by
  have hd := Project.resolveSymbol_eq symbols s
  rw [find?, List.find?_append, Option.or_eq_none_iff, Option.or_eq_none_iff] at h
  obtain ⟨⟨haround, himported⟩, hbelow⟩ := h
  refine ⟨noneAround_of_find? hp haround, ?_, ?_⟩
  · rw [hd.2.2]
    exact noneImported_of_find? hp himported
  · intro e he
    rw [hp] at he
    obtain ⟨x, hx, hresolved⟩ := NameMap.mem_map_iff.1 he
    rw [← hresolved, (Project.resolveSymbol_eq symbols x).1,
      ← reaches_iff (s := ofSymbol symbols s) hd.2.2.symm]
    rw [show (ofSymbol symbols s).symbols = symbols from rfl, endingWith?_eq,
      List.find?_eq_none] at hbelow
    exact hbelow _ (List.mem_filterMap.2 ⟨_, hx, rfl⟩)

/-- The type parameters that are in scope. -/
theorem isTypeParam_iff {methodParams : List TypeRef} {name : String} :
    (ofSymbol symbols s).isTypeParam methodParams name = true ↔
      p.IsTypeParam (Project.resolveSymbol symbols s) methodParams name := by
  obtain ⟨hfull, hown, -⟩ := Project.resolveSymbol_eq symbols s
  have houter (full : List String) : p.get? (Text.dotted full) =
      (symbols.get? full).map (Project.resolveSymbol symbols) := by
    rw [Project.get?, hp, NameMap.get?_map, Symbols.get?]
  rw [isTypeParam, Bool.or_eq_true, List.any_eq_true, List.contains_iff_mem]
  constructor
  · rintro (⟨t, ht, hname⟩ | h)
    · exact .method ht (beq_iff_eq.1 hname)
    · obtain ⟨t, ht, rfl⟩ := List.mem_map.1 h
      rcases List.mem_append.1 ht with ht | ht
      · exact .own (hown ▸ ht) rfl
      · obtain ⟨around, haround, ht⟩ := List.mem_flatMap.1 ht
        obtain ⟨n, hn, hget⟩ := List.mem_filterMap.1 haround
        split at hget
        · cases hget
        · next hpos =>
          have hnpos : 0 < n := Nat.pos_of_ne_zero fun h => hpos (beq_iff_eq.2 h)
          have hlt : n < (Project.resolveSymbol symbols s).fullName.length := by
            rw [hfull]
            exact List.mem_range.1 hn
          have hgets : p.get? (Text.dotted ((Project.resolveSymbol symbols s).fullName.take n)) =
              some (Project.resolveSymbol symbols around) := by
            rw [hfull, houter, hget, Option.map_some]
          refine .around hnpos hlt hgets ?_ rfl
          rwa [(Project.resolveSymbol_eq symbols around).2.1]
  · rintro (⟨ht, rfl⟩ | ⟨ht, rfl⟩ | ⟨hpos, hlt, hget, ht, rfl⟩)
    · exact Or.inl ⟨_, ht, beq_self_eq_true _⟩
    · exact Or.inr (List.mem_map_of_mem (List.mem_append_left _ (hown ▸ ht)))
    · rw [houter, Option.map_eq_some_iff] at hget
      obtain ⟨around, hget, rfl⟩ := hget
      rw [(Project.resolveSymbol_eq symbols around).2.1] at ht
      rw [hfull] at hlt hget
      refine Or.inr (List.mem_map_of_mem (List.mem_append_right _ (List.mem_flatMap.2
        ⟨around, List.mem_filterMap.2 ⟨_, List.mem_range.2 hlt, ?_⟩, ht⟩)))
      rw [if_neg (by simpa using Nat.ne_of_gt hpos)]
      exact hget

/-- What a name is resolved to is what it means. -/
theorem means_of_meaning (hnamed : ∀ e ∈ symbols.table.entries, e.1 = e.2.name)
    {methodParams : List TypeRef} {t : TypeRef} {resolution : Resolution}
    (h : (fullName, resolution) = (ofSymbol symbols s).meaning methodParams t) :
    p.Means (Project.resolveSymbol symbols s) s.language methodParams t.name fullName
      resolution := by
  have hparam : (ofSymbol symbols s).isTypeParam methodParams t.name = true ↔
      p.IsTypeParam (Project.resolveSymbol symbols s) methodParams t.name := isTypeParam_iff hp
  unfold meaning at h
  split at h
  · next hwildcard =>
    cases h
    exact .wildcard hwildcard
  · next hwildcard =>
    have hwildcard : TypeRef.isWildcardName t.name = false := Bool.eq_false_iff.2 hwildcard
    simp only [Bool.and_eq_true, beq_iff_eq] at h
    split at h
    · next hscope =>
      cases h
      exact .typeParam hwildcard hscope.1 (hparam.1 hscope.2)
    · next hscope =>
      have hfree (hsingle : (Text.dottedParts t.name).length = 1) :
          ¬ p.IsTypeParam (Project.resolveSymbol symbols s) methodParams t.name :=
        fun hin => hscope ⟨hsingle, hparam.2 hin⟩
      split at h
      · next hbuiltin =>
        cases h
        exact .builtin hwildcard hbuiltin.1 (hfree hbuiltin.1) hbuiltin.2
      · next hbuiltin =>
        have hopen : p.IsOpen (Project.resolveSymbol symbols s) s.language methodParams t.name :=
          ⟨hwildcard, hfree, fun hsingle => Bool.eq_false_iff.2 fun h => hbuiltin ⟨hsingle, h⟩⟩
        cases hfind : (ofSymbol symbols s).find? t.parts with
        | some full =>
            rw [hfind] at h
            cases h
            obtain ⟨hdeclared, hdenotes⟩ := denotes_of_find? hp hnamed hfind
            exact .project hopen hdeclared hdenotes
        | none =>
            rw [hfind] at h
            cases h
            exact .unresolved hopen (undeclared_of_find? hp hfind)

end Scope

namespace Project

/-- A reference at any depth means exactly what it is resolved to.  The language is the one in which
all declarations of the name of the referring one are written. -/
theorem means_iff_of_resolve {units : List SourceUnit} {p : Project} (h : resolve units = .ok p)
    {key : String} {d : Declaration ResolvedRef} (hd : (key, d) ∈ p.declarations.entries)
    {t r : ResolvedRef} {methodParams : List TypeRef} (ht : (t, methodParams) ∈ d.types)
    (hr : r ∈ t.within) :
    key = d.fullNameText ∧ ∃ l : Language,
      (∃ u ∈ units, ∃ part ∈ u.declarations, part.fullNameText = key) ∧
      (∀ u ∈ units, ∀ part ∈ u.declarations, part.fullNameText = key → u.language = l) ∧
        ∀ fullName resolution, p.Means d l methodParams r.name fullName resolution ↔
          r.fullName = fullName ∧ r.resolution = resolution := by
  obtain ⟨symbols, hsymbols, hp, -⟩ := exists_symbols h
  have hgathered := Symbols.gathered_ofUnits hsymbols
  rw [hp] at hd
  obtain ⟨s, hs, rfl⟩ := NameMap.mem_map_iff.1 hd
  have hkey : key = s.name := hgathered.named _ hs
  refine ⟨?_, s.language, ?_, ?_, ?_⟩
  · rw [hkey, ProjectSymbol.name, Declaration.fullNameText, Declaration.fullNameText,
      (resolveSymbol_eq symbols s).1]
  · obtain ⟨part, hpart, hname⟩ := hgathered.declared _ hs
    obtain ⟨u, hu, hpart⟩ := List.mem_flatMap.1 hpart
    obtain ⟨written, hwritten, rfl⟩ := List.mem_map.1 hpart
    exact ⟨u, hu, written, hwritten, hname⟩
  · intro u hu part hpart hname
    have hmem : (⟨part, u.language, u.sourceId ++ " (" ++ part.position.text ++ ")"⟩ :
        ProjectSymbol) ∈ units.flatMap ProjectSymbol.ofUnit :=
      List.mem_flatMap.2 ⟨u, hu, List.mem_map.2 ⟨part, hpart, rfl⟩⟩
    exact (hgathered.language _ hmem _ hs hname.symm).symm
  · obtain ⟨y, -, x, -, hname, hmeaning⟩ := exists_written ht hr
    have hmeans := Scope.means_of_meaning hp hgathered.named hmeaning
    rw [hname]
    intro fullName resolution
    constructor
    · intro hother
      exact hmeans.unique hother
    · rintro ⟨rfl, rfl⟩
      exact hmeans

/-- The files with the given languages and texts, as far as they can be read. -/
def unitsOf (files : List (Language × String)) : List SourceUnit :=
  files.filterMap fun (l, text) =>
    (SourceUnit.read (l.name ++ " file") text ⟨l, 3⟩ .skipMember).toOption

/-- A type argument that stands for a declaration below an imported namespace. -/
theorem means_of_resolve_imported : ∃ p,
    resolve (unitsOf [(.csharp, "namespace A.B { class Item {} }"),
      (.csharp, "using A; class Box<T> { Map<T, B.Item> x; }")]) = .ok p ∧
    ∃ key d, (key, d) ∈ p.declarations.entries ∧ ∃ t methodParams, (t, methodParams) ∈ d.types ∧
      ∃ r ∈ t.within, (r.name = "B.Item" ∧ r.fullName = ["A", "B", "Item"]) ∧
        key = d.fullNameText ∧ ∃ l, (∃ u ∈ unitsOf [(.csharp, "namespace A.B { class Item {} }"),
            (.csharp, "using A; class Box<T> { Map<T, B.Item> x; }")],
          ∃ part ∈ u.declarations, part.fullNameText = key) ∧
        (∀ u ∈ unitsOf [(.csharp, "namespace A.B { class Item {} }"),
            (.csharp, "using A; class Box<T> { Map<T, B.Item> x; }")],
          ∀ part ∈ u.declarations, part.fullNameText = key → u.language = l) ∧
        ∀ fullName resolution, p.Means d l methodParams r.name fullName resolution ↔
          r.fullName = fullName ∧ r.resolution = resolution := by
  have hfound : (resolve (unitsOf [(.csharp, "namespace A.B { class Item {} }"),
      (.csharp, "using A; class Box<T> { Map<T, B.Item> x; }")])).toOption.any (fun p =>
        p.declarations.entries.any fun e => e.2.types.any fun t => t.1.within.any fun r =>
          r.name == "B.Item" && r.fullName == ["A", "B", "Item"]) = true := by decide +kernel
  cases hp : resolve (unitsOf [(.csharp, "namespace A.B { class Item {} }"),
      (.csharp, "using A; class Box<T> { Map<T, B.Item> x; }")]) with
  | error e =>
      rw [hp] at hfound
      simp [Except.toOption] at hfound
  | ok p =>
      rw [hp] at hfound
      simp only [Except.toOption, Option.any_some, List.any_eq_true, Bool.and_eq_true,
        beq_iff_eq] at hfound
      obtain ⟨⟨key, d⟩, hd, ⟨t, methodParams⟩, ht, r, hr, hname⟩ := hfound
      exact ⟨p, rfl, key, d, hd, t, methodParams, ht, r, hr, hname,
        means_iff_of_resolve hp hd ht hr⟩

end Project

end Outline
