import Outline.Proofs.Project.Meaning

/-!
# The order of files

Unless a name is declared twice, a project does not depend on the order in which its files are
given: the entries of a map stand in the order of their keys, and every look-up goes through such
a map or asks whether there is a name at all.

* `NameMap.ext_mem` — maps with the same entries are equal.
* `ProjectSymbol.addAll_fresh` — declarations of different names are all added, unchanged.
* `Symbols.SameNames` — what is looked up in the names of two projects is the same.
* `Project.resolve_perm` — files in another order make the same project.
-/

namespace Outline

/-! ## Maps with the same entries -/

/-- No entry of a map stands in it twice. -/
theorem NameMap.nodup_entries {α : Type} (m : NameMap α) : m.entries.Nodup := by
  refine m.ascending.imp ?_
  intro a b hlt heq
  rw [heq] at hlt
  exact String.lt_irrefl _ hlt

/-- Maps with the same entries are equal. -/
theorem NameMap.ext_mem {α : Type} {m m' : NameMap α}
    (h : ∀ e, e ∈ m.entries ↔ e ∈ m'.entries) : m = m' := by
  have hperm : m.entries.Perm m'.entries :=
    (List.perm_ext_iff_of_nodup m.nodup_entries m'.nodup_entries).2 h
  have hentries : m.entries = m'.entries := by
    refine hperm.eq_of_pairwise (fun a b _ _ hab hba => ?_) m.ascending m'.ascending
    exact absurd (String.lt_trans hab hba) (String.lt_irrefl _)
  cases m
  cases m'
  cases hentries
  rfl

/-- So are sets of the same names. -/
theorem NameSet.ofNames_congr {names names' : List String}
    (h : ∀ name, name ∈ names ↔ name ∈ names') : ofNames names = ofNames names' := by
  have hmem (names : List String) (e : String × Unit) :
      e ∈ (ofNames names).entries ↔ e.1 ∈ names := by
    rw [← contains_ofNames_iff, NameMap.contains_iff]
    constructor
    · intro he
      exact ⟨e, he, rfl⟩
    · rintro ⟨e', he', hkey⟩
      exact Prod.ext hkey rfl ▸ he'
  refine NameMap.ext_mem fun e => ?_
  rw [hmem, hmem, h]

/-! ## Declarations of different names -/

namespace ProjectSymbol

variable {parts parts' : List ProjectSymbol} {table : NameMap ProjectSymbol}

/-- Declarations of names that are different and new are all added. -/
theorem addAll_fresh (hnodup : (parts.map name).Nodup)
    (hfresh : ∀ s ∈ parts, table.get? s.name = none) :
    ∃ table', parts.foldlM addTo table = .ok table' ∧
      ∀ e, e ∈ table'.entries ↔ e ∈ table.entries ∨ ∃ s ∈ parts, e = (s.name, s) := by
  induction parts generalizing table with
  | nil => exact ⟨table, rfl, by simp⟩
  | cons s parts ih =>
      rw [List.map_cons, List.nodup_cons] at hnodup
      have hnew : table.get? s.name = none := hfresh s List.mem_cons_self
      have hrest : ∀ x ∈ parts, (table.insert s.name s).get? x.name = none := by
        intro x hx
        rw [NameMap.get?_eq_none_iff]
        intro e he heq
        rcases NameMap.mem_insert_iff.1 he with rfl | ⟨he, -⟩
        · exact hnodup.1 (List.mem_map.2 ⟨x, hx, heq.symm⟩)
        · have hold := hfresh x (List.mem_cons_of_mem _ hx)
          exact NameMap.get?_eq_none_iff.1 hold e he heq
      obtain ⟨table', hall, hentries⟩ := ih hnodup.2 hrest
      refine ⟨table', ?_, fun e => ?_⟩
      · rw [List.foldlM_cons, addTo_new hnew]
        exact hall
      · have hkept : e ∈ table.entries → e.1 ≠ s.name :=
          fun he => NameMap.get?_eq_none_iff.1 hnew e he
        rw [hentries, NameMap.mem_insert_iff, List.exists_mem_cons_iff, and_iff_left_of_imp hkept,
          or_assoc, or_left_comm]

/-- In another order they make the same map. -/
theorem addAll_perm (hperm : parts.Perm parts') (hnodup : (parts.map name).Nodup) :
    ∃ table, parts.foldlM addTo .empty = .ok table ∧ parts'.foldlM addTo .empty = .ok table := by
  have hnone : ∀ s : ProjectSymbol, (NameMap.empty : NameMap ProjectSymbol).get? s.name = none :=
    fun _ => rfl
  obtain ⟨table, hadd, hentries⟩ := addAll_fresh hnodup fun s _ => hnone s
  obtain ⟨table', hadd', hentries'⟩ :=
    addAll_fresh ((hperm.map name).nodup_iff.1 hnodup) fun s _ => hnone s
  have htables : table = table' := by
    refine NameMap.ext_mem fun e => ?_
    rw [hentries, hentries']
    simp only [hperm.mem_iff]
  exact ⟨table, hadd, htables ▸ hadd'⟩

end ProjectSymbol

/-! ## Looking names up -/

/-- The names of two projects that differ at most in the order of their list. -/
structure Symbols.SameNames (a b : Symbols) : Prop where
  /-- The declarations are the same. -/
  table : a.table = b.table
  /-- The names that are declared are the same. -/
  declared : ∀ path, a.isDeclared path = b.isDeclared path

namespace Scope

variable {s s' : Scope}

mutual

/-- A type is resolved by what the names in it mean. -/
theorem resolve_congr (h : ∀ params t, s.meaning params t = s'.meaning params t)
    (params : List TypeRef) (t : TypeRef) : s.resolve params t = s'.resolve params t := by
  match t with
  | ⟨name, nullable, dimensions, arguments⟩ =>
    rw [resolve_eq, resolve_eq, h, resolveAll_congr h params arguments]

theorem resolveAll_congr (h : ∀ params t, s.meaning params t = s'.meaning params t)
    (params : List TypeRef) (ts : List TypeRef) : s.resolveAll params ts = s'.resolveAll params ts := by
  match ts with
  | [] => rw [resolveAll, resolveAll]
  | t :: ts =>
    rw [resolveAll, resolveAll, resolve_congr h params t, resolveAll_congr h params ts]

end

mutual

/-- So are the names to report for it. -/
theorem gaps_congr (h : ∀ params t, s.meaning params t = s'.meaning params t)
    (hgap : ∀ parts, s.gap? parts = s'.gap? parts) (params : List TypeRef) (t : TypeRef) :
    s.gaps params t = s'.gaps params t := by
  match t with
  | ⟨name, nullable, dimensions, arguments⟩ =>
    rw [gaps, gaps, h, gapsAll_congr h hgap params arguments]
    simp only [hgap]

theorem gapsAll_congr (h : ∀ params t, s.meaning params t = s'.meaning params t)
    (hgap : ∀ parts, s.gap? parts = s'.gap? parts) (params : List TypeRef) (ts : List TypeRef) :
    s.gapsAll params ts = s'.gapsAll params ts := by
  match ts with
  | [] => rw [gapsAll, gapsAll]
  | t :: ts =>
    rw [gapsAll, gapsAll, gaps_congr h hgap params t, gapsAll_congr h hgap params ts]

end

end Scope

namespace Symbols.SameNames

variable {a b : Symbols}

/-- A name means the same. -/
theorem meaning_eq (h : a.SameNames b) (s : ProjectSymbol) (params : List TypeRef) (t : TypeRef) :
    (Scope.ofSymbol a s).meaning params t = (Scope.ofSymbol b s).meaning params t := by
  obtain ⟨table, names⟩ := a
  obtain ⟨table', names'⟩ := b
  obtain rfl : table = table' := h.table
  rfl

/-- The same is reported for a name without a meaning. -/
theorem gap?_eq (h : a.SameNames b) (s : ProjectSymbol) (parts : List String) :
    (Scope.ofSymbol a s).gap? parts = (Scope.ofSymbol b s).gap? parts := by
  have hdeclared : a.isDeclared = b.isDeclared := funext h.declared
  cases parts with
  | nil => rfl
  | cons first rest =>
      simp only [Scope.gap?, Scope.ofSymbol, hdeclared]
      rfl

theorem resolveSymbol_eq (h : a.SameNames b) (s : ProjectSymbol) :
    Project.resolveSymbol a s = Project.resolveSymbol b s := by
  have hresolve : (Scope.ofSymbol a s).resolve = (Scope.ofSymbol b s).resolve :=
    funext fun params => funext fun t => Scope.resolve_congr (h.meaning_eq s) params t
  rw [Project.resolveSymbol, Project.resolveSymbol, Scope.resolveTypes, Scope.resolveTypes, hresolve]

theorem symbolGaps_eq (h : a.SameNames b) (s : ProjectSymbol) :
    Project.symbolGaps a s = Project.symbolGaps b s := by
  have hgaps : (Scope.ofSymbol a s).gaps = (Scope.ofSymbol b s).gaps :=
    funext fun params => funext fun t =>
      Scope.gaps_congr (h.meaning_eq s) (h.gap?_eq s) params t
  rw [Project.symbolGaps, Project.symbolGaps, Scope.gapsOf, Scope.gapsOf, hgaps]

theorem missingImports_eq (h : a.SameNames b) (imports : List Import) :
    Project.missingImports a imports = Project.missingImports b imports := by
  simp only [Project.missingImports, h.declared]

end Symbols.SameNames

/-! ## Files in another order -/

namespace Symbols

variable {units units' : List SourceUnit}

/-- The names of the symbols of some files are the full names that are declared in them. -/
theorem names_ofUnits (units : List SourceUnit) :
    (units.flatMap ProjectSymbol.ofUnit).map ProjectSymbol.name =
      units.flatMap fun u => u.declarations.map (·.fullNameText) := by
  rw [List.map_flatMap]
  refine List.flatMap_congr fun u _ => ?_
  rw [ProjectSymbol.ofUnit, List.map_map]
  rfl

/-- The names of some files whose declarations make the given map. -/
theorem ofUnits_eq {table : NameMap ProjectSymbol}
    (h : (units.flatMap ProjectSymbol.ofUnit).foldlM ProjectSymbol.addTo .empty = .ok table) :
    ofUnits units = .ok {
      table
      fullNames := units.flatMap fun u => u.packages ++ u.declarations.map (·.fullName) } := by
  rw [ofUnits, h]
  rfl

/-- The names of some files do not depend on their order. -/
theorem sameNames_ofUnits (hperm : units.Perm units')
    (hnames : (units.flatMap fun u => u.declarations.map (·.fullNameText)).Nodup) :
    ∃ a b, ofUnits units = .ok a ∧ ofUnits units' = .ok b ∧ a.SameNames b := by
  rw [← names_ofUnits] at hnames
  obtain ⟨table, hadd, hadd'⟩ :=
    ProjectSymbol.addAll_perm (hperm.flatMap_right ProjectSymbol.ofUnit) hnames
  have hfull := hperm.flatMap_right fun u => u.packages ++ u.declarations.map (·.fullName)
  refine ⟨_, _, ofUnits_eq hadd, ofUnits_eq hadd', rfl, fun path => ?_⟩
  rw [isDeclared, isDeclared, hfull.any_eq]

end Symbols

namespace Project

/-- The project that some names make. -/
theorem resolve_of_symbols {units : List SourceUnit} {symbols : Symbols}
    (h : Symbols.ofUnits units = .ok symbols) :
    resolve units = .ok {
      declarations := symbols.table.map (resolveSymbol symbols)
      missing := NameSet.ofNames ((missingImports symbols (units.flatMap (·.imports)) ++
        symbols.table.values.flatMap (symbolGaps symbols)).map Text.dotted) } := by
  rw [resolve, h]
  rfl

/-- Files in another order make the same project, with the same meaning of every type and the same
missing names. -/
theorem resolve_perm {units units' : List SourceUnit} (hperm : units.Perm units')
    (hnames : (units.flatMap fun u => u.declarations.map (·.fullNameText)).Nodup) :
    ∃ p, resolve units = .ok p ∧ resolve units' = .ok p := by
  obtain ⟨a, b, ha, hb, hsame⟩ := Symbols.sameNames_ofUnits hperm hnames
  have hresolve : resolveSymbol a = resolveSymbol b := funext hsame.resolveSymbol_eq
  have hgaps : symbolGaps a = symbolGaps b := funext hsame.symbolGaps_eq
  have himports : (missingImports a (units.flatMap (·.imports))).Perm
      (missingImports b (units'.flatMap (·.imports))) := by
    rw [hsame.missingImports_eq]
    exact ((hperm.flatMap_right _).filter _).map _
  have hmissing : NameSet.ofNames ((missingImports b (units'.flatMap (·.imports)) ++
        b.table.values.flatMap (symbolGaps b)).map Text.dotted) =
      NameSet.ofNames ((missingImports a (units.flatMap (·.imports)) ++
        a.table.values.flatMap (symbolGaps a)).map Text.dotted) := by
    rw [hsame.table, hgaps]
    exact NameSet.ofNames_congr fun name =>
      ((himports.append_right _).map Text.dotted).mem_iff.symm
  refine ⟨_, resolve_of_symbols ha, ?_⟩
  rw [resolve_of_symbols hb, hmissing, hsame.table, hresolve]

/-- Two files that need each other, in both orders. -/
theorem resolve_perm_imports :
    let files := [(.java, "package a; import b.Item; class Box { Item<Box> x; Gone y; }"),
      (.java, "package b; import c.None; public class Item<T> extends a.Box { T t; }")]
    ((unitsOf files).length = 2 ∧ (unitsOf files).Perm (unitsOf files.reverse) ∧
      ((unitsOf files).flatMap fun u => u.declarations.map (·.fullNameText)).Nodup) ∧
        ∃ p, resolve (unitsOf files) = .ok p ∧ resolve (unitsOf files.reverse) = .ok p := by
  intro files
  have hlength : (unitsOf files).length = 2 := by decide +kernel
  have hnames : ((unitsOf files).flatMap fun u => u.declarations.map (·.fullNameText)).Nodup := by
    decide +kernel
  have hperm : (unitsOf files).Perm (unitsOf files.reverse) :=
    (List.reverse_perm files).symm.filterMap _
  exact ⟨⟨hlength, hperm, hnames⟩, resolve_perm hperm hnames⟩

end Project

end Outline
