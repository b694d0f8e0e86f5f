import Outline.Proofs.Declaration.Nesting
import Outline.Proofs.Project.Meaning
import Outline.Proofs.Text.Pieces
import Outline.Proofs.Unit.Reading

/-!
# Names that denote nothing

A name that denotes nothing is among the missing names of the project, or something that accounts
for it is: where an import says it should be, or a namespace that is imported.  What is visible in
a declaration is imported by its file, so that each file answers for the imports of its
declarations.

* `Discovery.imports_found`, `SourceUnit.imports_of_read` — what a declaration sees is imported by
  its file.
* `Project.Accounted` — how the missing names account for a name.
* `Project.accounted_of_resolve` — every reference that denotes nothing is accounted for.
-/

namespace Outline

/-! ## Imports of a file -/

namespace Discovery

/-- The imports that a declaration sees are visible around it or are found there. -/
theorem imports_found (s : Surroundings) (scope : List String) (before ts : List TokenTree)
    {x : Discovered} (hx : x ∈ (ofSiblings s scope before ts).declarations) {i : Import}
    (hi : i ∈ x.declaration.imports) : i ∈ s.imports ∨ i ∈ (ofSiblings s scope before ts).imports := by
  match ts with
  | [] =>
    rw [ofSiblings] at hx
    exact absurd hx List.not_mem_nil
  | .node token children :: after =>
    by_cases hkind : TokenTree.kind (.node token children) = .block
    · cases hhead : (⟨before, .node token children⟩ : SitedBlock).head? s.language with
      | none =>
          obtain ⟨hfound, himports⟩ := ofSiblings_block scope after hkind hhead
          rw [hfound, List.mem_append] at hx
          rw [himports, List.mem_append]
          rcases hx with hx | hx
          · exact (imports_found s.inside scope [] children hx hi).imp_right Or.inl
          · exact (imports_found s scope _ after hx hi).imp_right Or.inr
      | some head =>
          obtain ⟨d, ⟨-, hown⟩, hfound, himports⟩ := ofSiblings_body s scope after hhead
          rw [hfound, List.mem_append, List.mem_cons] at hx
          rw [himports, List.mem_append, List.mem_append]
          rcases hx with (rfl | hx) | hx
          · rw [hown, List.mem_append] at hi
            exact hi.imp_right fun hi => Or.inl (Or.inl hi)
          · -- what is found in the body is visible inside it
            rcases imports_found _ _ [] children hx hi with hi | hi
            · rcases List.mem_append.1 hi with hi | hi
              · exact Or.inl hi
              · exact Or.inr (Or.inl (Or.inl hi))
            · exact Or.inr (Or.inl (Or.inr hi))
          · exact (imports_found s scope _ after hx hi).imp_right Or.inr
    · obtain ⟨hfound, himports⟩ := ofSiblings_leaf s scope before after hkind
      rw [hfound] at hx
      rw [himports]
      exact imports_found s _ _ after hx hi
termination_by sizeOf ts

end Discovery

/-- What a declaration of a file sees is imported by the file. -/
theorem SourceUnit.imports_of_read {sourceId text : String} {dialect : Dialect}
    {policy : MalformedPolicy} {u : SourceUnit} (h : read sourceId text dialect policy = .ok u)
    {d : Declaration TypeRef} (hd : d ∈ u.declarations) {i : Import} (hi : i ∈ d.imports) :
    i ∈ u.imports := by
  obtain ⟨-, -, hdeclarations, himports, -⟩ := found_of_ok h
  rw [hdeclarations] at hd
  obtain ⟨x, hx, rfl⟩ := List.mem_map.1 (List.mem_filter.1 hd).1
  rw [himports]
  exact List.mem_append.2 (Discovery.imports_found _ _ _ _ hx hi)

namespace Project

/-! ## Accounts -/

/-- Whether the project misses the name with the given parts. -/
def Misses (p : Project) (parts : List String) : Prop :=
  p.missing.contains (Text.dotted parts) = true

/-- How a name that denotes nothing inside the declaration `d` is accounted for. -/
inductive Accounted (p : Project) (d : Declaration ResolvedRef) (parts : List String) : Prop where
  /-- The name is missing. -/
  | name (hmisses : p.Misses parts)
  /-- The first import that names its first part is that of a module, which is no part of a
  project. -/
  | module {first : String} {i : Import} (hfirst : parts.head? = some first)
      (hfind : d.imports.find? (·.importsName first) = some i) (hmodule : i.module?.isSome = true)
  /-- The name that the first import that names its first part stands for is missing. -/
  | imported {first : String} {i : Import} {fullName : List String}
      (hfirst : parts.head? = some first)
      (hfind : d.imports.find? (·.importsName first) = some i)
      (htarget : i.target? parts = some fullName) (hmisses : p.Misses fullName)
  /-- A namespace that is imported as a whole is missing. -/
  | namespace {i : Import} (hi : i ∈ d.imports) (hwhole : i.isWholeNamespace = true)
      (hmisses : p.Misses i.path)

end Project

/-! ## What is reported -/

/-- A name that denotes nothing keeps its parts. -/
theorem Scope.meaning_unresolved {s : Scope} {methodParams : List TypeRef} {t : TypeRef}
    {parts : List String} (h : s.meaning methodParams t = (parts, .unresolved)) :
    parts = t.parts := by
  simp only [Scope.meaning] at h
  split at h
  · cases h
  · split at h
    · cases h
    · split at h
      · cases h
      · split at h
        · cases h
        · exact (congrArg Prod.fst h).symm

/-- An import that names the first part of a name stands for some name. -/
theorem Import.exists_target {i : Import} {first : String} (h : i.importsName first = true)
    (rest : List String) : ∃ fullName, i.target? (first :: rest) = some fullName := by
  unfold Import.importsName at h
  unfold Import.target?
  cases halias : i.alias? with
  | some other =>
      rw [halias] at h
      exact ⟨_, if_pos h⟩
  | none =>
      rw [halias] at h
      have h : i.names.contains first = true := h
      exact ⟨_, if_pos (by rw [h, Bool.or_true])⟩

namespace Project

section

variable {units : List SourceUnit} {p : Project} {symbols : Symbols} {s : ProjectSymbol}

/-- What a declaration of the project sees is imported by one of the files. -/
theorem imports_of_entry (h : Symbols.ofUnits units = .ok symbols)
    (hread : ∀ u ∈ units, ∃ sourceId text dialect policy,
      SourceUnit.read sourceId text dialect policy = .ok u) {key : String}
    (hs : (key, s) ∈ symbols.table.entries) {i : Import} (hi : i ∈ s.declaration.imports) :
    i ∈ units.flatMap (·.imports) := by
  obtain ⟨part, hpart, -, hi⟩ := (Symbols.gathered_ofUnits h).imports _ hs i hi
  obtain ⟨u, hu, hpart⟩ := List.mem_flatMap.1 hpart
  obtain ⟨written, hwritten, rfl⟩ := List.mem_map.1 hpart
  obtain ⟨sourceId, text, dialect, policy, hu'⟩ := hread u hu
  exact List.mem_flatMap.2 ⟨u, hu, SourceUnit.imports_of_read hu' hwritten hi⟩

/-- The missing names of a project are the paths of imports that lead nowhere and the gaps of its
declarations. -/
theorem misses_iff (h : resolve units = .ok p) (hsymbols : Symbols.ofUnits units = .ok symbols)
    {parts : List String} :
    p.Misses parts ↔ ∃ gap, Text.dotted gap = Text.dotted parts ∧
      (gap ∈ missingImports symbols (units.flatMap (·.imports)) ∨
        ∃ e ∈ symbols.table.entries, gap ∈ symbolGaps symbols e.2) := by
  obtain ⟨symbols', hsymbols', -, hmissing⟩ := exists_symbols h
  obtain rfl : symbols' = symbols := Except.ok.inj (hsymbols'.symm.trans hsymbols)
  rw [Misses, hmissing, NameSet.contains_ofNames_iff, List.mem_map]
  refine exists_congr fun gap => ?_
  rw [and_comm, List.mem_append, List.mem_flatMap, NameMap.values]
  simp only [List.mem_map, exists_exists_and_eq_and]

/-- A gap is reported, or it is suppressed for a reason. -/
theorem accounted_of_gap? {first : String} {rest : List String} {scope : Scope}
    {d : Declaration ResolvedRef} (himports : scope.imports = d.imports)
    (hgap : ∀ gap, scope.gap? (first :: rest) = some gap → p.Misses gap)
    (hnamespace : ∀ i ∈ d.imports, i.isWholeNamespace = true →
      scope.symbols.isDeclared i.path = false → p.Misses i.path) :
    p.Accounted d (first :: rest) := by
  simp only [Scope.gap?, himports] at hgap
  cases hfind : d.imports.find? (·.importsName first) with
  | some i =>
      rw [hfind] at hgap
      by_cases hmodule : i.module?.isSome = true
      · exact .module rfl hfind hmodule
      · have hnames : i.importsName first = true := by simpa using List.find?_some hfind
        obtain ⟨fullName, htarget⟩ := Import.exists_target hnames rest
        exact .imported rfl hfind htarget (hgap _ ((if_neg hmodule).trans htarget))
  | none =>
      rw [hfind] at hgap
      by_cases hany : (d.imports.any fun i =>
          i.isWholeNamespace && !scope.symbols.isDeclared i.path) = true
      · obtain ⟨i, hi, hmissing⟩ := List.any_eq_true.1 hany
        rw [Bool.and_eq_true, Bool.not_eq_true'] at hmissing
        exact .namespace hi hmissing.1 (hnamespace i hi hmissing.1 hmissing.2)
      · exact .name (hgap _ (if_neg hany))

end

/-- No gap goes unreported: a reference at any depth that denotes nothing is accounted for by the
missing names. -/
theorem accounted_of_resolve {units : List SourceUnit} {p : Project}
    (hread : ∀ u ∈ units, ∃ sourceId text dialect policy,
      SourceUnit.read sourceId text dialect policy = .ok u)
    (h : resolve units = .ok p) {key : String} {d : Declaration ResolvedRef}
    (hd : (key, d) ∈ p.declarations.entries) {t r : ResolvedRef} {methodParams : List TypeRef}
    (ht : (t, methodParams) ∈ d.types) (hr : r ∈ t.within) (hnone : r.resolution = .unresolved) :
    p.Accounted d r.fullName := by
  obtain ⟨symbols, hsymbols, hdeclarations, -⟩ := exists_symbols h
  rw [hdeclarations] at hd
  obtain ⟨s, hs, rfl⟩ := NameMap.mem_map_iff.1 hd
  obtain ⟨y, hy, x, hx, -, hmeaning⟩ := exists_written ht hr
  rw [hnone] at hmeaning
  obtain ⟨first, rest, hparts⟩ : ∃ first rest, r.fullName = first :: rest :=
    List.exists_cons_of_ne_nil (Scope.meaning_unresolved hmeaning.symm ▸ Text.dottedParts_ne_nil _)
  rw [hparts] at hmeaning ⊢
  have himports : (Scope.ofSymbol symbols s).imports = (resolveSymbol symbols s).imports :=
    (resolveSymbol_eq symbols s).2.2.symm
  refine accounted_of_gap? himports ?_ ?_
  · intro gap hgap
    refine (misses_iff h hsymbols).2 ⟨gap, rfl, Or.inr ⟨_, hs, ?_⟩⟩
    exact List.mem_flatMap.2 ⟨_, hy, Scope.mem_gaps _ _ hx hmeaning.symm hgap⟩
  · intro i hi hwhole hundeclared
    refine (misses_iff h hsymbols).2 ⟨i.path, rfl, Or.inl (List.mem_map_of_mem ?_)⟩
    have hi := imports_of_entry hsymbols hread hs ((resolveSymbol_eq symbols s).2.2 ▸ hi)
    refine List.mem_filter.2 ⟨hi, ?_⟩
    simp only [Import.isWholeNamespace, Bool.and_eq_true] at hwhole
    have hundeclared : symbols.isDeclared i.path = false := hundeclared
    rw [hwhole.1.1.1, hwhole.2, hundeclared]
    rfl

theorem read_of_mem_unitsOf {files : List (Language × String)} {u : SourceUnit}
    (h : u ∈ unitsOf files) : ∃ sourceId text dialect policy,
      SourceUnit.read sourceId text dialect policy = .ok u := by
  obtain ⟨⟨l, text⟩, -, hu⟩ := List.mem_filterMap.1 h
  refine ⟨l.name ++ " file", text, ⟨l, 3⟩, .skipMember, ?_⟩
  cases hread : SourceUnit.read (l.name ++ " file") text ⟨l, 3⟩ .skipMember with
  | error e =>
      simp only [hread] at hu
      cases hu
  | ok read =>
      simp only [hread] at hu
      cases hu
      rfl

/-- A type argument for which an unknown namespace accounts. -/
theorem accounted_of_resolve_argument : ∃ p,
    resolve (unitsOf [(.csharp, "namespace A { using Ext; class Box { List<Item> x; } }")]) = .ok p ∧
      ∃ key d, (key, d) ∈ p.declarations.entries ∧ ∃ t methodParams,
        (t, methodParams) ∈ d.types ∧ ∃ r ∈ t.within, (r.fullName = ["Item"] ∧
          r.resolution = .unresolved) ∧ ¬ p.Misses r.fullName ∧ p.Accounted d r.fullName := by
  have hfound : (resolve (unitsOf
      [(.csharp, "namespace A { using Ext; class Box { List<Item> x; } }")])).toOption.any (fun p =>
        p.declarations.entries.any fun e => e.2.types.any fun t => t.1.within.any fun r =>
          (r.fullName == ["Item"] && r.resolution == .unresolved) &&
            !p.missing.contains (Text.dotted r.fullName)) = true := by decide +kernel
  cases hp : resolve (unitsOf
      [(.csharp, "namespace A { using Ext; class Box { List<Item> x; } }")]) with
  | error e =>
      rw [hp] at hfound
      simp [Except.toOption] at hfound
  | ok p =>
      rw [hp] at hfound
      simp only [Except.toOption, Option.any_some, List.any_eq_true, Bool.and_eq_true,
        beq_iff_eq, Bool.not_eq_true'] at hfound
      obtain ⟨⟨key, d⟩, hd, ⟨t, methodParams⟩, ht, r, hr, hnone, hmisses⟩ := hfound
      exact ⟨p, rfl, key, d, hd, t, methodParams, ht, r, hr, hnone, by simp [Misses, hmisses],
        accounted_of_resolve (fun u hu => read_of_mem_unitsOf hu) hp hd ht hr hnone.2⟩

end Project

end Outline
