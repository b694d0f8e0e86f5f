import Outline.Proofs.Project.Conflicts
import Outline.Proofs.Project.Gaps
import Outline.Proofs.Project.Parts

/-!
# Access and modifiers

The access of a declaration is told by its modifiers when it is found, and it is not told anew when
further parts bring further modifiers.  So it matches the modifiers of all parts exactly if the
first part alone asks for it.

* `Discovery.access_found` — the access of what is found in a document.
* `ProjectSymbol.csharp_of_parts` — only C# has declarations of more than one part.
* `Project.access_iff_of_resolve` — when the access of a declaration of a project matches its
  modifiers.
-/

namespace Outline

/-! ## The access of what is found -/

namespace Discovery

/-- The access of a declaration that has been found is the one that its modifiers ask for, or the
one that is usual in its place. -/
theorem access_found (s : Surroundings) (scope : List String) (before ts : List TokenTree)
    {x : Discovered} (hx : x ∈ (ofSiblings s scope before ts).declarations) :
    ∃ parent?, x.declaration.access =
      s.language.access x.declaration.modifiers x.declaration.kind parent? := by
  match ts with
  | [] =>
    rw [ofSiblings] at hx
    exact absurd hx List.not_mem_nil
  | .node token children :: after =>
    by_cases hkind : TokenTree.kind (.node token children) = .block
    · cases hhead : (⟨before, .node token children⟩ : SitedBlock).head? s.language with
      | none =>
          rw [(ofSiblings_block scope after hkind hhead).1, List.mem_append] at hx
          rcases hx with hx | hx
          · exact access_found s.inside scope [] children hx
          · exact access_found s scope _ after hx
      | some head =>
          rw [(ofSiblings_head s scope after hhead).1, List.mem_append, List.mem_append] at hx
          rcases hx with (hx | hx) | hx
          · refine ⟨s.parent?, ?_⟩
            rw [ofHead] at hx
            split at hx <;> rw [List.mem_singleton.1 hx]
          · exact access_found (s.body head.kind _) _ [] children hx
          · exact access_found s scope _ after hx
    · rw [(ofSiblings_leaf s scope before after hkind).1] at hx
      exact access_found s _ _ after hx
termination_by sizeOf ts

end Discovery

/-- So is that of a declaration of a file. -/
theorem SourceUnit.access_of_read {sourceId text : String} {dialect : Dialect}
    {policy : MalformedPolicy} {u : SourceUnit} (h : read sourceId text dialect policy = .ok u)
    {d : Declaration TypeRef} (hd : d ∈ u.declarations) :
    ∃ parent?, d.access = u.language.access d.modifiers d.kind parent? := by
  obtain ⟨-, hlanguage, hdeclarations, -⟩ := found_of_ok h
  rw [hdeclarations] at hd
  obtain ⟨x, hx, rfl⟩ := List.mem_map.1 (List.mem_filter.1 hd).1
  rw [hlanguage]
  exact Discovery.access_found _ _ _ _ hx

/-! ## Declarations of several parts -/

namespace ProjectSymbol

/-- Only C# has declarations of more than one part. -/
theorem csharp_of_parts {parts rest : List ProjectSymbol} {table : NameMap ProjectSymbol}
    {name : String} {first second : ProjectSymbol} (h : parts.foldlM addTo .empty = .ok table)
    (hparts : parts.filter (·.name == name) = first :: second :: rest) :
    first.language = .csharp := by
  obtain ⟨kind, hfirst, -⟩ :=
    peaceful_of_addAll h name first (second :: rest) hparts second List.mem_cons_self
  exact hfirst.language

end ProjectSymbol

/-- The access of a declaration is the given one exactly if its modifiers ask for it, or ask for
none while it is the usual one. -/
theorem Language.access_eq_iff (l : Language) (modifiers : List String) (kind : DeclarationKind)
    (parent? : Option DeclarationKind) (a : Access) :
    l.access modifiers kind parent? = a ↔ l.explicitAccess modifiers = some a ∨
      l.explicitAccess modifiers = none ∧ l.defaultAccess kind parent? = a := by
  rw [Language.access]
  cases l.explicitAccess modifiers <;> simp

namespace Symbols

variable {units : List SourceUnit} {symbols : Symbols} {key : String} {s : ProjectSymbol}

/-- The first part of a declaration of a project, and what it has from it. -/
theorem exists_first (h : ofUnits units = .ok symbols) (hs : (key, s) ∈ symbols.table.entries) :
    ∃ first rest, partsOf units key = first :: rest ∧
      Declaration.Joins (first :: rest) s.declaration ∧
      (rest ≠ [] → s.language = .csharp) ∧ (rest = [] → s.declaration = first) := by
  have hgathered := gathered_ofUnits h
  have hget : symbols.table.get? key = some s := NameMap.get?_eq_some_iff.2 hs
  have hjoined := get?_ofUnits h key
  rw [hget] at hjoined
  cases hparts : (units.flatMap ProjectSymbol.ofUnit).filter (·.name == key) with
  | nil =>
      rw [hparts] at hjoined
      cases hjoined
  | cons first rest =>
      have hmap : partsOf units key = first.declaration :: rest.map (·.declaration) := by
        rw [partsOf_eq, hparts, List.map_cons]
      have hne : partsOf units key ≠ [] := by
        rw [hmap]
        exact List.cons_ne_nil _ _
      obtain ⟨s', hs', hjoins⟩ := exists_joins h hne
      obtain rfl : s' = s := Option.some.inj (hs'.symm.trans hget)
      refine ⟨_, _, hmap, hmap ▸ hjoins, fun hrest => ?_, fun hrest => ?_⟩
      · cases rest with
        | nil => exact absurd rfl hrest
        | cons second rest =>
            have hfirst : first ∈ units.flatMap ProjectSymbol.ofUnit ∧ first.name = key := by
              have hmem : first ∈ first :: second :: rest := List.mem_cons_self
              rw [← hparts, List.mem_filter] at hmem
              exact ⟨hmem.1, beq_iff_eq.1 hmem.2⟩
            rw [hgathered.language first hfirst.1 _ hs hfirst.2.symm]
            exact ProjectSymbol.csharp_of_parts (addAll_of_ofUnits h) hparts
      · rw [hparts, List.map_eq_nil_iff.1 hrest] at hjoined
        rw [Option.some.inj hjoined]
        rfl

end Symbols

namespace Project

variable {units : List SourceUnit} {p : Project}

theorem access_resolveSymbol (symbols : Symbols) (s : ProjectSymbol) :
    (resolveSymbol symbols s).access = s.declaration.access ∧
      (resolveSymbol symbols s).modifiers = s.declaration.modifiers := by
  rw [resolveSymbol, Scope.resolveTypes, Declaration.mapTypes_eq]
  exact ⟨rfl, rfl⟩

/-- The access of a declaration matches the modifiers of all its parts exactly if those of the first
part ask for it, or ask for none while it is the usual access of the first part.  Only C# has
declarations of more than one part. -/
theorem access_iff_of_resolve
    (hread : ∀ u ∈ units, ∃ sourceId text dialect policy,
      SourceUnit.read sourceId text dialect policy = .ok u)
    (h : resolve units = .ok p) {key : String} {d : Declaration ResolvedRef}
    (hd : (key, d) ∈ p.declarations.entries) :
    ∃ l first rest parent?, Symbols.partsOf units key = first :: rest ∧
      (∀ u ∈ units, ∀ part ∈ u.declarations, part.fullNameText = key → u.language = l) ∧
      (rest ≠ [] → l = .csharp) ∧ (rest = [] → d.modifiers = first.modifiers) ∧
      (∀ m, m ∈ d.modifiers ↔ ∃ part ∈ first :: rest, m ∈ part.modifiers) ∧
      first.access = l.access first.modifiers first.kind parent? ∧
      ∀ a, l.explicitAccess d.modifiers = some a →
        (d.access = a ↔ l.explicitAccess first.modifiers = some a ∨
          l.explicitAccess first.modifiers = none ∧ l.defaultAccess first.kind parent? = a) := by
  obtain ⟨symbols, hsymbols, hdeclarations, -⟩ := exists_symbols h
  rw [hdeclarations] at hd
  obtain ⟨s, hs, rfl⟩ := NameMap.mem_map_iff.1 hd
  obtain ⟨haccess, hmodifiers⟩ := access_resolveSymbol symbols s
  obtain ⟨first, rest, hparts, hjoins, hcsharp, hsingle⟩ := Symbols.exists_first hsymbols hs
  have hlanguage : ∀ u ∈ units, ∀ part ∈ u.declarations, part.fullNameText = key →
      u.language = s.language := by
    intro u hu part hpart hname
    have hmem : (⟨part, u.language, u.sourceId ++ " (" ++ part.position.text ++ ")"⟩ :
        ProjectSymbol) ∈ units.flatMap ProjectSymbol.ofUnit :=
      List.mem_flatMap.2 ⟨u, hu, List.mem_map.2 ⟨part, hpart, rfl⟩⟩
    exact ((Symbols.gathered_ofUnits hsymbols).language _ hmem _ hs hname.symm).symm
  obtain ⟨parent?, hparent⟩ : ∃ parent?,
      first.access = s.language.access first.modifiers first.kind parent? := by
    have hfirst : first ∈ Symbols.partsOf units key := hparts ▸ List.mem_cons_self
    obtain ⟨hfirst, hname⟩ := List.mem_filter.1 hfirst
    obtain ⟨u, hu, hfirst⟩ := List.mem_flatMap.1 hfirst
    obtain ⟨sourceId, text, dialect, policy, hu'⟩ := hread u hu
    rw [← hlanguage u hu first hfirst (beq_iff_eq.1 hname)]
    exact SourceUnit.access_of_read hu' hfirst
  refine ⟨s.language, first, rest, parent?, hparts, hlanguage, hcsharp, ?_, ?_, hparent, ?_⟩
  · intro hrest
    rw [hmodifiers, hsingle hrest]
  · intro m
    rw [hmodifiers]
    exact hjoins.modifiers m
  · intro a _
    rw [haccess, hjoins.access first rfl, hparent, Language.access_eq_iff]

/-- The first part is the one that asks for access. -/
theorem access_of_resolve_first :
    let units := unitsOf [(.csharp, "namespace N { public partial class A {} }"),
      (.csharp, "namespace N { sealed partial class A {} }")]
    ∃ p d, resolve units = .ok p ∧ ("N.A", d) ∈ p.declarations.entries ∧
      Language.csharp.explicitAccess d.modifiers = some .everyone ∧ d.access = .everyone := by
  intro units
  have hasks : (resolve units).toOption.any (fun p => (p.get? "N.A").any fun d =>
      Language.csharp.explicitAccess d.modifiers == some .everyone) = true := by decide +kernel
  have hparts : (Symbols.partsOf units "N.A").map (fun part =>
      Language.csharp.explicitAccess part.modifiers) = [some .everyone, none] := by decide +kernel
  cases hp : resolve units with
  | error e =>
      rw [hp] at hasks
      simp [Except.toOption] at hasks
  | ok p =>
      rw [hp] at hasks
      simp only [Except.toOption, Option.any_some] at hasks
      obtain ⟨d, hd, hmodifiers⟩ := (Option.any_eq_true _ _).1 hasks
      have hmodifiers := beq_iff_eq.1 hmodifiers
      have hmem := NameMap.get?_eq_some_iff.1 hd
      obtain ⟨l, first, rest, parent?, hfirst, -, hcsharp, -, -, -, hiff⟩ :=
        access_iff_of_resolve (fun u hu => read_of_mem_unitsOf hu) hp hmem
      rw [hfirst, List.map_cons, List.cons.injEq] at hparts
      obtain rfl : l = .csharp := by
        refine hcsharp fun hnil => ?_
        rw [hnil] at hparts
        exact absurd hparts.2 (by simp)
      exact ⟨p, d, rfl, hmem, hmodifiers, (hiff _ hmodifiers).2 (Or.inl hparts.1)⟩

/-- A later part is the one that asks for access, and the declaration keeps the usual one. -/
theorem not_access_of_resolve_later : ∃ p d,
    resolve (unitsOf [(.csharp, "namespace N { partial class A {} }"),
      (.csharp, "namespace N { public partial class A {} }")]) = .ok p ∧
    ("N.A", d) ∈ p.declarations.entries ∧
    Language.csharp.explicitAccess d.modifiers = some .everyone ∧ d.access = .package := by
  have hfound : (resolve (unitsOf [(.csharp, "namespace N { partial class A {} }"),
      (.csharp, "namespace N { public partial class A {} }")])).toOption.any (fun p =>
        (p.get? "N.A").any fun d => Language.csharp.explicitAccess d.modifiers == some .everyone &&
          d.access == .package) = true := by decide +kernel
  cases hp : resolve (unitsOf [(.csharp, "namespace N { partial class A {} }"),
      (.csharp, "namespace N { public partial class A {} }")]) with
  | error e =>
      rw [hp] at hfound
      simp [Except.toOption] at hfound
  | ok p =>
      rw [hp] at hfound
      simp only [Except.toOption, Option.any_some] at hfound
      obtain ⟨d, hd, hmodifiers⟩ := (Option.any_eq_true _ _).1 hfound
      rw [Bool.and_eq_true, beq_iff_eq, beq_iff_eq] at hmodifiers
      exact ⟨p, d, rfl, NameMap.get?_eq_some_iff.1 hd, hmodifiers⟩

end Project

end Outline
