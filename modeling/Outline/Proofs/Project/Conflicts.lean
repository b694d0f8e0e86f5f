import Mathlib.Data.List.Induction
import Mathlib.Data.Option.Basic
import Outline.Proofs.Project.Order
import Outline.Proofs.Project.Parts

/-!
# Conflicts

The declarations of one name make one declaration of a project or are in conflict.  Each further
one is compared with what the earlier ones have made; that is the same as to compare it with the
first one, whose kind, language and place stay while further parts are added.

* `ProjectSymbol.Begins` — what is known under a name, told by the declaration that began it.
* `ProjectSymbol.Peaceful` — no declaration is in conflict with the first one of its name.
* `ProjectSymbol.addAll_spec` — declarations are added one by one until the first conflict.
* `Project.resolves_iff_together` — which files make a project, and the error if they make none.
-/

namespace Outline

namespace ProjectSymbol

variable {s t first second known : ProjectSymbol} {parts : List ProjectSymbol}
  {table table' : NameMap ProjectSymbol} {e : ResolveError}

/-! ## Two declarations of one name -/

/-- Two partial declarations of one kind, which make one declaration. -/
def MakesOne (s t : ProjectSymbol) : Prop := ∃ kind, s.IsPartial kind ∧ t.IsPartial kind

theorem isPartOf_iff : s.isPartOf t = true ↔ s.MakesOne t := by
  constructor
  · intro h
    simp only [isPartOf, Bool.and_eq_true, beq_iff_eq] at h
    obtain ⟨⟨⟨⟨hs, ht⟩, hkind⟩, hpartial⟩, hpartial'⟩ := h
    exact ⟨s.declaration.kind, ⟨hs, rfl, hpartial⟩, ⟨ht, hkind.symm, hpartial'⟩⟩
  · rintro ⟨kind, hs, ht⟩
    exact hs.isPartOf ht

/-- What is known under a name was begun by a declaration: it has the place of that one, and the
same further declarations are parts of it. -/
structure Begins (first known : ProjectSymbol) : Prop where
  /-- The place is the same. -/
  origin : known.origin = first.origin
  /-- The same declarations are further parts. -/
  makesOne : ∀ t, known.MakesOne t ↔ first.MakesOne t

theorem Begins.refl (s : ProjectSymbol) : s.Begins s := ⟨rfl, fun _ => Iff.rfl⟩

/-- A further part does not change what can be added. -/
theorem Begins.merge (h : first.Begins known) (hs : first.MakesOne s) :
    first.Begins (known.merge s) := by
  refine ⟨h.origin, fun t => ?_⟩
  rw [← h.makesOne t]
  obtain ⟨kind, hknown, -⟩ := (h.makesOne s).2 hs
  have hmerged : (known.merge s).IsPartial kind := hknown.merge s
  constructor
  · rintro ⟨kind', hother, ht⟩
    exact ⟨kind, hknown, hmerged.kind.symm.trans hother.kind ▸ ht⟩
  · rintro ⟨kind', hother, ht⟩
    exact ⟨kind, hmerged, hknown.kind.symm.trans hother.kind ▸ ht⟩

/-! ## One declaration after the other -/

/-- The first of some declarations with the given name. -/
def firstOf (parts : List ProjectSymbol) (name : String) : Option ProjectSymbol :=
  parts.find? (·.name == name)

/-- What a map has under each name was begun by the first declaration of the name. -/
def Begun (parts : List ProjectSymbol) (table : NameMap ProjectSymbol) : Prop :=
  ∀ name, Option.Rel Begins (firstOf parts name) (table.get? name)

theorem Begun.cases (h : Begun parts table) (name : String) :
    (firstOf parts name = none ∧ table.get? name = none) ∨
      ∃ first known, firstOf parts name = some first ∧ table.get? name = some known ∧
        first.Begins known := by
  have hname := h name
  cases hfirst : firstOf parts name with
  | none =>
      cases htable : table.get? name with
      | none => exact Or.inl ⟨rfl, rfl⟩
      | some known =>
          rw [hfirst, htable] at hname
          cases hname
  | some first =>
      cases htable : table.get? name with
      | none =>
          rw [hfirst, htable] at hname
          cases hname
      | some known =>
          rw [hfirst, htable] at hname
          cases hname with
          | some hbegins => exact Or.inr ⟨first, known, rfl, rfl, hbegins⟩

/-- A declaration is added unless it is in conflict with the first one of its name. -/
theorem Begun.addTo_eq_error (h : Begun parts table) (hadd : addTo table s = .error e) :
    ∃ first, firstOf parts s.name = some first ∧ ¬ first.MakesOne s ∧
      e = .duplicateName s.name first.origin s.origin := by
  obtain ⟨known, hknown, hpart, rfl⟩ := exists_conflict hadd
  rcases h.cases s.name with ⟨-, hnew⟩ | ⟨first, known', hfirst, hknown', hbegins⟩
  · rw [hknown] at hnew
    cases hnew
  · obtain rfl : known = known' := Option.some.inj (hknown.symm.trans hknown')
    refine ⟨first, hfirst, fun hone => ?_, by rw [hbegins.origin]⟩
    rw [isPartOf_iff.2 ((hbegins.makesOne s).2 hone)] at hpart
    cases hpart

/-- A declaration that is added is no conflict. -/
theorem Begun.makesOne (h : Begun parts table) (hadd : addTo table s = .ok table')
    (hfirst : firstOf parts s.name = some first) : first.MakesOne s := by
  rcases h.cases s.name with ⟨hnone, -⟩ | ⟨first', known, hfirst', hknown, hbegins⟩
  · rw [hfirst] at hnone
    cases hnone
  · obtain rfl : first = first' := Option.some.inj (hfirst.symm.trans hfirst')
    rcases cases_of_addTo hadd with ⟨hnew, -⟩ | ⟨known', hknown', hpart, -⟩
    · rw [hknown] at hnew
      cases hnew
    · obtain rfl : known = known' := Option.some.inj (hknown.symm.trans hknown')
      exact (hbegins.makesOne s).1 (isPartOf_iff.1 hpart)

theorem Begun.addTo (h : Begun parts table) (hadd : addTo table s = .ok table') :
    Begun (parts ++ [s]) table' := by
  intro name
  have hfirstOf : firstOf (parts ++ [s]) name =
      (firstOf parts name).or (if s.name = name then some s else none) := by
    rw [firstOf, List.find?_append, List.find?_singleton, firstOf]
    simp only [beq_iff_eq]
  rw [hfirstOf, get?_addTo hadd]
  by_cases heq : s.name = name
  · rw [if_pos heq, if_pos heq]
    rcases h.cases name with ⟨hfirst, hnew⟩ | ⟨first, known, hfirst, hknown, hbegins⟩
    · rw [hfirst, hnew]
      exact .some (Begins.refl s)
    · have hone : first.MakesOne s := h.makesOne hadd (heq ▸ hfirst)
      rw [hfirst, hknown]
      exact .some (hbegins.merge hone)
  · rw [if_neg heq, if_neg heq, Option.or_none]
    exact h name

/-! ## All declarations -/

/-- Each of some declarations makes one declaration with the first one of its name. -/
def Peaceful (parts : List ProjectSymbol) : Prop :=
  ∀ name first rest, parts.filter (·.name == name) = first :: rest → ∀ s ∈ rest, first.MakesOne s

theorem filter_eq_of_firstOf {name : String} (h : firstOf parts name = some first) :
    ∃ between, parts.filter (·.name == name) = first :: between := by
  rw [firstOf, ← List.head?_filter] at h
  exact List.head?_eq_some_iff.1 h

/-- A further declaration keeps the peace if it makes one declaration with the first of its name. -/
theorem Peaceful.concat (h : Peaceful parts)
    (hs : ∀ first, firstOf parts s.name = some first → first.MakesOne s) :
    Peaceful (parts ++ [s]) := by
  intro name first rest hfilter t ht
  rw [List.filter_append] at hfilter
  by_cases heq : s.name = name
  · rw [List.filter_cons_of_pos (by simpa using heq), List.filter_nil] at hfilter
    cases hold : parts.filter (·.name == name) with
    | nil =>
        rw [hold, List.nil_append, List.cons.injEq] at hfilter
        rw [← hfilter.2] at ht
        cases ht
    | cons first' between =>
        rw [hold, List.cons_append, List.cons.injEq] at hfilter
        obtain ⟨rfl, rfl⟩ := hfilter
        rcases List.mem_append.1 ht with ht | ht
        · exact h name _ between hold t ht
        · obtain rfl := List.mem_singleton.1 ht
          refine hs _ ?_
          rw [firstOf, ← List.head?_filter, heq, hold, List.head?_cons]
  · rw [List.filter_cons_of_neg (by simpa using heq), List.filter_nil, List.append_nil] at hfilter
    exact h name first rest hfilter t ht

/-- The first declaration that is in conflict with an earlier one of its name. -/
structure Conflict (parts : List ProjectSymbol) (first second : ProjectSymbol) : Prop where
  /-- There is no conflict before it, and it does not make one declaration with the first one of its
  name. -/
  split : ∃ before after, parts = before ++ second :: after ∧ Peaceful before ∧
    firstOf before second.name = some first
  /-- The two do not make one declaration. -/
  apart : ¬ first.MakesOne second

theorem Conflict.append (h : Conflict parts first second) (more : List ProjectSymbol) :
    Conflict (parts ++ more) first second := by
  obtain ⟨before, after, rfl, hpeace, hfirst⟩ := h.split
  refine ⟨⟨before, after ++ more, ?_, hpeace, hfirst⟩, h.apart⟩
  rw [List.append_assoc, List.cons_append]

/-- Declarations are added one by one until the first conflict. -/
theorem addAll_spec (parts : List ProjectSymbol) :
    match parts.foldlM addTo .empty with
    | .ok table => Begun parts table ∧ Peaceful parts
    | .error e => ∃ first second, Conflict parts first second ∧
        e = .duplicateName second.name first.origin second.origin := by
  induction parts using List.reverseRecOn with
  | nil =>
      refine ⟨fun name => .none, fun name first rest h => ?_⟩
      cases h
  | append_singleton parts s ih =>
      rw [List.foldlM_append]
      cases hparts : parts.foldlM addTo .empty with
      | error e =>
          rw [hparts] at ih
          obtain ⟨first, second, hconflict, rfl⟩ := ih
          exact ⟨first, second, hconflict.append [s], rfl⟩
      | ok table =>
          rw [hparts] at ih
          obtain ⟨hbegun, hpeace⟩ := ih
          have hstep : (Except.ok table >>= fun table => [s].foldlM addTo table) =
              addTo table s := by
            change [s].foldlM addTo table = addTo table s
            rw [List.foldlM_cons]
            cases addTo table s <;> rfl
          rw [hstep]
          cases hadd : addTo table s with
          | error e =>
              obtain ⟨first, hfirst, hapart, rfl⟩ := hbegun.addTo_eq_error hadd
              exact ⟨first, s, ⟨⟨parts, [], rfl, hpeace, hfirst⟩, hapart⟩, rfl⟩
          | ok table' =>
              exact ⟨hbegun.addTo hadd, hpeace.concat fun first => hbegun.makesOne hadd⟩

/-- Declarations that are all added are not in conflict. -/
theorem peaceful_of_addAll (h : parts.foldlM addTo .empty = .ok table) : Peaceful parts := by
  have hspec := addAll_spec parts
  rw [h] at hspec
  exact hspec.2

/-- If some are not, there is a first conflict. -/
theorem conflict_of_addAll (h : parts.foldlM addTo .empty = .error e) :
    ∃ first second, Conflict parts first second ∧
      e = .duplicateName second.name first.origin second.origin := by
  have hspec := addAll_spec parts
  rw [h] at hspec
  exact hspec

/-! ## Declarations of one name -/

/-- Declarations of one name that make one declaration: a single one, or partial ones of one
kind. -/
def Together (parts : List ProjectSymbol) : Prop :=
  2 ≤ parts.length → ∃ kind, ∀ s ∈ parts, s.IsPartial kind

theorem together_of_makesOne {rest : List ProjectSymbol} (h : ∀ s ∈ rest, first.MakesOne s) :
    Together (first :: rest) := by
  intro hlength
  cases rest with
  | nil => simp at hlength
  | cons second rest =>
      obtain ⟨kind, hfirst, -⟩ := h second List.mem_cons_self
      refine ⟨kind, List.forall_mem_cons.2 ⟨hfirst, fun s hs => ?_⟩⟩
      obtain ⟨kind', hfirst', hs⟩ := h s hs
      exact hfirst.kind.symm.trans hfirst'.kind ▸ hs

theorem Together.makesOne {rest : List ProjectSymbol} (h : Together (first :: rest))
    (hs : s ∈ rest) : first.MakesOne s := by
  have hpos : 0 < rest.length := List.length_pos_of_mem hs
  obtain ⟨kind, hall⟩ := h (by rw [List.length_cons]; omega)
  exact ⟨kind, hall first List.mem_cons_self, hall s (List.mem_cons_of_mem _ hs)⟩

theorem peaceful_iff : Peaceful parts ↔ ∀ name, Together (parts.filter (·.name == name)) := by
  constructor
  · intro h name
    cases hfilter : parts.filter (·.name == name) with
    | nil => exact fun hlength => absurd hlength (by simp)
    | cons first rest => exact together_of_makesOne (h name first rest hfilter)
  · intro h name first rest hfilter s hs
    have htogether := h name
    rw [hfilter] at htogether
    exact htogether.makesOne hs

/-- The declarations of a name in conflict, in order. -/
theorem Conflict.filter (h : Conflict parts first second) :
    ∃ between after, parts.filter (·.name == second.name) = first :: between ++ second :: after ∧
      ∀ s ∈ between, first.MakesOne s := by
  obtain ⟨before, after, rfl, hpeace, hfirst⟩ := h.split
  obtain ⟨between, hbetween⟩ := filter_eq_of_firstOf hfirst
  refine ⟨between, after.filter (·.name == second.name), ?_, hpeace _ _ _ hbetween⟩
  rw [List.filter_append, hbetween, List.filter_cons_of_pos (by simp)]

/-- Where there is a conflict there is no peace. -/
theorem Conflict.not_peaceful (h : Conflict parts first second) : ¬ Peaceful parts := by
  intro hpeace
  obtain ⟨between, after, hfilter, -⟩ := h.filter
  exact h.apart (hpeace _ _ _ hfilter second (by simp))

end ProjectSymbol

/-! ## The declarations of some files -/

namespace Symbols

/-- The declarations of some files, in order, with the language and the place of each. -/
def written (units : List SourceUnit) : List ProjectSymbol := units.flatMap ProjectSymbol.ofUnit

/-- Those of the given name. -/
def writtenAs (units : List SourceUnit) (name : String) : List ProjectSymbol :=
  (written units).filter (·.name == name)

end Symbols

namespace Project

open ProjectSymbol (Conflict Together)
open Symbols (written writtenAs)

variable {units : List SourceUnit}

/-- Files whose declarations are not in conflict make a project. -/
theorem exists_resolve_iff :
    (∃ p, resolve units = .ok p) ↔ ProjectSymbol.Peaceful (written units) := by
  constructor
  · rintro ⟨p, h⟩
    obtain ⟨symbols, hsymbols, -⟩ := exists_symbols h
    exact ProjectSymbol.peaceful_of_addAll (Symbols.addAll_of_ofUnits hsymbols)
  · intro hpeace
    cases hadd : (written units).foldlM ProjectSymbol.addTo .empty with
    | error e =>
        obtain ⟨first, second, hconflict, -⟩ := ProjectSymbol.conflict_of_addAll hadd
        exact absurd hpeace hconflict.not_peaceful
    | ok table => exact ⟨_, resolve_of_symbols (Symbols.ofUnits_eq hadd)⟩

/-- The error of files that make no project is the first conflict among their declarations. -/
theorem conflict_of_resolve {e : ResolveError} (h : resolve units = .error e) :
    ∃ first second, Conflict (written units) first second ∧
      e = .duplicateName second.name first.origin second.origin := by
  have hsymbols : Symbols.ofUnits units = .error e := by
    unfold resolve at h
    cases hsymbols : Symbols.ofUnits units with
    | error e' =>
        rw [hsymbols] at h
        cases h
        rfl
    | ok symbols =>
        rw [hsymbols] at h
        cases h
  exact ProjectSymbol.conflict_of_addAll (Symbols.conflict_of_ofUnits hsymbols)

/-- The keys of a project are the names that are declared. -/
theorem contains_iff_of_resolve {p : Project} (h : resolve units = .ok p) {key : String} :
    p.declarations.contains key = true ↔
      ∃ u ∈ units, ∃ d ∈ u.declarations, d.fullNameText = key := by
  obtain ⟨symbols, hsymbols, hdeclarations, -⟩ := exists_symbols h
  have hgathered := Symbols.gathered_ofUnits hsymbols
  rw [hdeclarations, NameMap.contains_map, NameMap.contains_iff]
  constructor
  · rintro ⟨e, he, rfl⟩
    obtain ⟨s, hs, hname⟩ := hgathered.declared e he
    obtain ⟨u, hu, hs⟩ := List.mem_flatMap.1 hs
    obtain ⟨d, hd, rfl⟩ := List.mem_map.1 hs
    exact ⟨u, hu, d, hd, hname⟩
  · rintro ⟨u, hu, d, hd, hname⟩
    obtain ⟨e, he, hkey⟩ := hgathered.found _
      (List.mem_flatMap.2 ⟨u, hu, List.mem_map.2 ⟨d, hd, rfl⟩⟩)
    exact ⟨e, he, hkey.trans hname⟩

/-- Files make a project exactly if the declarations of every name are partial ones of one kind in
C#, unless there is only one.  The keys of the project are then the names that are declared.  The
error of other files names the first declaration of a name and the first later one that does not
make one declaration with it; no declaration before this one is in conflict. -/
theorem resolves_iff_together (units : List SourceUnit) :
    ((∃ p, resolve units = .ok p) ↔ ∀ name, Together (writtenAs units name)) ∧
    (∀ p, resolve units = .ok p → ∀ key, p.declarations.contains key = true ↔
      ∃ u ∈ units, ∃ d ∈ u.declarations, d.fullNameText = key) ∧
    ∀ e, resolve units = .error e → ∃ first second between after,
      e = .duplicateName second.name first.origin second.origin ∧
      writtenAs units second.name = first :: between ++ second :: after ∧
      (∀ s ∈ between, first.MakesOne s) ∧ Conflict (written units) first second := by
  refine ⟨exists_resolve_iff.trans ProjectSymbol.peaceful_iff, ?_, ?_⟩
  · intro p h key
    exact contains_iff_of_resolve h
  · intro e h
    obtain ⟨first, second, hconflict, rfl⟩ := conflict_of_resolve h
    obtain ⟨between, after, hfilter, hbetween⟩ := hconflict.filter
    exact ⟨first, second, between, after, rfl, hfilter, hbetween, hconflict⟩

/-- Two parts, and a declaration of the same name that is none. -/
theorem resolves_iff_together_third :
    let units := unitsOf [(.csharp, "partial class A {}"), (.csharp, "sealed partial class A {}"),
      (.csharp, "class A {}")]
    ∃ e, resolve units = .error e ∧ (writtenAs units "A").length = 3 ∧
      ∃ first second between after,
        e = .duplicateName second.name first.origin second.origin ∧
        writtenAs units second.name = first :: between ++ second :: after ∧
        (∀ s ∈ between, first.MakesOne s) ∧ Conflict (written units) first second := by
  intro units
  have hunits : (writtenAs units "A").map (·.declaration.hasModifier "partial") =
      [true, true, false] := by decide +kernel
  have hlength : (writtenAs units "A").length = 3 := by
    simpa using congrArg List.length hunits
  obtain ⟨hresolves, -, herror⟩ := resolves_iff_together units
  cases hresolve : resolve units with
  | error e => exact ⟨e, rfl, hlength, herror e hresolve⟩
  | ok p =>
      -- the last one is no partial declaration
      obtain ⟨kind, hall⟩ := hresolves.1 ⟨p, hresolve⟩ "A" (by omega)
      have hpartial : ∀ m ∈ (writtenAs units "A").map (·.declaration.hasModifier "partial"),
          m = true := by
        intro m hm
        obtain ⟨s, hs, rfl⟩ := List.mem_map.1 hm
        exact (hall s hs).hasModifier
      rw [hunits] at hpartial
      exact absurd (hpartial false (by simp)) Bool.false_ne_true

end Project

end Outline
