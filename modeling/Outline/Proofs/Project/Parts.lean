import Outline.Proofs.Project.Meaning

/-!
# The parts of a declaration

A name that is declared more than once stands for one declaration, made of the parts in the order
of the files.  Members, annotations and comments are put behind each other; modifiers, imports and
implemented types are united.  The extended type is that of the first part that extends one, so
that the type that a later part extends is lost unless some part implements it.

* `ProjectSymbol.joined?` — the declaration that some parts make.
* `Symbols.get?_ofUnits` — what a project has under a name is made of the parts of that name.
* `Declaration.Joins`, `Declaration.KeepsBases` — nothing of the parts is lost.
* `Symbols.joins_parts` — what becomes of partial declarations.
-/

namespace Outline

/-! ## Joining parts -/

namespace ProjectSymbol

/-- What is known under a name after a further declaration of it. -/
def join (known? : Option ProjectSymbol) (s : ProjectSymbol) : ProjectSymbol :=
  known?.elim s (·.merge s)

/-- What is known under a name after its declarations have been read one by one. -/
def joined? (known? : Option ProjectSymbol) (parts : List ProjectSymbol) : Option ProjectSymbol :=
  parts.foldl (fun known? s => some (join known? s)) known?

variable {table table' : NameMap ProjectSymbol} {s : ProjectSymbol} {name : String}

/-- A declaration that is added is joined to what is known under its name, and nothing else
changes. -/
theorem get?_addTo (h : addTo table s = .ok table') (name : String) :
    table'.get? name =
      if s.name = name then some (join (table.get? name) s) else table.get? name := by
  have hinsert (value : ProjectSymbol) : (table.insert s.name value).get? name =
      if s.name = name then some value else table.get? name := by
    split
    · next heq =>
      rw [NameMap.get?_eq_some_iff, NameMap.mem_insert_iff, heq]
      exact Or.inl rfl
    · next hne =>
      cases hold : table.get? name with
      | none =>
          rw [NameMap.get?_eq_none_iff] at hold ⊢
          intro e he
          rcases NameMap.mem_insert_iff.1 he with rfl | ⟨he, -⟩
          · exact hne
          · exact hold e he
      | some known =>
          rw [NameMap.get?_eq_some_iff] at hold ⊢
          exact NameMap.mem_insert_iff.2 (Or.inr ⟨hold, fun heq => hne heq.symm⟩)
  rcases cases_of_addTo h with ⟨hnew, rfl⟩ | ⟨known, hknown, -, rfl⟩
  · rw [hinsert]
    split
    · next heq => rw [← heq, hnew, join, Option.elim_none]
    · rfl
  · rw [hinsert]
    split
    · next heq => rw [← heq, hknown, join, Option.elim_some]
    · rfl

/-- So are any number of declarations. -/
theorem get?_addAll {parts : List ProjectSymbol} (h : parts.foldlM addTo table = .ok table')
    (name : String) :
    table'.get? name = joined? (table.get? name) (parts.filter (·.name == name)) := by
  induction parts generalizing table with
  | nil =>
      cases h
      rfl
  | cons s parts ih =>
      obtain ⟨next, hstep, hrest⟩ := exists_of_addAll_cons h
      rw [ih hrest, get?_addTo hstep]
      by_cases hname : s.name = name
      · rw [if_pos hname, List.filter_cons_of_pos (by simpa using hname)]
        rfl
      · rw [if_neg hname, List.filter_cons_of_neg (by simpa using hname)]

/-! ## Partial declarations -/

/-- A declaration of the given kind that is one of several parts. -/
structure IsPartial (kind : DeclarationKind) (s : ProjectSymbol) : Prop where
  /-- It is written in C#. -/
  language : s.language = .csharp
  /-- It is of the kind. -/
  kind : s.declaration.kind = kind
  /-- It carries the modifier. -/
  hasModifier : s.declaration.hasModifier Declaration.partialModifier = true

variable {kind : DeclarationKind} {known : ProjectSymbol}

theorem IsPartial.isPartOf (hknown : known.IsPartial kind) (hs : s.IsPartial kind) :
    known.isPartOf s = true := by
  simp [ProjectSymbol.isPartOf, hknown.language, hs.language, hknown.kind, hs.kind,
    hknown.hasModifier, hs.hasModifier]

theorem IsPartial.merge (hknown : known.IsPartial kind) (s : ProjectSymbol) :
    (known.merge s).IsPartial kind where
  language := hknown.language
  kind := hknown.kind
  hasModifier := by
    have hmem := List.contains_iff_mem.1 hknown.hasModifier
    exact List.contains_iff_mem.2 (mem_appendNew_iff.2 (Or.inl hmem))

/-- Partial declarations of one kind are not in conflict with each other. -/
theorem conflict_ne {parts : List ProjectSymbol} {e : ResolveError}
    (h : parts.foldlM addTo table = .error e) (htable : ∀ known, table.get? name = some known →
      known.IsPartial kind) (hparts : ∀ s ∈ parts, s.name = name → s.IsPartial kind) :
    ∃ other first second, e = .duplicateName other first second ∧ other ≠ name := by
  induction parts generalizing table with
  | nil => cases h
  | cons s parts ih =>
      rw [List.foldlM_cons] at h
      have hs := hparts s List.mem_cons_self
      cases hstep : addTo table s with
      | ok next =>
          rw [hstep] at h
          refine ih h ?_ fun x hx => hparts x (List.mem_cons_of_mem _ hx)
          intro known hknown
          rw [get?_addTo hstep] at hknown
          split at hknown
          · next hname =>
            cases hknown
            cases hold : table.get? name with
            | none => exact hs hname
            | some old => exact (htable old hold).merge s
          · exact htable known hknown
      | error e' =>
          rw [hstep] at h
          cases h
          obtain ⟨known, hknown, hconflict, rfl⟩ := exists_conflict hstep
          refine ⟨_, _, _, rfl, fun hname => ?_⟩
          have hpart := (htable known (hname ▸ hknown)).isPartOf (hs hname)
          rw [hconflict] at hpart
          cases hpart

end ProjectSymbol

/-! ## What the parts make -/

namespace Declaration

/-- A declaration has the members, annotations and comments of its parts, in their order, and the
modifiers and imports of all of them. -/
structure Joins (parts : List (Declaration TypeRef)) (d : Declaration TypeRef) : Prop where
  /-- The fields are those of the parts, in order. -/
  fields : d.fields = parts.flatMap (·.fields)
  /-- So are the methods. -/
  methods : d.methods = parts.flatMap (·.methods)
  /-- So are the constants. -/
  enumMembers : d.enumMembers = parts.flatMap (·.enumMembers)
  /-- So are the annotations. -/
  annotations : d.annotations = parts.flatMap (·.annotations)
  /-- So are the comments. -/
  comments : d.comments = parts.flatMap (·.comments)
  /-- The modifiers are those of all parts. -/
  modifiers : ∀ m, m ∈ d.modifiers ↔ ∃ part ∈ parts, m ∈ part.modifiers
  /-- The imports are those of all parts. -/
  imports : ∀ i, i ∈ d.imports ↔ ∃ part ∈ parts, i ∈ part.imports
  /-- The extended type is that of the first part that extends one. -/
  extended : d.extended? = parts.findSome? (·.extended?)
  /-- The implemented types are those of all parts. -/
  implemented : ∀ t, t ∈ d.implemented ↔ ∃ part ∈ parts, t ∈ part.implemented
  /-- The access is that of the first part. -/
  access : ∀ part ∈ parts.head?, d.access = part.access

/-- No part extends a type that is neither the one that the first extending part extends nor
implemented by some part. -/
def KeepsBases (parts : List (Declaration TypeRef)) : Prop :=
  ∀ part ∈ parts, ∀ t ∈ part.extended?,
    parts.findSome? (·.extended?) = some t ∨ ∃ other ∈ parts, t ∈ other.implemented

variable {parts : List (Declaration TypeRef)} {d part : Declaration TypeRef}

theorem joins_single (d : Declaration TypeRef) : Joins [d] d := by
  constructor <;> simp

/-- A further part is joined behind the others. -/
theorem Joins.merge (h : Joins parts d) (hparts : parts ≠ []) (part : Declaration TypeRef) :
    Joins (parts ++ [part]) (d.merge part) where
  fields := by simp [Declaration.merge, h.fields]
  methods := by simp [Declaration.merge, h.methods]
  enumMembers := by simp [Declaration.merge, h.enumMembers]
  annotations := by simp [Declaration.merge, h.annotations]
  comments := by simp [Declaration.merge, h.comments]
  modifiers m := by
    rw [show (d.merge part).modifiers = appendNew d.modifiers part.modifiers from rfl,
      mem_appendNew_iff, h.modifiers]
    simp [or_and_right, exists_or]
  imports i := by
    rw [show (d.merge part).imports = appendNew d.imports part.imports from rfl,
      mem_appendNew_iff, h.imports]
    simp [or_and_right, exists_or]
  extended := by
    rw [show (d.merge part).extended? = d.extended?.or part.extended? from rfl, h.extended,
      List.findSome?_append, List.findSome?_singleton]
  implemented t := by
    rw [show (d.merge part).implemented = appendNew d.implemented part.implemented from rfl,
      mem_appendNew_iff, h.implemented]
    simp [or_and_right, exists_or]
  access first hfirst := by
    rw [List.head?_append_of_ne_nil _ hparts] at hfirst
    exact h.access first hfirst

/-- The base types of a joined declaration are those of all parts exactly if no extended type is
lost. -/
theorem Joins.mem_bases_iff (h : Joins parts d) :
    (∀ t, t ∈ d.bases ↔ ∃ part ∈ parts, t ∈ part.bases) ↔ KeepsBases parts := by
  have hbases (t : TypeRef) : t ∈ d.bases ↔
      parts.findSome? (·.extended?) = some t ∨ ∃ part ∈ parts, t ∈ part.implemented := by
    rw [bases, List.mem_append, Option.mem_toList, h.extended, h.implemented]
  constructor
  · intro hunion part hpart t ht
    have hbase : t ∈ part.bases := List.mem_append_left _ (Option.mem_toList.2 ht)
    exact (hbases t).1 ((hunion t).2 ⟨part, hpart, hbase⟩)
  · intro hkeeps t
    rw [hbases]
    constructor
    · rintro (hfirst | ⟨part, hpart, ht⟩)
      · obtain ⟨part, hpart, ht⟩ := List.exists_of_findSome?_eq_some hfirst
        exact ⟨part, hpart, List.mem_append_left _ (Option.mem_toList.2 ht)⟩
      · exact ⟨part, hpart, List.mem_append_right _ ht⟩
    · rintro ⟨part, hpart, ht⟩
      rcases List.mem_append.1 ht with ht | ht
      · exact hkeeps part hpart t (Option.mem_toList.1 ht)
      · exact Or.inr ⟨part, hpart, ht⟩

end Declaration

namespace ProjectSymbol

open Declaration (Joins)

/-- What is known under a name joins the declarations that have been read. -/
theorem joins_joined? {known : ProjectSymbol} {before : List (Declaration TypeRef)}
    (hbefore : before ≠ []) (h : Joins before known.declaration) (parts : List ProjectSymbol) :
    ∃ s, joined? (some known) parts = some s ∧
      Joins (before ++ parts.map (·.declaration)) s.declaration := by
  induction parts generalizing known before with
  | nil => exact ⟨known, rfl, by simpa using h⟩
  | cons s parts ih =>
      have hnext : Joins (before ++ [s.declaration]) (known.merge s).declaration :=
        h.merge hbefore s.declaration
      obtain ⟨all, hall, hjoins⟩ := ih (by simp) hnext
      refine ⟨all, hall, ?_⟩
      rwa [List.append_assoc, List.singleton_append] at hjoins

/-- If there is a declaration at all, it is part of what is known. -/
theorem exists_joined? {parts : List ProjectSymbol} (hparts : parts ≠ []) :
    ∃ s, joined? none parts = some s ∧ Joins (parts.map (·.declaration)) s.declaration := by
  cases parts with
  | nil => exact absurd rfl hparts
  | cons s parts =>
      exact joins_joined? (by simp) (Declaration.joins_single s.declaration) parts

end ProjectSymbol

/-! ## The declarations of a project -/

namespace Symbols

open Declaration (Joins KeepsBases)

variable {units : List SourceUnit} {symbols : Symbols} {name : String}

/-- The declarations of a name in some files, in order. -/
def partsOf (units : List SourceUnit) (name : String) : List (Declaration TypeRef) :=
  (units.flatMap (·.declarations)).filter (·.fullNameText == name)

theorem partsOf_eq (units : List SourceUnit) (name : String) :
    partsOf units name =
      ((units.flatMap ProjectSymbol.ofUnit).filter (·.name == name)).map (·.declaration) := by
  have hdeclarations (u : SourceUnit) :
      (ProjectSymbol.ofUnit u).map (·.declaration) = u.declarations := by
    rw [ProjectSymbol.ofUnit, List.map_map]
    exact List.map_id _
  rw [partsOf, ← funext hdeclarations, ← List.map_flatMap, List.filter_map]
  rfl

/-- What a project has under a name is what the declarations of that name make. -/
theorem get?_ofUnits (h : ofUnits units = .ok symbols) (name : String) :
    symbols.table.get? name = ProjectSymbol.joined? none
      ((units.flatMap ProjectSymbol.ofUnit).filter (·.name == name)) :=
  ProjectSymbol.get?_addAll (addAll_of_ofUnits h) name

/-- It joins them. -/
theorem exists_joins (h : ofUnits units = .ok symbols) (hparts : partsOf units name ≠ []) :
    ∃ s, symbols.table.get? name = some s ∧ Joins (partsOf units name) s.declaration := by
  rw [partsOf_eq] at hparts ⊢
  rw [get?_ofUnits h]
  exact ProjectSymbol.exists_joined? fun hnil => hparts (by rw [hnil, List.map_nil])

/-- Partial declarations of one name and kind are not in conflict, and the declaration that they
make has everything of all of them, apart from base types that are lost. -/
theorem joins_parts {kind : DeclarationKind}
    (hdeclared : ∃ u ∈ units, ∃ d ∈ u.declarations, d.fullNameText = name)
    (hpartial : ∀ u ∈ units, ∀ d ∈ u.declarations, d.fullNameText = name →
      u.language = .csharp ∧ d.kind = kind ∧
        d.hasModifier Declaration.partialModifier = true) :
    (∀ e, ofUnits units = .error e →
      ∃ other first second, e = .duplicateName other first second ∧ other ≠ name) ∧
    ∀ symbols, ofUnits units = .ok symbols →
      ∃ s, symbols.table.get? name = some s ∧ Joins (partsOf units name) s.declaration ∧
        ((∀ t, t ∈ s.declaration.bases ↔ ∃ part ∈ partsOf units name, t ∈ part.bases) ↔
          KeepsBases (partsOf units name)) := by
  constructor
  · intro e h
    have hparts : ∀ s ∈ units.flatMap ProjectSymbol.ofUnit, s.name = name → s.IsPartial kind := by
      intro s hs hname
      obtain ⟨u, hu, hs⟩ := List.mem_flatMap.1 hs
      obtain ⟨d, hd, rfl⟩ := List.mem_map.1 hs
      obtain ⟨hlanguage, hkind, hmodifier⟩ := hpartial u hu d hd hname
      exact ⟨hlanguage, hkind, hmodifier⟩
    exact ProjectSymbol.conflict_ne (conflict_of_ofUnits h) (fun known h => by cases h) hparts
  · intro symbols h
    obtain ⟨u, hu, d, hd, hname⟩ := hdeclared
    have hmem : d ∈ partsOf units name :=
      List.mem_filter.2 ⟨List.mem_flatMap.2 ⟨u, hu, hd⟩, beq_iff_eq.2 hname⟩
    obtain ⟨s, hs, hjoins⟩ := exists_joins h (List.ne_nil_of_mem hmem)
    exact ⟨s, hs, hjoins, hjoins.mem_bases_iff⟩

/-- Three parts, two of which extend the same class. -/
theorem joins_parts_thrice :
    let units := Project.unitsOf [
      (.csharp, "using X; namespace N { class Base {} public partial class A : Base, IOne { int x; } }"),
      (.csharp, "namespace N { sealed partial class A : ITwo { void f(); } }"),
      (.csharp, "using X; namespace N { /* c */ [B] partial class A : Base, IOne { int y; } }")]
    ((∃ u ∈ units, ∃ d ∈ u.declarations, d.fullNameText = "N.A") ∧
      ∀ u ∈ units, ∀ d ∈ u.declarations, d.fullNameText = "N.A" →
        u.language = .csharp ∧ d.kind = .classLike ∧
          d.hasModifier Declaration.partialModifier = true) ∧
    (partsOf units "N.A").length = 3 ∧
    ∃ symbols s, ofUnits units = .ok symbols ∧ symbols.table.get? "N.A" = some s ∧
      Joins (partsOf units "N.A") s.declaration ∧
      ∀ t, t ∈ s.declaration.bases ↔ ∃ part ∈ partsOf units "N.A", t ∈ part.bases := by
  intro units
  -- the files are read once for all of this
  have hread : ((∃ u ∈ units, ∃ d ∈ u.declarations, d.fullNameText = "N.A") ∧
      ∀ u ∈ units, ∀ d ∈ u.declarations, d.fullNameText = "N.A" →
        u.language = .csharp ∧ d.kind = .classLike ∧
          d.hasModifier Declaration.partialModifier = true) ∧
      (partsOf units "N.A").length = 3 ∧ KeepsBases (partsOf units "N.A") ∧
      (ofUnits units).isOk = true := by
    unfold KeepsBases
    decide +kernel
  obtain ⟨⟨hdeclared, hpartial⟩, hlength, hkeeps, hok⟩ := hread
  obtain ⟨-, hjoins⟩ := joins_parts hdeclared hpartial
  cases hunits : ofUnits units with
  | error e =>
      rw [hunits] at hok
      cases hok
  | ok symbols =>
      obtain ⟨s, hs, hparts, hbases⟩ := hjoins symbols hunits
      exact ⟨⟨hdeclared, hpartial⟩, hlength, symbols, s, rfl, hs, hparts, hbases.2 hkeeps⟩

/-- A part extends an interface, which is lost since another part extends a class. -/
theorem not_mem_bases :
    let units := Project.unitsOf [
      (.csharp, "namespace N { class Base {} interface Comparable {} }"),
      (.csharp, "namespace N { partial class A : Base {} }"),
      (.csharp, "namespace N { partial class A : Comparable {} }")]
    (∀ u ∈ units, ∀ d ∈ u.declarations, d.fullNameText = "N.A" →
      u.language = .csharp ∧ d.kind = .classLike ∧
        d.hasModifier Declaration.partialModifier = true) ∧
    ∃ symbols s, ofUnits units = .ok symbols ∧ symbols.table.get? "N.A" = some s ∧
      (∃ part ∈ partsOf units "N.A", .simple "Comparable" ∈ part.bases) ∧
      .simple "Comparable" ∉ s.declaration.bases := by
  intro units
  have hread : (∀ u ∈ units, ∀ d ∈ u.declarations, d.fullNameText = "N.A" →
      u.language = .csharp ∧ d.kind = .classLike ∧
        d.hasModifier Declaration.partialModifier = true) ∧
      (∃ part ∈ partsOf units "N.A", .simple "Comparable" ∈ part.bases) ∧
      (ofUnits units).toOption.any (fun symbols => (symbols.table.get? "N.A").any fun s =>
        !s.declaration.bases.contains (.simple "Comparable")) = true := by decide +kernel
  obtain ⟨hpartial, hpart, hlost⟩ := hread
  cases hunits : ofUnits units with
  | error e =>
      rw [hunits] at hlost
      simp [Except.toOption] at hlost
  | ok symbols =>
      rw [hunits] at hlost
      simp only [Except.toOption, Option.any_some] at hlost
      obtain ⟨s, hs, hbases⟩ := (Option.any_eq_true _ _).1 hlost
      refine ⟨hpartial, symbols, s, rfl, hs, hpart, fun hmem => ?_⟩
      rw [List.contains_iff_mem.2 hmem] at hbases
      cases hbases

end Symbols

end Outline
