import Outline.Project.Symbols

/-!
# The declared names of a project

The declarations of all files are gathered in one map, in which the parts of a partial declaration
become one.

* `NameMap.get?_eq_some_iff`, `NameMap.mem_insert_iff` — looking entries up and adding them.
* `ProjectSymbol.cases_of_addTo`, `ProjectSymbol.exists_conflict` — what adding a declaration can do.
* `ProjectSymbol.Gathered` — how the map and the declarations that it gathers hang together.
* `Symbols.gathered_ofUnits` — the map of a project gathers the declarations of its files.
-/

namespace Outline

namespace NameMap

variable {α β : Type} {m : NameMap α} {key : String} {value : α}

/-! ## Entries -/

theorem get?_eq_some_iff : m.get? key = some value ↔ (key, value) ∈ m.entries := by
  rw [get?, List.lookup_eq_some_iff]
  constructor
  · rintro ⟨front, back, hentries, -⟩
    rw [hentries]
    simp
  · intro hmem
    obtain ⟨front, back, hentries⟩ := List.append_of_mem hmem
    refine ⟨front, back, hentries, fun e he => ?_⟩
    have hascending := m.ascending
    rw [hentries, List.pairwise_append] at hascending
    have hlt : e.1 < key := hascending.2.2 e he _ List.mem_cons_self
    simpa using fun h : key = e.1 => String.lt_irrefl key (h ▸ hlt)

theorem get?_eq_none_iff : m.get? key = none ↔ ∀ e ∈ m.entries, e.1 ≠ key := by
  rw [get?, List.lookup_eq_none_iff]
  exact forall₂_congr fun e _ => by simpa using ne_comm

theorem contains_iff : m.contains key = true ↔ ∃ e ∈ m.entries, e.1 = key := by
  rw [contains, Option.isSome_iff_exists]
  constructor
  · rintro ⟨value, h⟩
    exact ⟨_, get?_eq_some_iff.1 h, rfl⟩
  · rintro ⟨⟨k, value⟩, he, rfl⟩
    exact ⟨value, get?_eq_some_iff.2 he⟩

theorem eq_of_mem {other : α} (h : (key, value) ∈ m.entries) (h' : (key, other) ∈ m.entries) :
    value = other :=
  Option.some.inj ((get?_eq_some_iff.2 h).symm.trans (get?_eq_some_iff.2 h'))

theorem mem_insertEntry_self (key : String) (value : α) (es : List (String × α)) :
    (key, value) ∈ insertEntry key value es := by
  induction es with
  | nil => simp [insertEntry]
  | cons e es ih =>
      unfold insertEntry
      split
      · simp
      · split
        · simp
        · exact List.mem_cons_of_mem _ ih

theorem mem_insertEntry_of_ne {es : List (String × α)} {e : String × α} (he : e ∈ es)
    (hne : e.1 ≠ key) : e ∈ insertEntry key value es := by
  induction es with
  | nil => simp at he
  | cons x es ih =>
      unfold insertEntry
      split
      · exact List.mem_cons_of_mem _ he
      · split
        · next heq =>
          rcases List.mem_cons.1 he with rfl | he
          · exact absurd (eq_of_beq heq).symm hne
          · exact List.mem_cons_of_mem _ he
        · rcases List.mem_cons.1 he with rfl | he
          · exact List.mem_cons_self
          · exact List.mem_cons_of_mem _ (ih he)

/-- The entries after one is added. -/
theorem mem_insert_iff {e : String × α} :
    e ∈ (m.insert key value).entries ↔ e = (key, value) ∨ e ∈ m.entries ∧ e.1 ≠ key := by
  have hself : (key, value) ∈ (m.insert key value).entries := mem_insertEntry_self key value _
  constructor
  · intro he
    by_cases hkey : e.1 = key
    · obtain ⟨k, v⟩ := e
      obtain rfl : k = key := hkey
      exact Or.inl (by rw [eq_of_mem he hself])
    · rcases mem_insertEntry he with rfl | he
      · exact absurd rfl hkey
      · exact Or.inr ⟨he, hkey⟩
  · rintro (rfl | ⟨he, hne⟩)
    · exact hself
    · exact mem_insertEntry_of_ne he hne

theorem contains_insert_iff {other : String} :
    (m.insert key value).contains other = true ↔ other = key ∨ m.contains other = true := by
  rw [contains_iff, contains_iff]
  constructor
  · rintro ⟨e, he, rfl⟩
    rcases mem_insert_iff.1 he with rfl | ⟨he, -⟩
    · exact Or.inl rfl
    · exact Or.inr ⟨e, he, rfl⟩
  · rintro (rfl | ⟨e, he, rfl⟩)
    · exact ⟨_, mem_insert_iff.2 (Or.inl rfl), rfl⟩
    · by_cases hkey : e.1 = key
      · exact ⟨_, mem_insert_iff.2 (Or.inl rfl), hkey.symm⟩
      · exact ⟨e, mem_insert_iff.2 (Or.inr ⟨he, hkey⟩), rfl⟩

@[simp] theorem entries_map (f : α → β) :
    (m.map f).entries = m.entries.map fun e => (e.1, f e.2) := rfl

theorem mem_map_iff {f : α → β} {e : String × β} :
    e ∈ (m.map f).entries ↔ ∃ v, (e.1, v) ∈ m.entries ∧ f v = e.2 := by
  rw [entries_map, List.mem_map]
  constructor
  · rintro ⟨x, hx, rfl⟩
    exact ⟨x.2, hx, rfl⟩
  · rintro ⟨v, hv, hf⟩
    exact ⟨_, hv, by rw [hf]⟩

@[simp] theorem get?_map (f : α → β) : (m.map f).get? key = (m.get? key).map f := by
  cases h : m.get? key with
  | none =>
      rw [get?_eq_none_iff] at h
      rw [Option.map_none, get?_eq_none_iff]
      intro e he
      obtain ⟨v, hv, -⟩ := mem_map_iff.1 he
      exact h _ hv
  | some v =>
      rw [Option.map_some, get?_eq_some_iff, mem_map_iff]
      exact ⟨v, get?_eq_some_iff.1 h, rfl⟩

@[simp] theorem contains_map (f : α → β) : (m.map f).contains key = m.contains key := by
  simp [contains]

end NameMap

namespace NameSet

theorem contains_foldl_insert_iff {names : List String} {name : String} {m : NameSet} :
    ((names.map fun n => (n, ())).foldl (fun m e => m.insert e.1 e.2) m).contains name = true ↔
      m.contains name = true ∨ name ∈ names := by
  induction names generalizing m with
  | nil => simp
  | cons n names ih =>
      rw [List.map_cons, List.foldl_cons, ih, NameMap.contains_insert_iff, List.mem_cons,
        or_assoc, or_left_comm]

/-- A set made of names contains these and no others. -/
theorem contains_ofNames_iff {names : List String} {name : String} :
    (ofNames names).contains name = true ↔ name ∈ names := by
  rw [ofNames, NameMap.ofList, contains_foldl_insert_iff]
  simp [NameMap.empty, NameMap.contains, NameMap.get?]

end NameSet

/-! ## Partial declarations -/

theorem mem_appendNew_iff {α : Type} [BEq α] [LawfulBEq α] {xs ys : List α} {x : α} :
    x ∈ appendNew xs ys ↔ x ∈ xs ∨ x ∈ ys := by
  induction ys generalizing xs with
  | nil => simp [appendNew]
  | cons y ys ih =>
      have hstep : appendNew xs (y :: ys) =
          appendNew (if xs.contains y then xs else xs ++ [y]) ys := rfl
      rw [hstep, ih, List.mem_cons, ← or_assoc]
      refine or_congr_left ?_
      by_cases hy : y ∈ xs
      · rw [if_pos (List.contains_iff_mem.2 hy)]
        refine ⟨Or.inl, ?_⟩
        rintro (hx | rfl)
        · exact hx
        · exact hy
      · rw [if_neg (fun h => hy (List.contains_iff_mem.1 h))]
        simp

namespace ProjectSymbol

/-! ## Adding a declaration -/

section

variable {table table' : NameMap ProjectSymbol} {s known : ProjectSymbol} {e : ResolveError}

theorem addTo_new (h : table.get? s.name = none) : addTo table s = .ok (table.insert s.name s) := by
  rw [addTo, h]

theorem addTo_known (h : table.get? s.name = some known) :
    addTo table s = if known.isPartOf s then .ok (table.insert s.name (known.merge s))
      else .error (.duplicateName s.name known.origin s.origin) := by
  rw [addTo, h]

/-- A declaration that is added has a new name or is a further part of what is known under its
name. -/
theorem cases_of_addTo (h : addTo table s = .ok table') :
    (table.get? s.name = none ∧ table' = table.insert s.name s) ∨
      ∃ known, table.get? s.name = some known ∧ known.isPartOf s = true ∧
        table' = table.insert s.name (known.merge s) := by
  cases hold : table.get? s.name with
  | none =>
      rw [addTo_new hold] at h
      cases h
      exact .inl ⟨rfl, rfl⟩
  | some known =>
      rw [addTo_known hold] at h
      split at h
      · next hpart =>
        cases h
        exact .inr ⟨known, rfl, hpart, rfl⟩
      · cases h

/-- A declaration that is not added is no part of what is known under its name. -/
theorem exists_conflict (h : addTo table s = .error e) :
    ∃ known, table.get? s.name = some known ∧ known.isPartOf s = false ∧
      e = .duplicateName s.name known.origin s.origin := by
  cases hold : table.get? s.name with
  | none =>
      rw [addTo_new hold] at h
      cases h
  | some known =>
      rw [addTo_known hold] at h
      split at h
      · cases h
      · next hpart =>
        cases h
        exact ⟨known, rfl, Bool.eq_false_iff.2 hpart, rfl⟩

/-- Declarations are added one by one. -/
theorem exists_of_addAll_cons {parts : List ProjectSymbol}
    (h : (s :: parts).foldlM addTo table = .ok table') :
    ∃ next, addTo table s = .ok next ∧ parts.foldlM addTo next = .ok table' := by
  rw [List.foldlM_cons] at h
  cases hstep : addTo table s with
  | error e =>
      rw [hstep] at h
      cases h
  | ok next =>
      rw [hstep] at h
      exact ⟨next, rfl, h⟩

end

/-- How a map and the declarations that it gathers hang together. -/
structure Gathered (parts : List ProjectSymbol) (table : NameMap ProjectSymbol) : Prop where
  /-- The keys are the names. -/
  named : ∀ e ∈ table.entries, e.1 = e.2.name
  /-- There is a declaration for each key. -/
  declared : ∀ e ∈ table.entries, ∃ s ∈ parts, s.name = e.1
  /-- Each declaration is found under its name. -/
  found : ∀ s ∈ parts, ∃ e ∈ table.entries, e.1 = s.name
  /-- Declarations of one name are written in one language. -/
  language : ∀ s ∈ parts, ∀ e ∈ table.entries, e.1 = s.name → e.2.language = s.language
  /-- Each import is that of some part. -/
  imports : ∀ e ∈ table.entries, ∀ i ∈ e.2.declaration.imports,
    ∃ s ∈ parts, s.name = e.1 ∧ i ∈ s.declaration.imports

variable {parts : List ProjectSymbol} {table table' : NameMap ProjectSymbol}
  {s known : ProjectSymbol}

theorem gathered_empty : Gathered [] NameMap.empty := by
  constructor <;> simp [NameMap.empty]

/-- A declaration of a new name is added. -/
theorem Gathered.insert_new (h : Gathered parts table) (hnew : table.get? s.name = none) :
    Gathered (parts ++ [s]) (table.insert s.name s) := by
  have hfresh := NameMap.get?_eq_none_iff.1 hnew
  constructor
  · intro e he
    rcases NameMap.mem_insert_iff.1 he with rfl | ⟨he, -⟩
    · rfl
    · exact h.named e he
  · intro e he
    rcases NameMap.mem_insert_iff.1 he with rfl | ⟨he, -⟩
    · exact ⟨s, by simp, rfl⟩
    · obtain ⟨x, hx, hname⟩ := h.declared e he
      exact ⟨x, List.mem_append_left _ hx, hname⟩
  · intro x hx
    rcases List.mem_append.1 hx with hx | hx
    · obtain ⟨e, he, hname⟩ := h.found x hx
      exact ⟨e, NameMap.mem_insert_iff.2 (Or.inr ⟨he, hfresh e he⟩), hname⟩
    · obtain rfl := List.mem_singleton.1 hx
      exact ⟨_, NameMap.mem_insert_iff.2 (Or.inl rfl), rfl⟩
  · intro x hx e he hname
    rcases NameMap.mem_insert_iff.1 he with rfl | ⟨he, hne⟩
    · rcases List.mem_append.1 hx with hx | hx
      · obtain ⟨e, he, hx'⟩ := h.found x hx
        exact absurd (hx'.trans hname.symm) (hfresh e he)
      · rw [List.mem_singleton.1 hx]
    · rcases List.mem_append.1 hx with hx | hx
      · exact h.language x hx e he hname
      · exact absurd (hname.trans (by rw [List.mem_singleton.1 hx])) hne
  · intro e he i hi
    rcases NameMap.mem_insert_iff.1 he with rfl | ⟨he, -⟩
    · exact ⟨s, by simp, rfl, hi⟩
    · obtain ⟨x, hx, hname, hi⟩ := h.imports e he i hi
      exact ⟨x, List.mem_append_left _ hx, hname, hi⟩

/-- A further part of a declaration is added. -/
theorem Gathered.insert_part (h : Gathered parts table) (hknown : table.get? s.name = some known)
    (hpart : known.isPartOf s = true) :
    Gathered (parts ++ [s]) (table.insert s.name (known.merge s)) := by
  have hmem := NameMap.get?_eq_some_iff.1 hknown
  have hlanguage : known.language = s.language := by
    simp only [isPartOf, Bool.and_eq_true, beq_iff_eq] at hpart
    rw [hpart.1.1.1.1, hpart.1.1.1.2]
  constructor
  · intro e he
    rcases NameMap.mem_insert_iff.1 he with rfl | ⟨he, -⟩
    · have hname : s.name = known.name := h.named _ hmem
      exact hname
    · exact h.named e he
  · intro e he
    rcases NameMap.mem_insert_iff.1 he with rfl | ⟨he, -⟩
    · exact ⟨s, by simp, rfl⟩
    · obtain ⟨x, hx, hname⟩ := h.declared e he
      exact ⟨x, List.mem_append_left _ hx, hname⟩
  · intro x hx
    by_cases hname : x.name = s.name
    · exact ⟨_, NameMap.mem_insert_iff.2 (Or.inl rfl), hname.symm⟩
    · rcases List.mem_append.1 hx with hx | hx
      · obtain ⟨e, he, hx'⟩ := h.found x hx
        exact ⟨e, NameMap.mem_insert_iff.2 (Or.inr ⟨he, hx' ▸ hname⟩), hx'⟩
      · exact absurd (by rw [List.mem_singleton.1 hx]) hname
  · intro x hx e he hname
    rcases NameMap.mem_insert_iff.1 he with rfl | ⟨he, hne⟩
    · rcases List.mem_append.1 hx with hx | hx
      · have hx : known.language = x.language := h.language x hx _ hmem hname
        exact hx
      · rw [List.mem_singleton.1 hx]
        exact hlanguage
    · rcases List.mem_append.1 hx with hx | hx
      · exact h.language x hx e he hname
      · exact absurd (hname.trans (by rw [List.mem_singleton.1 hx])) hne
  · intro e he i hi
    rcases NameMap.mem_insert_iff.1 he with rfl | ⟨he, -⟩
    · rcases mem_appendNew_iff.1 hi with hi | hi
      · obtain ⟨x, hx, hname, hi⟩ := h.imports _ hmem i hi
        exact ⟨x, List.mem_append_left _ hx, hname, hi⟩
      · exact ⟨s, by simp, rfl, hi⟩
    · obtain ⟨x, hx, hname, hi⟩ := h.imports e he i hi
      exact ⟨x, List.mem_append_left _ hx, hname, hi⟩

theorem Gathered.addTo (h : Gathered parts table) (hadd : s.addTo table = .ok table') :
    Gathered (parts ++ [s]) table' := by
  rcases cases_of_addTo hadd with ⟨hnew, rfl⟩ | ⟨known, hknown, hpart, rfl⟩
  · exact h.insert_new hnew
  · exact h.insert_part hknown hpart

theorem Gathered.addAll {more : List ProjectSymbol} (h : Gathered parts table)
    (hadd : more.foldlM ProjectSymbol.addTo table = .ok table') :
    Gathered (parts ++ more) table' := by
  induction more generalizing parts table with
  | nil =>
      cases hadd
      simpa using h
  | cons s more ih =>
      obtain ⟨next, hstep, hrest⟩ := exists_of_addAll_cons hadd
      have hall := ih (h.addTo hstep) hrest
      rwa [List.append_assoc, List.singleton_append] at hall

end ProjectSymbol

namespace Symbols

variable {units : List SourceUnit} {symbols : Symbols}

/-- The map of a project is made of the declarations of its files. -/
theorem addAll_of_ofUnits (h : ofUnits units = .ok symbols) :
    (units.flatMap ProjectSymbol.ofUnit).foldlM ProjectSymbol.addTo .empty = .ok symbols.table := by
  unfold ofUnits at h
  cases htable : (units.flatMap ProjectSymbol.ofUnit).foldlM ProjectSymbol.addTo .empty with
  | error e =>
      rw [htable] at h
      cases h
  | ok table =>
      rw [htable] at h
      cases h
      rfl

/-- If there is none, the declarations are in conflict. -/
theorem conflict_of_ofUnits {e : ResolveError} (h : ofUnits units = .error e) :
    (units.flatMap ProjectSymbol.ofUnit).foldlM ProjectSymbol.addTo .empty = .error e := by
  unfold ofUnits at h
  cases htable : (units.flatMap ProjectSymbol.ofUnit).foldlM ProjectSymbol.addTo .empty with
  | error e' =>
      rw [htable] at h
      cases h
      rfl
  | ok table =>
      rw [htable] at h
      cases h

/-- The map of a project gathers the declarations of its files. -/
theorem gathered_ofUnits (h : ofUnits units = .ok symbols) :
    ProjectSymbol.Gathered (units.flatMap ProjectSymbol.ofUnit) symbols.table :=
  ProjectSymbol.gathered_empty.addAll (addAll_of_ofUnits h)

end Symbols

end Outline
