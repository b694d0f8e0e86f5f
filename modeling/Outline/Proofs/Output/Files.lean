import Mathlib.Data.List.Pairwise
import Outline.Proofs.FileTree.Paths
import Outline.Proofs.FileTree.Writing
import Outline.Proofs.Project.Meaning
import Outline.Run.Standard

/-!
# What the written files hold

Destinations are gathered by their paths, and only then is the path of the file worked out, which
has an extension if the destination has none.  What a document looks like in a file is left to the
printer.

* `OutputFile.grouped_groups` — the groups are the paths of the destinations, each once, with all
  destinations of the path.
* `OutputFile.HoldsAll` — every file holds what goes to it.
* `OutputFile.holdsAll_iff_of_writeAll` — this is so after a run exactly if no two paths of
  destinations become the same file.
-/

namespace Outline

open OutputFile

/-- A destination takes everything below its namespaces. -/
theorem Destination.selects_iff {d : Destination} {fullName : List String} :
    d.selects fullName = true ↔ d.namespaces = [] ∨ ∃ n ∈ d.namespaces, n <+: fullName := by
  simp [selects]

namespace OutputFile

variable {d : Destination} {ds : List Destination} {groups : List (Path × List Destination)}

/-! ## Groups -/

/-- A destination starts a group at its place or comes last in the group with its path. -/
theorem addToGroups_cases (d : Destination) (groups : List (Path × List Destination))
    (h : groups.Pairwise fun g k => g.1.compare k.1 = .lt) :
    (∃ front back, groups = front ++ back ∧
      addToGroups d groups = front ++ (d.path, [d]) :: back ∧
      (∀ g ∈ front, g.1.compare d.path = .lt) ∧ ∀ g ∈ back, d.path.compare g.1 = .lt) ∨
    ∃ front path group back, groups = front ++ (path, group) :: back ∧
      addToGroups d groups = front ++ (path, group ++ [d]) :: back ∧
      d.path.same path = true := by
  induction groups with
  | nil => exact .inl ⟨[], [], rfl, rfl, by simp, by simp⟩
  | cons g groups ih =>
      obtain ⟨path, group⟩ := g
      rw [List.pairwise_cons] at h
      cases horder : d.path.compare path with
      | lt =>
          refine .inl ⟨[], (path, group) :: groups, rfl, by simp [addToGroups, horder], by simp, ?_⟩
          intro k hk
          cases List.mem_cons.1 hk with
          | inl hfirst => rw [hfirst, horder]
          | inr hrest => exact Std.TransCmp.lt_trans horder (h.1 k hrest)
      | eq =>
          exact .inr ⟨[], path, group, groups, rfl, by simp [addToGroups, horder],
            Path.compare_eq_eq.1 horder⟩
      | gt =>
          have hbefore : path.compare d.path = .lt := Std.OrientedCmp.gt_iff_lt.1 horder
          have hadd : addToGroups d ((path, group) :: groups) =
              (path, group) :: addToGroups d groups := by
            simp [addToGroups, horder]
          rw [hadd]
          rcases ih h.2 with ⟨front, back, hgroups, hadded, hfront, hback⟩ |
            ⟨front, path', group', back, hgroups, hadded, hsame⟩
          · refine .inl ⟨(path, group) :: front, back, by rw [hgroups]; rfl, by rw [hadded]; rfl,
              ?_, hback⟩
            intro k hk
            cases List.mem_cons.1 hk with
            | inl hfirst => rw [hfirst, hbefore]
            | inr hrest => exact hfront k hrest
          · exact .inr ⟨(path, group) :: front, path', group', back, by rw [hgroups]; rfl,
              by rw [hadded]; rfl, hsame⟩

/-- The groups of a list of destinations. -/
structure Grouped (groups : List (Path × List Destination)) (ds : List Destination) : Prop where
  /-- The groups are in the order of their paths. -/
  sorted : groups.Pairwise fun g k => g.1.compare k.1 = .lt
  /-- A group holds the destinations with its path. -/
  members : ∀ g ∈ groups, ∀ d, d ∈ g.2 ↔ d ∈ ds ∧ d.path.same g.1 = true
  /-- A group has the path of a destination. -/
  named : ∀ g ∈ groups, ∃ d ∈ ds, d.path = g.1
  /-- Every destination has a group. -/
  covered : ∀ d ∈ ds, ∃ g ∈ groups, d.path.same g.1 = true

theorem not_same_of_lt {p q : Path} (h : p.compare q = .lt) : p.same q ≠ true := by
  intro hsame
  rw [Path.compare_eq_eq.2 hsame] at h
  cases h

/-- A group with another path does not change. -/
theorem Grouped.members_concat (h : Grouped groups ds) {g : Path × List Destination}
    (hg : g ∈ groups) (hne : d.path.same g.1 ≠ true) (e : Destination) :
    e ∈ g.2 ↔ e ∈ ds ++ [d] ∧ e.path.same g.1 = true := by
  rw [h.members g hg e, List.mem_append, List.mem_singleton]
  constructor
  · exact fun ⟨he, hsame⟩ => ⟨.inl he, hsame⟩
  · rintro ⟨he | rfl, hsame⟩
    · exact ⟨he, hsame⟩
    · exact absurd hsame hne

/-- A destination with a new path starts a group. -/
theorem Grouped.insert {front back : List (Path × List Destination)}
    (h : Grouped (front ++ back) ds) (hfront : ∀ g ∈ front, g.1.compare d.path = .lt)
    (hback : ∀ g ∈ back, d.path.compare g.1 = .lt) :
    Grouped (front ++ (d.path, [d]) :: back) (ds ++ [d]) := by
  have hne : ∀ g ∈ front ++ back, d.path.same g.1 ≠ true := by
    intro g hg hsame
    cases List.mem_append.1 hg with
    | inl hg => exact not_same_of_lt (hfront g hg) (Path.same_symm hsame)
    | inr hg => exact not_same_of_lt (hback g hg) hsame
  have hmem {g : Path × List Destination} :
      g ∈ front ++ (d.path, [d]) :: back ↔ g = (d.path, [d]) ∨ g ∈ front ++ back :=
    List.perm_middle.mem_iff.trans List.mem_cons
  refine ⟨?_, fun g hg => ?_, fun g hg => ?_, fun e he => ?_⟩
  · have hsorted := h.sorted
    rw [List.pairwise_append] at hsorted ⊢
    refine ⟨hsorted.1, List.pairwise_cons.2 ⟨hback, hsorted.2.1⟩, fun g hg k hk => ?_⟩
    cases List.mem_cons.1 hk with
    | inl hnew =>
        rw [hnew]
        exact hfront g hg
    | inr hk => exact hsorted.2.2 g hg k hk
  · cases hmem.1 hg with
    | inr hold => exact h.members_concat hold (hne g hold)
    | inl hnew =>
        subst hnew
        intro e
        rw [List.mem_singleton, List.mem_append, List.mem_singleton]
        constructor
        · rintro rfl
          exact ⟨.inr rfl, Path.same_refl _⟩
        · rintro ⟨he | he, hsame⟩
          · -- a destination with this path would have had a group
            obtain ⟨k, hk, hcovered⟩ := h.covered e he
            exact absurd (Path.same_trans (Path.same_symm hsame) hcovered) (hne k hk)
          · exact he
  · cases hmem.1 hg with
    | inr hold =>
        obtain ⟨e, he, hpath⟩ := h.named g hold
        exact ⟨e, List.mem_append_left _ he, hpath⟩
    | inl hnew => exact ⟨d, by simp, by rw [hnew]⟩
  · cases List.mem_append.1 he with
    | inl hold =>
        obtain ⟨g, hg, hsame⟩ := h.covered e hold
        exact ⟨g, hmem.2 (.inr hg), hsame⟩
    | inr hnew =>
        rw [List.mem_singleton.1 hnew]
        exact ⟨_, hmem.2 (.inl rfl), Path.same_refl _⟩

/-- A destination joins the group with its path. -/
theorem Grouped.join {front back : List (Path × List Destination)} {path : Path}
    {group : List Destination} (h : Grouped (front ++ (path, group) :: back) ds)
    (hsame : d.path.same path = true) :
    Grouped (front ++ (path, group ++ [d]) :: back) (ds ++ [d]) := by
  have hsorted := h.sorted
  rw [List.pairwise_append, List.pairwise_cons] at hsorted
  obtain ⟨-, ⟨hbehind, -⟩, hbefore⟩ := hsorted
  have hne : ∀ g ∈ front ++ back, d.path.same g.1 ≠ true := by
    intro g hg hother
    have hpath := Path.same_trans (Path.same_symm hsame) hother
    cases List.mem_append.1 hg with
    | inl hg =>
        exact not_same_of_lt (hbefore g hg _ List.mem_cons_self) (Path.same_symm hpath)
    | inr hg => exact not_same_of_lt (hbehind g hg) hpath
  have hmem (members : List Destination) {g : Path × List Destination} :
      g ∈ front ++ (path, members) :: back ↔ g = (path, members) ∨ g ∈ front ++ back :=
    List.perm_middle.mem_iff.trans List.mem_cons
  refine ⟨?_, fun g hg => ?_, fun g hg => ?_, fun e he => ?_⟩
  · -- the order is that of the paths, which stay
    have hpaths : (front ++ (path, group ++ [d]) :: back).map Prod.fst =
        (front ++ (path, group) :: back).map Prod.fst := by simp
    have hsorted : ((front ++ (path, group) :: back).map Prod.fst).Pairwise
        fun p q => p.compare q = .lt := List.pairwise_map.2 h.sorted
    rw [← hpaths] at hsorted
    exact List.pairwise_map.1 hsorted
  · cases (hmem _).1 hg with
    | inr hold => exact h.members_concat ((hmem group).2 (.inr hold)) (hne g hold)
    | inl hnew =>
        subst hnew
        intro e
        have hgroup := h.members (path, group) ((hmem group).2 (.inl rfl)) e
        simp only [List.mem_append, List.mem_singleton] at hgroup ⊢
        rw [hgroup]
        constructor
        · rintro (⟨he, hpath⟩ | rfl)
          · exact ⟨.inl he, hpath⟩
          · exact ⟨.inr rfl, hsame⟩
        · rintro ⟨he | he, hpath⟩
          · exact .inl ⟨he, hpath⟩
          · exact .inr he
  · cases (hmem _).1 hg with
    | inr hold =>
        obtain ⟨e, he, hpath⟩ := h.named g ((hmem group).2 (.inr hold))
        exact ⟨e, List.mem_append_left _ he, hpath⟩
    | inl hnew =>
        obtain ⟨e, he, hpath⟩ := h.named (path, group) ((hmem group).2 (.inl rfl))
        exact ⟨e, List.mem_append_left _ he, by rw [hpath, hnew]⟩
  · cases List.mem_append.1 he with
    | inl hold =>
        obtain ⟨g, hg, hpath⟩ := h.covered e hold
        cases (hmem group).1 hg with
        | inr hg => exact ⟨g, (hmem _).2 (.inr hg), hpath⟩
        | inl hg =>
            rw [hg] at hpath
            exact ⟨_, (hmem _).2 (.inl rfl), hpath⟩
    | inr hnew =>
        rw [List.mem_singleton.1 hnew]
        exact ⟨_, (hmem _).2 (.inl rfl), hsame⟩

/-- One more destination. -/
theorem Grouped.addToGroups (h : Grouped groups ds) (d : Destination) :
    Grouped (addToGroups d groups) (ds ++ [d]) := by
  rcases addToGroups_cases d groups h.sorted with
    ⟨front, back, rfl, hadded, hfront, hback⟩ |
    ⟨front, path, group, back, rfl, hadded, hsame⟩
  · rw [hadded]
    exact h.insert hfront hback
  · rw [hadded]
    exact h.join hsame

theorem grouped_nil : Grouped [] [] := ⟨.nil, by simp, by simp, by simp⟩

/-- Any number of further destinations. -/
theorem Grouped.addAll (h : Grouped groups ds) (more : List Destination) :
    Grouped (more.foldl (fun groups d => OutputFile.addToGroups d groups) groups)
      (ds ++ more) := by
  induction more generalizing groups ds with
  | nil => simpa using h
  | cons d more ih =>
      have hall := ih (h.addToGroups d)
      rwa [List.append_assoc, List.singleton_append] at hall

/-- The groups are the paths of the destinations, with all destinations of each path. -/
theorem grouped_groups (ds : List Destination) : Grouped (OutputFile.groups ds) ds :=
  grouped_nil.addAll ds

/-! ## Targets -/

/-- The same path is written to the same file. -/
theorem target_same {p q : Path} (h : p.same q = true) (format : OutputFormat) :
    (target p format).same (target q format) = true := by
  have hextension : format.extension ≠ "" ∧ '/' ∉ format.extension.toList := by
    cases format <;> decide
  unfold target
  rw [Path.extension?_congr h]
  split
  · exact h
  · exact Path.same_addExtension h hextension.1 hextension.2

/-! ## What the files hold -/

/-- Every file holds what goes to it: each target of a destination is written once, and nothing
else is, and each file has exactly the declarations that a destination with this target takes. -/
structure HoldsAll (project : Project) (printer : Printer) (style : OutputStyle)
    (ds : List Destination) (t : FileTree) (written : List WrittenFile) : Prop where
  /-- No file is reported twice. -/
  distinct : written.Pairwise fun v w => v.path.same w.path = false
  /-- Every reported file is the target of a destination. -/
  targeted : ∀ w ∈ written, ∃ d ∈ ds, (target d.path style.format).same w.path = true
  /-- Every target of a destination is reported. -/
  covered : ∀ d ∈ ds, ∃ w ∈ written, (target d.path style.format).same w.path = true
  /-- What stands in the file. -/
  content : ∀ w ∈ written, ∃ declarations : NameMap (Declaration ResolvedRef),
    (∀ entry, entry ∈ declarations.entries ↔ entry ∈ project.declarations.entries ∧
      ∃ d ∈ ds, (target d.path style.format).same w.path = true ∧
        (d.namespaces = [] ∨ ∃ n ∈ d.namespaces, n <+: entry.2.fullName)) ∧
    w.count = declarations.size ∧
    ∃ text, style.print printer (document declarations) = .ok text ∧
      t.readText w.path = .ok text

variable {project : Project} {printer : Printer} {style : OutputStyle} {t t' : FileTree}
  {written : List WrittenFile}

/-- The declarations of a group. -/
theorem mem_select {entry : String × Declaration ResolvedRef} :
    entry ∈ (select project ds).entries ↔ entry ∈ project.declarations.entries ∧
      ∃ d ∈ ds, d.namespaces = [] ∨ ∃ n ∈ d.namespaces, n <+: entry.2.fullName := by
  rw [select, NameMap.filter, List.mem_filter, List.any_eq_true]
  simp only [Destination.selects_iff]

/-- The file of a group. -/
def ofGroup (project : Project) (format : OutputFormat) (g : Path × List Destination) :
    OutputFile :=
  ⟨target g.1 format, select project g.2⟩

theorem ofDestinations_eq (project : Project) (format : OutputFormat) (ds : List Destination) :
    ofDestinations project format ds = (OutputFile.groups ds).map (ofGroup project format) := rfl

/-- The reported files are those of the groups. -/
theorem written_ofDestinations
    (h : writeAll t printer style (ofDestinations project style.format ds) = (t', .ok written)) :
    written = (OutputFile.groups ds).map fun g =>
      ⟨target g.1 style.format, (select project g.2).size⟩ := by
  rw [written_writeAll h, ofDestinations_eq, List.map_map]
  rfl

theorem path_ofGroup (format : OutputFormat) (g : Path × List Destination) :
    (ofGroup project format g).path = target g.1 format := by
  rw [ofGroup]

theorem printed_ofGroup (g : Path × List Destination) :
    (ofGroup project style.format g).printed printer style =
      style.print printer (document (select project g.2)) := by
  rw [printed, ofGroup]

/-- The text in a file, unless a later path leads to the same place. -/
theorem readText_ofDestinations {front back : List (Path × List Destination)}
    {g : Path × List Destination}
    (h : writeAll t printer style (ofDestinations project style.format ds) = (t', .ok written))
    (hgroups : OutputFile.groups ds = front ++ g :: back)
    (hback : ∀ k ∈ back,
      t'.locate (target k.1 style.format) ≠ t'.locate (target g.1 style.format)) :
    ∃ text, style.print printer (document (select project g.2)) = .ok text ∧
      t'.readText (target g.1 style.format) = .ok text := by
  rw [ofDestinations_eq, hgroups, List.map_append, List.map_cons] at h
  have hlater : ∀ f ∈ back.map (ofGroup project style.format),
      t'.locate f.path ≠ t'.locate (ofGroup project style.format g).path := by
    intro f hf
    obtain ⟨k, hk, rfl⟩ := List.mem_map.1 hf
    rw [path_ofGroup, path_ofGroup]
    exact hback k hk
  obtain ⟨text, hprinted, htext⟩ := readText_writeAll h hlater
  rw [printed_ofGroup] at hprinted
  rw [path_ofGroup] at htext
  exact ⟨text, hprinted, htext⟩

/-- Where no two paths become the same file, the files of different groups are different. -/
theorem same_of_target (hmeet : ∀ d ∈ ds, ∀ e ∈ ds,
      (target d.path style.format).same (target e.path style.format) = true →
        d.path.same e.path = true)
    {g : Path × List Destination} (hg : g ∈ OutputFile.groups ds) {d : Destination}
    (hd : d ∈ ds) (h : (target d.path style.format).same (target g.1 style.format) = true) :
    d.path.same g.1 = true := by
  obtain ⟨e, he, hpath⟩ := (grouped_groups ds).named g hg
  rw [← hpath] at h ⊢
  exact hmeet d hd e he h

/-- There a group has another file than the groups behind it. -/
theorem not_same_target_of_lt (hmeet : ∀ d ∈ ds, ∀ e ∈ ds,
      (target d.path style.format).same (target e.path style.format) = true →
        d.path.same e.path = true)
    {g k : Path × List Destination} (hg : g ∈ OutputFile.groups ds)
    (hk : k ∈ OutputFile.groups ds) (hlt : g.1.compare k.1 = .lt) :
    (target g.1 style.format).same (target k.1 style.format) ≠ true := by
  intro hsame
  obtain ⟨d, hd, hpath⟩ := (grouped_groups ds).named g hg
  rw [← hpath] at hlt hsame
  exact not_same_of_lt hlt (same_of_target hmeet hk hd hsame)

/-- There every file holds what goes to it. -/
theorem holdsAll_of_apart
    (h : writeAll t printer style (ofDestinations project style.format ds) = (t', .ok written))
    (hplaces : ∀ v ∈ written, ∀ w ∈ written,
      t'.locate v.path = t'.locate w.path → v.path.same w.path = true)
    (hmeet : ∀ d ∈ ds, ∀ e ∈ ds,
      (target d.path style.format).same (target e.path style.format) = true →
        d.path.same e.path = true) :
    HoldsAll project printer style ds t' written := by
  have hgrouped := grouped_groups ds
  have hwritten := written_ofDestinations h
  have hfile (g : Path × List Destination) (hg : g ∈ OutputFile.groups ds) :
      (⟨target g.1 style.format, (select project g.2).size⟩ : WrittenFile) ∈ written := by
    rw [hwritten]
    exact List.mem_map_of_mem hg
  refine ⟨?_, fun w hw => ?_, fun d hd => ?_, fun w hw => ?_⟩
  · rw [hwritten, List.pairwise_map]
    refine hgrouped.sorted.imp_of_mem fun {g k} hg hk hlt => ?_
    rw [Bool.eq_false_iff]
    exact not_same_target_of_lt hmeet hg hk hlt
  · rw [hwritten] at hw
    obtain ⟨g, hg, rfl⟩ := List.mem_map.1 hw
    obtain ⟨d, hd, hpath⟩ := hgrouped.named g hg
    exact ⟨d, hd, by rw [hpath]; exact Path.same_refl _⟩
  · obtain ⟨g, hg, hsame⟩ := hgrouped.covered d hd
    exact ⟨_, hfile g hg, target_same hsame style.format⟩
  · rw [hwritten] at hw
    obtain ⟨g, hg, rfl⟩ := List.mem_map.1 hw
    refine ⟨select project g.2, fun entry => ?_, rfl, ?_⟩
    · rw [mem_select]
      refine and_congr_right fun _ => exists_congr fun d => ?_
      rw [hgrouped.members g hg d, and_assoc, and_congr_right_iff]
      intro hd
      exact and_congr_left fun _ =>
        ⟨fun hsame => target_same hsame style.format, same_of_target hmeet hg hd⟩
    · obtain ⟨front, back, hgroups⟩ := List.append_of_mem hg
      refine readText_ofDestinations h hgroups fun k hk hlocate => ?_
      have hk' : k ∈ OutputFile.groups ds := by
        rw [hgroups]
        exact List.mem_append_right _ (List.mem_cons_of_mem _ hk)
      have hsorted := hgrouped.sorted
      rw [hgroups, List.pairwise_append, List.pairwise_cons] at hsorted
      -- a later group with this place would have this file
      have hsame := hplaces _ (hfile g hg) _ (hfile k hk') hlocate.symm
      exact not_same_target_of_lt hmeet hg hk' (hsorted.2.1.1 k hk) hsame

/-- Where every file holds what goes to it, two groups with the same file are the same. -/
theorem HoldsAll.eq_of_target (hholds : HoldsAll project printer style ds t' written)
    (hwritten : written = (OutputFile.groups ds).map fun g =>
      ⟨target g.1 style.format, (select project g.2).size⟩)
    {g k : Path × List Destination} (hg : g ∈ OutputFile.groups ds)
    (hk : k ∈ OutputFile.groups ds)
    (hsame : (target g.1 style.format).same (target k.1 style.format) = true) : g = k := by
  have hdistinct := hholds.distinct
  rw [hwritten, List.pairwise_map] at hdistinct
  have hsymm : Std.Symm fun g k : Path × List Destination =>
      (target g.1 style.format).same (target k.1 style.format) = false := by
    refine ⟨fun g k hdiffer => ?_⟩
    rw [Bool.eq_false_iff] at hdiffer ⊢
    exact fun hsame => hdiffer (Path.same_symm hsame)
  by_contra hne
  have hdiffer := hdistinct.forall hg hk hne
  rw [hsame] at hdiffer
  cases hdiffer

/-- Where files have places of their own, every file holds what goes to it exactly if no two paths
of destinations become the same file. -/
theorem holdsAll_iff_of_writeAll
    (h : writeAll t printer style (ofDestinations project style.format ds) = (t', .ok written))
    (hplaces : ∀ v ∈ written, ∀ w ∈ written,
      t'.locate v.path = t'.locate w.path → v.path.same w.path = true) :
    HoldsAll project printer style ds t' written ↔ ∀ d ∈ ds, ∀ e ∈ ds,
      (target d.path style.format).same (target e.path style.format) = true →
        d.path.same e.path = true := by
  refine ⟨fun hholds d hd e he hmeet => ?_, holdsAll_of_apart h hplaces⟩
  obtain ⟨g, hg, hdg⟩ := (grouped_groups ds).covered d hd
  obtain ⟨k, hk, hek⟩ := (grouped_groups ds).covered e he
  -- the two groups have the same file
  have hsame := Path.same_trans (Path.same_symm (target_same hdg style.format))
    (Path.same_trans hmeet (target_same hek style.format))
  rw [← hholds.eq_of_target (written_ofDestinations h) hg hk hsame] at hek
  exact Path.same_trans hdg (Path.same_symm hek)

/-! ## Runs in an empty directory -/

/-- The printers of the program print every file. -/
theorem exists_printed (style : OutputStyle) (f : OutputFile) :
    ∃ text, f.printed .standard style = .ok text := by
  unfold printed OutputStyle.print
  split
  · split <;> exact ⟨_, rfl⟩
  · exact ⟨_, rfl⟩

/-- Plain targets can be written, each to a place of its own. -/
theorem exists_written_of_plain (project : Project) (style : OutputStyle)
    (h : ∀ g ∈ OutputFile.groups ds, ∃ s, (target g.1 style.format).Plain s) :
    ∃ t' written, writeAll {} .standard style (ofDestinations project style.format ds) =
        (t', .ok written) ∧
      ∀ v ∈ written, ∀ w ∈ written, t'.locate v.path = t'.locate w.path →
        v.path.same w.path = true := by
  have hfiles : ∀ f ∈ ofDestinations project style.format ds, ∃ s, f.path.Plain s := by
    intro f hf
    rw [ofDestinations_eq] at hf
    obtain ⟨g, hg, rfl⟩ := List.mem_map.1 hf
    rw [path_ofGroup]
    exact h g hg
  have hfree : ∀ f ∈ ofDestinations project style.format ds, ∃ s, f.path.Plain s ∧
      FileTree.entry? {} ([] ++ [s]) ≠ some .directory :=
    fun f hf => (hfiles f hf).imp fun s hs => ⟨hs, by simp [FileTree.entry?]⟩
  obtain ⟨t', hwritten⟩ := exists_writeAll_of_plain (fun f _ => exists_printed style f) hfree rfl
  have hgrows := grows_writeAll hwritten
  have hdirectory : t'.entry? t'.workingDirectory = some .directory := by
    rw [hgrows.workingDirectory]
    rfl
  refine ⟨t', _, hwritten, fun v hv w hw hlocate => ?_⟩
  obtain ⟨f, hf, rfl⟩ := List.mem_map.1 hv
  obtain ⟨g, hg, rfl⟩ := List.mem_map.1 hw
  obtain ⟨s, hs⟩ := hfiles f hf
  obtain ⟨r, hr⟩ := hfiles g hg
  exact FileTree.same_of_locate_plain hs hr hdirectory hlocate

theorem plain_api : (⟨"api.json"⟩ : Path).Plain "api.json" :=
  ⟨by decide, by decide +kernel, by decide +kernel, by decide +kernel, by decide +kernel⟩

theorem plain_all : (⟨"all.json"⟩ : Path).Plain "all.json" :=
  ⟨by decide, by decide +kernel, by decide +kernel, by decide +kernel, by decide +kernel⟩

/-- Two files, each with a namespace of its own. -/
def twoNamespaces : List SourceUnit :=
  Project.unitsOf [(.csharp, "namespace App.Models { class User {} }"),
    (.csharp, "namespace App.Services { class Login {} }")]

/-- The two files make up a project. -/
theorem exists_resolve_twoNamespaces : ∃ p, Project.resolve twoNamespaces = .ok p := by
  have hresolved : (Project.resolve twoNamespaces).toOption.isSome = true := by decide +kernel
  cases hp : Project.resolve twoNamespaces with
  | error e =>
      rw [hp] at hresolved
      cases hresolved
  | ok p => exact ⟨p, rfl⟩

/-- Two destinations share a file, with the path written in the same way, and a third one has a
file of its own. -/
theorem holdsAll_of_writeAll_shared :
    let ds : List Destination :=
      [⟨⟨"api"⟩, [["App", "Models"]]⟩, ⟨⟨"all.json"⟩, []⟩, ⟨⟨"api"⟩, [["App", "Services"]]⟩]
    ∃ p t written, Project.resolve twoNamespaces = .ok p ∧
      writeAll {} .standard {} (ofDestinations p .json ds) = (t, .ok written) ∧
      (∀ v ∈ written, ∀ w ∈ written,
        t.locate v.path = t.locate w.path → v.path.same w.path = true) ∧
      HoldsAll p .standard {} ds t written := by
  intro ds
  have hgroups : (OutputFile.groups ds).map (fun g => target g.1 .json) =
      [⟨"all.json"⟩, ⟨"api.json"⟩] := by decide +kernel
  have hmeet : ∀ d ∈ ds, ∀ e ∈ ds, (target d.path .json).same (target e.path .json) = true →
      d.path.same e.path = true := by decide +kernel
  have hplain : ∀ g ∈ OutputFile.groups ds, ∃ s, (target g.1 .json).Plain s := by
    intro g hg
    have hmem := List.mem_map_of_mem (f := fun g => target g.1 .json) hg
    rw [hgroups] at hmem
    rcases List.mem_cons.1 hmem with hall | hmem
    · exact ⟨_, hall ▸ plain_all⟩
    · exact ⟨_, List.mem_singleton.1 hmem ▸ plain_api⟩
  obtain ⟨p, hp⟩ := exists_resolve_twoNamespaces
  obtain ⟨t, written, hwritten, hplaces⟩ := exists_written_of_plain p {} hplain
  exact ⟨p, t, written, hp, hwritten, hplaces,
    (holdsAll_iff_of_writeAll hwritten hplaces).2 hmeet⟩

/-- A path with the extension and the same path without it: the file is reported twice, and only
what goes to the second destination is left in it. -/
theorem not_holdsAll_of_writeAll_extended :
    let models : Destination := ⟨⟨"api"⟩, [["App", "Models"]]⟩
    let services : Destination := ⟨⟨"api.json"⟩, [["App", "Services"]]⟩
    ∃ p t written, Project.resolve twoNamespaces = .ok p ∧
      writeAll {} .standard {} (ofDestinations p .json [models, services]) = (t, .ok written) ∧
      (∀ v ∈ written, ∀ w ∈ written,
        t.locate v.path = t.locate w.path → v.path.same w.path = true) ∧
      written.map (·.path) = [⟨"api.json"⟩, ⟨"api.json"⟩] ∧
      (∃ text, OutputStyle.print {} .standard (document (select p [services])) = .ok text ∧
        t.readText ⟨"api.json"⟩ = .ok text) ∧
      ¬ HoldsAll p .standard {} [models, services] t written := by
  intro models services
  have hgroups : OutputFile.groups [models, services] =
      [(⟨"api"⟩, [models])] ++ (⟨"api.json"⟩, [services]) :: [] := by decide +kernel
  have htargets : (OutputFile.groups [models, services]).map (fun g => target g.1 .json) =
      [⟨"api.json"⟩, ⟨"api.json"⟩] := by decide +kernel
  have hplain : ∀ g ∈ OutputFile.groups [models, services], ∃ s, (target g.1 .json).Plain s := by
    intro g hg
    have hmem := List.mem_map_of_mem (f := fun g => target g.1 .json) hg
    rw [htargets] at hmem
    have htarget : target g.1 .json = ⟨"api.json"⟩ := by simpa using hmem
    exact ⟨_, htarget ▸ plain_api⟩
  obtain ⟨p, hp⟩ := exists_resolve_twoNamespaces
  obtain ⟨t, written, hwritten, hplaces⟩ := exists_written_of_plain p {} hplain
  have hpaths : written.map (·.path) = [⟨"api.json"⟩, ⟨"api.json"⟩] := by
    rw [written_ofDestinations hwritten, List.map_map]
    exact htargets
  have htext := readText_ofDestinations hwritten hgroups (by simp)
  have htarget : target ⟨"api.json"⟩ .json = ⟨"api.json"⟩ := by decide +kernel
  rw [htarget] at htext
  refine ⟨p, t, written, hp, hwritten, hplaces, hpaths, htext, fun hholds => ?_⟩
  have hdistinct : (written.map (·.path)).Pairwise fun p q => p.same q = false :=
    List.pairwise_map.2 hholds.distinct
  rw [hpaths] at hdistinct
  revert hdistinct
  decide +kernel

end OutputFile

end Outline
