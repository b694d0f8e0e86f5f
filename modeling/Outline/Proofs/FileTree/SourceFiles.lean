import Mathlib.Data.List.Pairwise
import Outline.FileTree.Walk
import Outline.Proofs.FileTree.Paths
import Outline.Statistics.Basic

/-!
# Each source file once

The source files of all roots are put in order, and neighbours that are the same become one.  Being
the same asks for the same path and for the same name, and the name of a file depends on the
directory from which its root names it.

Of the walk over a directory nothing is used but how it makes paths: it joins the path of the root
with the names on the way down.

* `Walker.Joins` — a walk makes paths in this way; `FileTree.joins_walk` tells so of the walk of the
  program.
* `SourceFile.paths`, `SourceFile.base` — the source files of a root and the directory from which
  they are named.
* `SourceFile.below_same_iff` — a path below two directories is the same source file if and only if
  the directories are the same.
* `SourceFile.pairwise_dropRepeats` — no source file is left twice.
* `SourceFile.collect_once_iff` — every path is collected, and none is collected twice if and only
  if the roots that share a path name it from the same directory.
-/

namespace Outline

/-! ## Files and directories -/

namespace FileTree

variable {t : FileTree} {place other : Place} {steps : List PathComponent} {p : Path}

theorem exists_follow_of_cons {step : PathComponent}
    (h : t.follow place (step :: steps) = .ok other) : ∃ next, t.follow next steps = .ok other := by
  -- apart from the top, a step starts in a directory
  have hstep {next : Place} (h : (t.requireDirectory place >>= fun _ => t.follow next steps) =
      .ok other) : ∃ next, t.follow next steps = .ok other := by
    cases hdirectory : t.requireDirectory place with
    | error e =>
        rw [hdirectory] at h
        cases h
    | ok _ =>
        rw [hdirectory] at h
        exact ⟨next, h⟩
  cases step with
  | root => exact ⟨[], h⟩
  | current => exact hstep h
  | parent => exact hstep h
  | name s => exact hstep h

/-- Wherever one starts, the top is the top. -/
theorem follow_concat_root (h : t.follow place (steps ++ [.root]) = .ok other) : other = [] := by
  induction steps generalizing place with
  | nil => exact (Except.ok.inj h).symm
  | cons step steps ih =>
      obtain ⟨next, hnext⟩ := exists_follow_of_cons h
      exact ih hnext

theorem follow_of_locate (h : t.locate p = .ok place) :
    p.text ≠ "" ∧ t.follow t.workingDirectory p.components = .ok place := by
  unfold locate at h
  by_cases hempty : (p.text == "") = true
  · simp only [hempty, if_true] at h
    cases h
  · refine ⟨by simpa using hempty, ?_⟩
    simp only [hempty] at h
    cases hfollow : t.follow t.workingDirectory p.components with
    | error e =>
        rw [hfollow] at h
        cases h
    | ok found =>
        rw [hfollow] at h
        by_cases hbehind : (p.trimmed != p) = true
        · simp only [hbehind, if_true] at h
          cases hdirectory : t.requireDirectory found with
          | error e =>
              simp only [hdirectory, bind, Except.bind] at h
              cases h
          | ok _ =>
              simp only [hdirectory, bind, Except.bind, pure, Except.pure] at h
              exact h
        · simp only [hbehind] at h
          exact h

theorem lookup_eq_ok {entry : FileEntry} (h : t.lookup p = .ok entry) :
    ∃ place, t.locate p = .ok place ∧ t.entry? place = some entry := by
  unfold lookup at h
  cases hlocate : t.locate p with
  | error e =>
      rw [hlocate] at h
      cases h
  | ok place =>
      simp only [hlocate, bind, Except.bind, pure, Except.pure] at h
      split at h
      case _ found hentry =>
        cases h
        exact ⟨place, rfl, hentry⟩
      case _ => cases h

/-- A path that leads to a file has a directory above it. -/
theorem exists_parent_of_file {bytes : ByteArray} (h : t.lookup p = .ok (.file bytes)) :
    ∃ directory, p.parent? = some directory := by
  obtain ⟨place, hlocate, hentry⟩ := lookup_eq_ok h
  obtain ⟨hempty, hfollow⟩ := follow_of_locate hlocate
  cases hparent : p.parent? with
  | some directory => exact ⟨directory, rfl⟩
  | none =>
      rcases Path.components_of_parent?_eq_none hparent with hnil | ⟨front, htop⟩
      · exact absurd (Path.text_of_components_eq_nil hnil) hempty
      · -- the top is no file
        rw [htop] at hfollow
        rw [follow_concat_root hfollow] at hentry
        cases hentry

end FileTree

/-- A name that an entry of a directory can have. -/
abbrev EntryName (s : String) : Prop := Path.IsName s ∧ '/' ∉ s.toList

/-- The paths of the files that a walk finds below a directory are made of the path of the directory
and of the names on the way down. -/
def Walker.Joins (walk : Walker) (t : FileTree) : Prop :=
  ∀ root, t.lookup root = .ok .directory → ∀ enters e, .ok e ∈ walk t root enters →
    e.kind? = some .file → ∃ names, names ≠ [] ∧ (∀ s ∈ names, EntryName s) ∧
      e.path = names.foldl Path.child root

namespace FileTree

/-- All entries have names, and so have the directories above them. -/
def IsNamed (t : FileTree) : Prop := ∀ e ∈ t.entries, ∀ s ∈ e.1, EntryName s

instance (t : FileTree) : Decidable t.IsNamed :=
  inferInstanceAs (Decidable (∀ e ∈ t.entries, ∀ s ∈ e.1, EntryName s))

/-- So does the walk of the program. -/
theorem joins_walk {t : FileTree} (ht : t.IsNamed) : Walker.Joins walk t := by
  intro root _ enters e he _
  unfold walk at he
  cases hlocate : t.locate root with
  | error e' => simp [hlocate] at he
  | ok top =>
      rw [hlocate] at he
      obtain ⟨⟨place, entry⟩, hplace, hok⟩ := List.mem_map.1 he
      obtain ⟨hentry, hreach⟩ := List.mem_filter.1 hplace
      cases hok
      refine ⟨place.drop top.length, ?_, fun s hs => ht _ hentry s (List.mem_of_mem_drop hs), rfl⟩
      -- an entry that is reached lies below the top of the walk
      simp only [reaches, Bool.and_eq_true, decide_eq_true_eq] at hreach
      rw [Ne, List.drop_eq_nil_iff, Nat.not_le]
      exact hreach.1.2

end FileTree

namespace SourceFile

variable {walk : Walker} {t : FileTree} {filter : SourceFilter} {root r r' p q : Path}
  {roots : List Path} {a b f g : SourceFile} {fs files : List SourceFile}

/-! ## The source files of a root -/

/-- The paths of the source files of a root. -/
def paths (walk : Walker) (t : FileTree) (filter : SourceFilter) (root : Path) : List Path :=
  match t.lookup root with
  | .ok (.file _) => [root]
  | .ok .directory => (walk t root filter.enters).filterMap filter.sourcePath?
  | .error _ => []

/-- The directory from which the source files of a root are named. -/
def base (t : FileTree) (root : Path) : Path :=
  match t.lookup root with
  | .ok (.file _) => root.parent?.getD root
  | _ => root

/-- A root that leads to an entry has source files. -/
theorem exists_ofRoot (walk : Walker) (filter : SourceFilter) (h : t.pathExists root = true) :
    ∃ files, ofRoot walk t filter root = .ok files ∧
      files.Perm ((paths walk t filter root).map (below (base t root))) := by
  cases hlookup : t.lookup root with
  | error e =>
      rw [FileTree.pathExists, hlookup] at h
      cases h
  | ok entry =>
      unfold ofRoot paths base
      rw [hlookup]
      cases entry with
      | file bytes => exact ⟨_, rfl, .refl _⟩
      | directory => exact ⟨_, rfl, List.mergeSort_perm _ _⟩

theorem pathExists_of_ofRoot (h : ofRoot walk t filter root = .ok files) :
    t.pathExists root = true := by
  cases hlookup : t.lookup root with
  | ok entry =>
      rw [FileTree.pathExists, hlookup]
      rfl
  | error e =>
      unfold ofRoot at h
      rw [hlookup] at h
      cases h

/-! ## Names of source files -/

theorem components_foldl_child {names : List String} (h : ∀ s ∈ names, EntryName s) (p : Path) :
    (names.foldl Path.child p).components = p.components ++ names.map .name := by
  induction names generalizing p with
  | nil => simp
  | cons s names ih =>
      obtain ⟨⟨hs, hslash⟩, hnames⟩ := List.forall_mem_cons.1 h
      rw [List.foldl_cons, ih hnames, Path.components_child hs hslash, List.map_cons,
        List.append_assoc, List.singleton_append]

/-- A source file in a walk is a file that the walk comes across. -/
theorem sourcePath?_eq_some {result : Except String WalkEntry}
    (h : filter.sourcePath? result = some p) :
    ∃ e, result = .ok e ∧ e.kind? = some .file ∧ e.path = p := by
  cases result with
  | error message => cases h
  | ok e =>
      rw [SourceFilter.sourcePath?] at h
      split at h
      case _ hfile =>
        rw [Bool.and_eq_true, beq_iff_eq] at hfile
        exact ⟨e, rfl, hfile.1, Option.some.inj h⟩
      case _ => cases h

/-- A source file lies below the directory from which it is named. -/
theorem exists_components_of_mem_paths (hwalk : walk.Joins t) (h : p ∈ paths walk t filter root) :
    ∃ steps, steps ≠ [] ∧ p.components = (base t root).components ++ steps := by
  unfold paths at h
  split at h
  case _ hlookup =>
    rw [List.mem_singleton] at h
    subst h
    obtain ⟨directory, hparent⟩ := FileTree.exists_parent_of_file hlookup
    obtain ⟨c, hc⟩ := Path.components_of_parent? hparent
    refine ⟨[c], by simp, ?_⟩
    rw [base, hlookup, hc, hparent]
    rfl
  case _ hlookup =>
    obtain ⟨result, hresult, hp⟩ := List.mem_filterMap.1 h
    obtain ⟨e, rfl, hfile, rfl⟩ := sourcePath?_eq_some hp
    obtain ⟨names, hne, hnames, hpath⟩ := hwalk root hlookup _ e hresult hfile
    refine ⟨names.map .name, by simpa using hne, ?_⟩
    rw [base, hlookup, hpath]
    exact components_foldl_child hnames root
  case _ => cases h

/-- The name of a file is how the steps to it are written. -/
theorem sourceId_below {steps : List PathComponent} (hne : steps ≠ [])
    (h : p.components = q.components ++ steps) :
    (below q p).sourceId = "/".intercalate (steps.map (·.text)) := by
  have hrelative : p.relativeTo q = steps := by
    have hbelow : q.components.isPrefixOf p.components = true := by
      rw [List.isPrefixOf_iff_prefix, h]
      exact List.prefix_append _ _
    rw [Path.relativeTo, if_pos hbelow, h, List.drop_left]
  have htext : "/".intercalate (steps.map (·.text)) ≠ "" := by
    obtain ⟨step, rest, rfl⟩ := List.exists_cons_of_ne_nil hne
    have hstep : step.text ≠ "" := Path.text_ne_empty (p := p) (by rw [h]; simp)
    cases rest with
    | nil => simpa using hstep
    | cons next rest =>
        rw [List.map_cons, List.map_cons, String.intercalate_cons_cons]
        simp
  simp [below, hrelative, htext]

/-- More steps are written longer. -/
theorem intercalate_append_ne {front back : List PathComponent} (hfront : front ≠ [])
    (hback : back ≠ []) :
    "/".intercalate ((front ++ back).map (·.text)) ≠ "/".intercalate (back.map (·.text)) := by
  intro h
  have hlength := congrArg String.length h
  rw [List.map_append, String.intercalate_append_of_ne_nil (by simpa using hfront)
    (by simpa using hback), String.length_append, String.length_append] at hlength
  have hslash : "/".length = 1 := rfl
  omega

/-- A path below two directories is the same source file if and only if the directories are the
same. -/
theorem below_same_iff {steps steps' : List PathComponent} (hne : steps ≠ []) (hne' : steps' ≠ [])
    (hp : p.components = r.components ++ steps) (hq : q.components = r'.components ++ steps')
    (hsame : p.same q = true) :
    (below r p).same (below r' q) = true ↔ r.same r' = true := by
  have hpaths : r.components ++ steps = r'.components ++ steps' := by
    rw [← hp, ← hq]
    exact Path.same_iff.1 hsame
  have hid : (below r p).same (below r' q) = true ↔
      "/".intercalate (steps.map (·.text)) = "/".intercalate (steps'.map (·.text)) := by
    rw [same, sourceId_below hne hp, sourceId_below hne' hq, Bool.and_eq_true, beq_iff_eq]
    exact and_iff_left hsame
  rw [hid, Path.same_iff]
  constructor
  · intro htext
    rcases List.append_eq_append_iff.1 hpaths with ⟨between, hr, hsteps⟩ | ⟨between, hr, hsteps⟩
    · by_cases hbetween : between = []
      · rw [hr, hbetween, List.append_nil]
      · rw [hsteps] at htext
        exact absurd htext (intercalate_append_ne hbetween hne')
    · by_cases hbetween : between = []
      · rw [hr, hbetween, List.append_nil]
      · rw [hsteps] at htext
        exact absurd htext.symm (intercalate_append_ne hbetween hne)
  · intro hr
    rw [hr] at hpaths
    rw [List.append_cancel_left hpaths]

/-! ## Order -/

/-- The order of source files. -/
def compare (a b : SourceFile) : Ordering :=
  (Ord.compare a.sourceId b.sourceId).then (a.path.compare b.path)

theorem le_eq (a b : SourceFile) : le a b = (compare a b).isLE := by
  rw [le, ← compare]
  cases compare a b <;> rfl

instance : Std.TransCmp compare := by
  let _ : Ord Path := ⟨Path.compare⟩
  have _ : Std.TransOrd Path := inferInstanceAs (Std.TransCmp Path.compare)
  exact inferInstanceAs (Std.TransCmp (compareLex (compareOn sourceId) (compareOn path)))

theorem compare_eq_eq : compare a b = .eq ↔ a.same b = true := by
  rw [compare, Ordering.then_eq_eq, Path.compare_eq_eq, Std.LawfulEqCmp.compare_eq_iff_eq, same,
    Bool.and_eq_true, beq_iff_eq]

theorem pairwise_sort (fs : List SourceFile) :
    (sort fs).Pairwise fun a b => (compare a b).isLE = true := by
  have htrans (a b c : SourceFile) (hab : le a b = true) (hbc : le b c = true) :
      le a c = true := by
    rw [le_eq] at hab hbc ⊢
    exact Std.TransCmp.isLE_trans hab hbc
  have htotal (a b : SourceFile) : (le a b || le b a) = true := by
    have hswap : compare b a = (compare a b).swap := Std.OrientedCmp.eq_swap
    rw [le_eq, le_eq, hswap]
    cases compare a b <;> rfl
  exact (List.pairwise_mergeSort htrans htotal fs).imp fun {a b} h => by rwa [le_eq] at h

theorem mem_of_mem_dropRepeats (h : f ∈ dropRepeats fs) : f ∈ fs := by
  fun_induction dropRepeats fs with
  | case1 a b rest _ ih => exact List.mem_cons.2 ((List.mem_cons.1 (ih h)).imp_right (.tail b))
  | case2 a b rest _ ih =>
      cases List.mem_cons.1 h with
      | inl ha => simp [ha]
      | inr hrest => exact .tail a (ih hrest)
  | case3 files _ => exact h

/-- One of the source files that are the same is left. -/
theorem exists_mem_dropRepeats (h : f ∈ fs) : ∃ g ∈ dropRepeats fs, g.same f = true := by
  have hrefl (f : SourceFile) : f.same f = true := compare_eq_eq.1 Std.ReflCmp.compare_self
  fun_induction dropRepeats fs generalizing f with
  | case1 a b rest hab ih =>
      rcases List.mem_cons.1 h with rfl | htail
      · exact ih List.mem_cons_self
      · rcases List.mem_cons.1 htail with rfl | hrest
        · -- the first one stands for the second one as well
          obtain ⟨g, hg, hga⟩ := ih List.mem_cons_self
          refine ⟨g, hg, compare_eq_eq.1 ?_⟩
          exact Std.TransCmp.eq_trans (compare_eq_eq.2 hga) (compare_eq_eq.2 hab)
        · exact ih (.tail a hrest)
  | case2 a b rest _ ih =>
      rcases List.mem_cons.1 h with rfl | htail
      · exact ⟨f, List.mem_cons_self, hrefl f⟩
      · obtain ⟨g, hg, hsame⟩ := ih htail
        exact ⟨g, .tail a hg, hsame⟩
  | case3 files _ => exact ⟨f, h, hrefl f⟩

/-- In an ordered list no source file is left twice. -/
theorem pairwise_dropRepeats (h : fs.Pairwise fun a b => (compare a b).isLE = true) :
    (dropRepeats fs).Pairwise fun a b => compare a b = .lt := by
  fun_induction dropRepeats fs with
  | case1 a b rest _ ih =>
      obtain ⟨ha, hb⟩ := List.pairwise_cons.1 h
      exact ih (List.pairwise_cons.2
        ⟨fun c hc => ha c (.tail b hc), (List.pairwise_cons.1 hb).2⟩)
  | case2 a b rest hab ih =>
      obtain ⟨ha, hb⟩ := List.pairwise_cons.1 h
      have hlt : compare a b = .lt := by
        have hle := ha b List.mem_cons_self
        have hne : compare a b ≠ .eq := fun heq => hab (compare_eq_eq.1 heq)
        cases hcompare : compare a b <;> simp_all
      refine List.pairwise_cons.2 ⟨fun c hc => ?_, ih hb⟩
      rcases List.mem_cons.1 (mem_of_mem_dropRepeats hc) with rfl | hrest
      · exact hlt
      · exact Std.TransCmp.lt_of_lt_of_isLE hlt ((List.pairwise_cons.1 hb).1 c hrest)
  | case3 files hfew =>
      match files, hfew with
      | [], _ => exact .nil
      | [a], _ => exact List.pairwise_singleton _ _
      | a :: b :: rest, hfew => exact absurd rfl (hfew a b rest)

/-! ## The source files of all roots -/

/-- The source files of all roots, with those that are found more than once. -/
def found (walk : Walker) (t : FileTree) (filter : SourceFilter) (roots : List Path) :
    List SourceFile :=
  roots.flatMap fun root => (paths walk t filter root).map (below (base t root))

theorem mem_found : f ∈ found walk t filter roots ↔
    ∃ root ∈ roots, ∃ p ∈ paths walk t filter root, f = below (base t root) p := by
  simp [found, eq_comm]

/-- If all roots lead to entries, source files are collected. -/
theorem exists_mapM_ofRoot (walk : Walker) (filter : SourceFilter)
    (h : ∀ root ∈ roots, t.pathExists root = true) :
    ∃ lists, roots.mapM (ofRoot walk t filter) = .ok lists ∧
      lists.flatten.Perm (found walk t filter roots) := by
  induction roots with
  | nil => exact ⟨[], rfl, .refl _⟩
  | cons root roots ih =>
      obtain ⟨hroot, hroots⟩ := List.forall_mem_cons.1 h
      obtain ⟨files, hfiles, hperm⟩ := exists_ofRoot walk filter hroot
      obtain ⟨lists, hlists, hperms⟩ := ih hroots
      refine ⟨files :: lists, ?_, hperm.append hperms⟩
      rw [List.mapM_cons, hfiles, hlists]
      rfl

theorem pathExists_of_mapM {lists : List (List SourceFile)}
    (h : roots.mapM (ofRoot walk t filter) = .ok lists) :
    ∀ root ∈ roots, t.pathExists root = true := by
  induction roots generalizing lists with
  | nil => simp
  | cons root roots ih =>
      rw [List.mapM_cons] at h
      cases hroot : ofRoot walk t filter root with
      | error e =>
          rw [hroot] at h
          cases h
      | ok files =>
          rw [hroot] at h
          cases hroots : roots.mapM (ofRoot walk t filter) with
          | error e =>
              rw [hroots] at h
              cases h
          | ok lists => exact List.forall_mem_cons.2 ⟨pathExists_of_ofRoot hroot, ih hroots⟩

/-- Source files are collected if and only if all roots lead to entries. -/
theorem exists_collect_iff (walk : Walker) (t : FileTree) (filter : SourceFilter)
    (roots : List Path) :
    (∃ files, collectWith walk t filter roots = .ok files) ↔
      ∀ root ∈ roots, t.pathExists root = true := by
  constructor
  · rintro ⟨files, h⟩
    unfold collectWith at h
    cases hlists : roots.mapM (ofRoot walk t filter) with
    | error e =>
        rw [hlists] at h
        cases h
    | ok lists => exact pathExists_of_mapM hlists
  · intro h
    obtain ⟨lists, hlists, -⟩ := exists_mapM_ofRoot walk filter h
    unfold collectWith
    rw [hlists]
    exact ⟨_, rfl⟩

theorem collect_eq_ok (h : collectWith walk t filter roots = .ok files) :
    ∃ fs, fs.Perm (found walk t filter roots) ∧ files = dropRepeats (sort fs) := by
  obtain ⟨lists, hlists, hperm⟩ :=
    exists_mapM_ofRoot walk filter ((exists_collect_iff walk t filter roots).1 ⟨files, h⟩)
  unfold collectWith at h
  rw [hlists] at h
  exact ⟨lists.flatten, hperm, (Except.ok.inj h).symm⟩

/-- What is collected has been found below a root. -/
theorem mem_found_of_collect (h : collectWith walk t filter roots = .ok files) (hf : f ∈ files) :
    f ∈ found walk t filter roots := by
  obtain ⟨fs, hperm, rfl⟩ := collect_eq_ok h
  exact hperm.mem_iff.1 ((List.mergeSort_perm fs le).mem_iff.1 (mem_of_mem_dropRepeats hf))

/-- What has been found below a root is collected. -/
theorem exists_mem_collect (h : collectWith walk t filter roots = .ok files)
    (hf : f ∈ found walk t filter roots) : ∃ g ∈ files, g.same f = true := by
  obtain ⟨fs, hperm, rfl⟩ := collect_eq_ok h
  exact exists_mem_dropRepeats ((List.mergeSort_perm fs le).mem_iff.2 (hperm.mem_iff.2 hf))

theorem pairwise_collect (h : collectWith walk t filter roots = .ok files) :
    files.Pairwise fun a b => compare a b = .lt := by
  obtain ⟨fs, -, rfl⟩ := collect_eq_ok h
  exact pairwise_dropRepeats (pairwise_sort fs)

/-! ## Paths that are collected once -/

/-- No two source files have the same path. -/
def PathsDiffer (files : List SourceFile) : Prop :=
  files.Pairwise fun a b => a.path.same b.path ≠ true

/-- Roots with a source file in common name it from the same directory. -/
def NamedAlike (walk : Walker) (t : FileTree) (filter : SourceFilter) (roots : List Path) : Prop :=
  ∀ r ∈ roots, ∀ r' ∈ roots, ∀ p ∈ paths walk t filter r, ∀ q ∈ paths walk t filter r',
    p.same q = true → (base t r).same (base t r') = true

instance : Decidable (NamedAlike walk t filter roots) :=
  inferInstanceAs (Decidable (∀ r ∈ roots, ∀ r' ∈ roots, ∀ p ∈ paths walk t filter r,
    ∀ q ∈ paths walk t filter r', p.same q = true → (base t r).same (base t r') = true))

/-- The paths of source files are those of the source files of the roots. -/
structure Covers (walk : Walker) (t : FileTree) (filter : SourceFilter) (roots : List Path)
    (files : List SourceFile) : Prop where
  /-- The path of every source file of a root is there. -/
  complete : ∀ root ∈ roots, ∀ p ∈ paths walk t filter root, ∃ f ∈ files, f.path.same p = true
  /-- No other path is there. -/
  sound : ∀ f ∈ files, ∃ root ∈ roots, f.path ∈ paths walk t filter root

theorem path_below (directory p : Path) : (below directory p).path = p := rfl

theorem covers_of_collect (h : collectWith walk t filter roots = .ok files) :
    Covers walk t filter roots files := by
  refine ⟨fun root hroot p hp => ?_, fun f hf => ?_⟩
  · obtain ⟨g, hg, hsame⟩ := exists_mem_collect h (mem_found.2 ⟨root, hroot, p, hp, rfl⟩)
    rw [same, Bool.and_eq_true] at hsame
    exact ⟨g, hg, hsame.2⟩
  · obtain ⟨root, hroot, p, hp, rfl⟩ := mem_found.1 (mem_found_of_collect h hf)
    exact ⟨root, hroot, hp⟩

/-- No path is collected twice if and only if roots with a source file in common name it from the
same directory. -/
theorem pathsDiffer_iff (hwalk : walk.Joins t) (h : collectWith walk t filter roots = .ok files) :
    PathsDiffer files ↔ NamedAlike walk t filter roots := by
  constructor
  · intro hdiffer r hr r' hr' p hp q hq hsame
    obtain ⟨steps, hne, hsteps⟩ := exists_components_of_mem_paths hwalk hp
    obtain ⟨steps', hne', hsteps'⟩ := exists_components_of_mem_paths hwalk hq
    obtain ⟨f, hf, hfp⟩ := exists_mem_collect h (mem_found.2 ⟨r, hr, p, hp, rfl⟩)
    obtain ⟨g, hg, hgq⟩ := exists_mem_collect h (mem_found.2 ⟨r', hr', q, hq, rfl⟩)
    have hpaths : f.path.same g.path = true := by
      rw [same, Bool.and_eq_true, path_below] at hfp hgq
      exact Path.same_trans hfp.2 (Path.same_trans hsame (Path.same_symm hgq.2))
    -- they have one path, so that they are one source file
    have hfg : f = g := by
      by_contra hfg
      have _ : Std.Symm fun a b : SourceFile => a.path.same b.path ≠ true :=
        ⟨fun a b hab hba => hab (Path.same_symm hba)⟩
      exact hdiffer.forall hf hg hfg hpaths
    subst hfg
    rw [← below_same_iff hne hne' hsteps hsteps' hsame, ← compare_eq_eq]
    exact Std.TransCmp.eq_trans (Std.OrientedCmp.eq_symm (compare_eq_eq.2 hfp))
      (compare_eq_eq.2 hgq)
  · intro halike
    refine (pairwise_collect h).imp_of_mem fun {a b} ha hb hlt hsame => ?_
    obtain ⟨r, hr, p, hp, rfl⟩ := mem_found.1 (mem_found_of_collect h ha)
    obtain ⟨r', hr', q, hq, rfl⟩ := mem_found.1 (mem_found_of_collect h hb)
    obtain ⟨steps, hne, hsteps⟩ := exists_components_of_mem_paths hwalk hp
    obtain ⟨steps', hne', hsteps'⟩ := exists_components_of_mem_paths hwalk hq
    have hbase := halike r hr r' hr' p hp q hq hsame
    rw [compare_eq_eq.2 ((below_same_iff hne hne' hsteps hsteps' hsame).2 hbase)] at hlt
    cases hlt

/-- The statistics hold the counts of these source files, each measured once. -/
def Measured (t : FileTree) (files : List SourceFile) (stats : CodeStats) : Prop :=
  ∃ counts, files.mapM (CodeStats.measureFile t) = .ok counts ∧ stats.files = counts.filterMap id

theorem exists_measured_of_collect {further : List String} {stats : CodeStats}
    (h : CodeStats.collectWith walk t filter roots further = .ok stats) :
    ∃ files, collectWith walk t (further.foldl .addExtension filter) roots = .ok files ∧
      Measured t files stats := by
  unfold CodeStats.collectWith at h
  cases hfiles : collectWith walk t (further.foldl .addExtension filter) roots with
  | error e =>
      rw [hfiles] at h
      cases h
  | ok files =>
      simp only [hfiles, bind, Except.bind] at h
      cases hcounts : files.mapM (CodeStats.measureFile t) with
      | error e =>
          rw [hcounts] at h
          cases h
      | ok counts =>
          rw [hcounts] at h
          exact ⟨files, rfl, counts, hcounts, by rw [← Except.ok.inj h]⟩

/-- Whatever walk finds the files below directories: source files are collected if and only if all
roots lead to entries.  They cover the source files of the roots, and no path is there twice if and
only if roots with a source file in common name it from the same directory.  So it is with the
source files that are measured. -/
theorem collect_once_iff (hwalk : walk.Joins t) (filter : SourceFilter) (roots : List Path)
    (further : List String) :
    ((∃ files, collectWith walk t filter roots = .ok files) ↔
        ∀ root ∈ roots, t.pathExists root = true) ∧
      (∀ files, collectWith walk t filter roots = .ok files →
        Covers walk t filter roots files ∧ (PathsDiffer files ↔ NamedAlike walk t filter roots)) ∧
      ∀ stats, CodeStats.collectWith walk t filter roots further = .ok stats →
        ∃ files, Measured t files stats ∧
          Covers walk t (further.foldl .addExtension filter) roots files ∧
          (PathsDiffer files ↔ NamedAlike walk t (further.foldl .addExtension filter) roots) := by
  refine ⟨exists_collect_iff walk t filter roots, fun files h => ?_, fun stats hstats => ?_⟩
  · exact ⟨covers_of_collect h, pathsDiffer_iff hwalk h⟩
  · obtain ⟨files, h, hmeasured⟩ := exists_measured_of_collect hstats
    exact ⟨files, hmeasured, covers_of_collect h, pathsDiffer_iff hwalk h⟩

/-- A directory with a source file in it and in a directory below. -/
def twoLevels : FileTree where
  entries := [(["src"], .directory), (["src", "A.cs"], .file ⟨#[]⟩), (["src", "sub"], .directory),
    (["src", "sub", "B.cs"], .file ⟨#[]⟩)]

/-- A directory that is given twice, with a file that lies in it. -/
theorem collect_once_repeated :
    Walker.Joins FileTree.walk twoLevels ∧
      ∃ files, collectWith FileTree.walk twoLevels ⟨["cs"], []⟩
          [⟨"src"⟩, ⟨"src/A.cs"⟩, ⟨"src"⟩] = .ok files ∧ PathsDiffer files := by
  have hwalk : Walker.Joins FileTree.walk twoLevels := FileTree.joins_walk (by decide)
  have h := collect_once_iff hwalk ⟨["cs"], []⟩ [⟨"src"⟩, ⟨"src/A.cs"⟩, ⟨"src"⟩] []
  obtain ⟨files, hfiles⟩ := h.1.2 (by decide +kernel)
  exact ⟨hwalk, files, hfiles, (h.2.1 files hfiles).2.2 (by decide +kernel)⟩

/-- A directory with a directory that lies in it. -/
theorem not_once_nested :
    ∃ files, collectWith FileTree.walk twoLevels ⟨["cs"], []⟩ [⟨"src"⟩, ⟨"src/sub"⟩] = .ok files ∧
      ¬ PathsDiffer files := by
  obtain ⟨files, hfiles⟩ := (exists_collect_iff FileTree.walk twoLevels ⟨["cs"], []⟩
    [⟨"src"⟩, ⟨"src/sub"⟩]).2 (by decide +kernel)
  refine ⟨files, hfiles, fun hdiffer => ?_⟩
  have halike := (pathsDiffer_iff (FileTree.joins_walk (by decide)) hfiles).1 hdiffer
  exact absurd halike (by decide +kernel)

end SourceFile

end Outline
