import Mathlib.Algebra.BigOperators.Group.List.Basic
import Mathlib.Algebra.GroupWithZero.Nat
import Mathlib.Data.List.Nodup
import Outline.Statistics.Basic

/-!
# Line statistics add up

The counts of a file, of a group and of a whole project are kept apart from each other.  They agree
because every line is of one kind and every file is in one group.

* `LineCounts.Balanced` — blank lines and comments are no more than all lines; it holds of every
  measured file, and adding files up keeps it.
* `GroupStats.Sums` — a group has as many files, characters and lines as its files together.
* `CodeStats.perm_groups` — the groups together hold each file once.
* `CodeStats.adds_up` — the counts of a project are balanced and the sums of those of its groups.
-/

namespace Outline

/-- Every line is of one kind. -/
theorem LineKind.count_add_count (kinds : List LineKind) :
    kinds.count .blank + kinds.count .comment + kinds.count .code = kinds.length := by
  induction kinds with
  | nil => rfl
  | cons kind kinds ih => cases kind <;> simp [← ih] <;> omega

/-! ## Counts -/

namespace LineCounts

/-- Blank lines and lines of comments are no more than all lines, and the others are those of
code. -/
structure Balanced (c : LineCounts) : Prop where
  /-- Nothing is taken away from the lines that is not among them. -/
  le : c.blank + c.comment ≤ c.total
  /-- The lines of code are what is left. -/
  code : c.code + (c.blank + c.comment) = c.total

variable {a b c : LineCounts}

theorem balanced_of_le (h : c.blank + c.comment ≤ c.total) : c.Balanced where
  le := h
  code := by
    rw [LineCounts.code]
    omega

theorem balanced_ofText (text : String) (language? : Option Language) :
    (ofText text language?).Balanced := by
  refine balanced_of_le ?_
  rw [ofText, ← LineKind.count_add_count]
  exact Nat.le_add_right _ _

theorem balanced_zero : ({} : LineCounts).Balanced := balanced_of_le (Nat.le_refl _)

theorem Balanced.add (ha : a.Balanced) (hb : b.Balanced) : (a + b).Balanced := by
  have hsum : a.blank + b.blank + (a.comment + b.comment) ≤ a.total + b.total := by
    have := ha.le
    have := hb.le
    omega
  exact balanced_of_le hsum

instance : Zero LineCounts := ⟨{}⟩

instance : AddCommMonoid LineCounts where
  add_assoc a b c := by
    show add (add a b) c = add a (add b c)
    simp [add, Nat.add_assoc]
  zero_add a := by
    show add {} a = a
    simp [add]
  add_zero a := by
    show add a {} = a
    simp [add]
  add_comm a b := by
    show add a b = add b a
    simp [add, Nat.add_comm]
  nsmul := nsmulRec

end LineCounts

/-! ## Groups -/

namespace GroupStats

instance : Zero GroupStats := ⟨⟨0, 0⟩⟩

/-- Groups are added component by component. -/
instance : Add GroupStats := ⟨fun a b => ⟨a.files + b.files, a.counts + b.counts⟩⟩

instance : AddCommMonoid GroupStats where
  add_assoc a b c := congrArg₂ mk (Nat.add_assoc ..) (add_assoc ..)
  zero_add a := congrArg₂ mk (Nat.zero_add _) (zero_add _)
  add_zero a := congrArg₂ mk (Nat.add_zero _) (add_zero _)
  add_comm a b := congrArg₂ mk (Nat.add_comm ..) (add_comm ..)
  nsmul := nsmulRec

/-- The group of a single file. -/
def ofFile (f : FileStats) : GroupStats := ⟨1, f.counts⟩

theorem foldl_counts (files : List FileStats) (total : LineCounts) :
    files.foldl (fun total f => total + f.counts) total =
      total + ((files.map ofFile).sum).counts := by
  induction files generalizing total with
  | nil => exact (add_zero total).symm
  | cons f files ih =>
      rw [List.foldl_cons, ih, List.map_cons, List.sum_cons, add_assoc]
      rfl

theorem files_sum (files : List FileStats) : ((files.map ofFile).sum).files = files.length := by
  induction files with
  | nil => rfl
  | cons f files ih =>
      rw [List.map_cons, List.sum_cons, List.length_cons, ← ih, Nat.add_comm]
      rfl

/-- A group is the sum of its files. -/
theorem ofFiles_eq_sum (files : List FileStats) : ofFiles files = (files.map ofFile).sum :=
  congrArg₂ mk (files_sum files).symm ((foldl_counts files {}).trans (zero_add _))

theorem ofFiles_append (files more : List FileStats) :
    ofFiles (files ++ more) = ofFiles files + ofFiles more := by
  rw [ofFiles_eq_sum, ofFiles_eq_sum, ofFiles_eq_sum, List.map_append, List.sum_append]

theorem ofFiles_perm {files more : List FileStats} (h : files.Perm more) :
    ofFiles files = ofFiles more := by
  rw [ofFiles_eq_sum, ofFiles_eq_sum, (h.map ofFile).sum_eq]

/-- A group tells of some files how many there are and, component by component, what they come
to. -/
structure Sums (g : GroupStats) (files : List FileStats) : Prop where
  /-- The number of files. -/
  number : g.files = files.length
  /-- The characters of all files. -/
  chars : g.counts.chars = (files.map (·.counts.chars)).sum
  /-- The lines of all files. -/
  total : g.counts.total = (files.map (·.counts.total)).sum
  /-- The blank lines of all files. -/
  blank : g.counts.blank = (files.map (·.counts.blank)).sum
  /-- The lines of comments of all files. -/
  comment : g.counts.comment = (files.map (·.counts.comment)).sum

/-- One more file is added to every component. -/
theorem Sums.cons {g : GroupStats} {files : List FileStats} (h : g.Sums files) (f : FileStats) :
    (ofFile f + g).Sums (f :: files) where
  number := by
    show 1 + g.files = files.length + 1
    rw [h.number, Nat.add_comm]
  chars := congrArg (f.counts.chars + ·) h.chars
  total := congrArg (f.counts.total + ·) h.total
  blank := congrArg (f.counts.blank + ·) h.blank
  comment := congrArg (f.counts.comment + ·) h.comment

theorem sums_ofFiles (files : List FileStats) : (ofFiles files).Sums files := by
  rw [ofFiles_eq_sum]
  induction files with
  | nil => exact ⟨rfl, rfl, rfl, rfl, rfl⟩
  | cons f files ih =>
      rw [List.map_cons, List.sum_cons]
      exact ih.cons f

/-- Adding balanced files up keeps the balance. -/
theorem balanced_foldl {files : List FileStats} (h : ∀ f ∈ files, f.counts.Balanced)
    {total : LineCounts} (htotal : total.Balanced) :
    (files.foldl (fun total f => total + f.counts) total).Balanced := by
  induction files generalizing total with
  | nil => exact htotal
  | cons f files ih =>
      obtain ⟨hf, hfiles⟩ := List.forall_mem_cons.1 h
      exact ih hfiles (htotal.add hf)

theorem balanced_ofFiles {files : List FileStats} (h : ∀ f ∈ files, f.counts.Balanced) :
    (ofFiles files).counts.Balanced :=
  balanced_foldl h LineCounts.balanced_zero

end GroupStats

namespace CodeStats

variable {s : CodeStats}

/-- The groups of the files: the languages that have some, and no language. -/
def groups (s : CodeStats) : List (Option Language) := s.perLanguage.map (some ·.1) ++ [none]

theorem mem_filesOf {f : FileStats} {k : Option Language} :
    f ∈ s.filesOf k ↔ f ∈ s.files ∧ f.language? = k := by
  rw [filesOf, List.mem_filter, beq_iff_eq]

theorem groups_eq (s : CodeStats) :
    s.groups = (Language.all.filter fun l => !(s.filesOf (some l)).isEmpty).map some ++ [none] := by
  rw [groups, perLanguage, List.map_map]
  rfl

theorem nodup_groups (s : CodeStats) : s.groups.Nodup := by
  rw [groups_eq, List.nodup_append]
  have hall : (Language.all.filter fun l => !(s.filesOf (some l)).isEmpty).Nodup :=
    List.Nodup.filter _ (by decide)
  refine ⟨hall.map fun _ _ => Option.some.inj, List.nodup_singleton none, ?_⟩
  intro k hk k' hk'
  obtain ⟨l, -, rfl⟩ := List.mem_map.1 hk
  rw [List.mem_singleton.1 hk']
  exact Option.some_ne_none l

/-- The group of a file is one of the groups. -/
theorem language?_mem_groups {f : FileStats} (hf : f ∈ s.files) : f.language? ∈ s.groups := by
  rw [groups_eq, List.mem_append]
  cases hl : f.language? with
  | none => exact .inr (List.mem_singleton.2 rfl)
  | some l =>
      refine .inl (List.mem_map.2 ⟨l, List.mem_filter.2 ⟨?_, ?_⟩, rfl⟩)
      · cases l <;> decide
      · have hmem : f ∈ s.filesOf (some l) := mem_filesOf.2 ⟨hf, hl⟩
        simpa using List.ne_nil_of_mem hmem

/-- A file occurs in the group of its language only. -/
theorem count_filesOf (s : CodeStats) (f : FileStats) (k : Option Language) :
    (s.filesOf k).count f = if k = f.language? then s.files.count f else 0 := by
  rw [filesOf]
  split
  next hk => exact List.count_filter (beq_iff_eq.2 hk.symm)
  next hk =>
      refine List.count_eq_zero.2 fun hmem => hk ?_
      exact (beq_iff_eq.1 (List.mem_filter.1 hmem).2).symm

/-- Groups put one after another hold a file as often as its language is among them. -/
theorem count_flatMap_filesOf (s : CodeStats) (f : FileStats) (ks : List (Option Language)) :
    (ks.flatMap s.filesOf).count f = ks.count f.language? * s.files.count f := by
  induction ks with
  | nil => simp
  | cons k ks ih =>
      rw [List.flatMap_cons, List.count_append, ih, count_filesOf, List.count_cons, Nat.add_mul,
        Nat.add_comm]
      by_cases hk : k = f.language?
      · rw [if_pos hk, if_pos (beq_iff_eq.2 hk), Nat.one_mul]
      · rw [if_neg hk, if_neg (mt beq_iff_eq.1 hk), Nat.zero_mul]

/-- The groups together hold each file once. -/
theorem perm_groups (s : CodeStats) : s.files.Perm (s.groups.flatMap s.filesOf) := by
  refine List.perm_iff_count.2 fun f => ?_
  rw [count_flatMap_filesOf]
  by_cases hf : f ∈ s.files
  · rw [s.nodup_groups.count, if_pos (language?_mem_groups hf), Nat.one_mul]
  · rw [List.count_eq_zero.2 hf, Nat.mul_zero]

/-- The group of a language is made of its files. -/
theorem eq_ofFiles_of_mem {l : Language} {g : GroupStats} (h : (l, g) ∈ s.perLanguage) :
    g = .ofFiles (s.filesOf (some l)) := by
  obtain ⟨l', -, heq⟩ := List.mem_map.1 h
  obtain ⟨rfl, rfl⟩ := Prod.mk.inj heq
  rfl

theorem sums_of_mem {l : Language} {g : GroupStats} (h : (l, g) ∈ s.perLanguage) :
    g.Sums (s.filesOf (some l)) := by
  rw [eq_ofFiles_of_mem h]
  exact GroupStats.sums_ofFiles _

/-- Groups put one after another add up. -/
theorem ofFiles_flatMap_filesOf (s : CodeStats) (ks : List (Option Language)) :
    GroupStats.ofFiles (ks.flatMap s.filesOf) =
      (ks.map fun k => GroupStats.ofFiles (s.filesOf k)).sum := by
  induction ks with
  | nil => rfl
  | cons k ks ih =>
      rw [List.flatMap_cons, GroupStats.ofFiles_append, ih, List.map_cons, List.sum_cons]

/-- The total is the sum over the groups. -/
theorem total_eq_sum (s : CodeStats) :
    s.total = (s.perLanguage.map (·.2)).sum + .ofFiles s.uncategorized := by
  have hlanguages : s.perLanguage.map (·.2) =
      (s.perLanguage.map (some ·.1)).map fun k => GroupStats.ofFiles (s.filesOf k) := by
    rw [List.map_map]
    exact List.map_congr_left fun _ h => eq_ofFiles_of_mem h
  calc s.total = .ofFiles (s.groups.flatMap s.filesOf) := GroupStats.ofFiles_perm s.perm_groups
    _ = (s.groups.map fun k => GroupStats.ofFiles (s.filesOf k)).sum := s.ofFiles_flatMap_filesOf _
    _ = (s.perLanguage.map (·.2)).sum + .ofFiles s.uncategorized := by
      rw [groups, List.map_append, List.sum_append, hlanguages, List.map_singleton,
        List.sum_singleton]
      rfl

/-- The counts of measured files add up.  Blank lines and comments are no more than all lines, in
a file, in a group and in the total.  Each file is in the group of its language and in no other,
and the groups together hold each file once.  A group has as many files, characters, lines, blank
lines and lines of comments as its files together, so does the total, and the total is the sum of
the groups. -/
theorem adds_up (inputs : List (String × String × Option Language)) :
    let s : CodeStats := ⟨inputs.map fun i => .measure i.1 i.2.1 i.2.2⟩
    ((∀ f ∈ s.files, f.counts.Balanced) ∧ (∀ g ∈ s.perLanguage, g.2.counts.Balanced) ∧
        (GroupStats.ofFiles s.uncategorized).counts.Balanced ∧ s.total.counts.Balanced) ∧
      ((∀ f ∈ s.files, ∃! k, k ∈ s.groups ∧ f ∈ s.filesOf k) ∧
        s.groups.Nodup ∧ s.files.Perm (s.groups.flatMap s.filesOf) ∧
        ∀ g ∈ s.perLanguage, g.2 = .ofFiles (s.filesOf (some g.1))) ∧
      ((∀ g ∈ s.perLanguage, g.2.Sums (s.filesOf (some g.1))) ∧
        (GroupStats.ofFiles s.uncategorized).Sums s.uncategorized ∧ s.total.Sums s.files) ∧
      s.total = (s.perLanguage.map (·.2)).sum + .ofFiles s.uncategorized := by
  intro s
  have hfiles : ∀ f ∈ s.files, f.counts.Balanced := by
    intro f hf
    obtain ⟨i, -, rfl⟩ := List.mem_map.1 hf
    exact LineCounts.balanced_ofText i.2.1 i.2.2
  have hgroup : ∀ k, (GroupStats.ofFiles (s.filesOf k)).counts.Balanced := fun k =>
    GroupStats.balanced_ofFiles fun f hf => hfiles f (mem_filesOf.1 hf).1
  refine ⟨⟨hfiles, ?_, hgroup none, GroupStats.balanced_ofFiles hfiles⟩,
    ⟨?_, s.nodup_groups, s.perm_groups, fun _ h => eq_ofFiles_of_mem h⟩,
    ⟨fun _ h => sums_of_mem h, GroupStats.sums_ofFiles _, GroupStats.sums_ofFiles _⟩,
    s.total_eq_sum⟩
  · intro g hg
    rw [eq_ofFiles_of_mem hg]
    exact hgroup (some g.1)
  · intro f hf
    refine ⟨f.language?, ⟨language?_mem_groups hf, mem_filesOf.2 ⟨hf, rfl⟩⟩, ?_⟩
    exact fun k hk => (mem_filesOf.1 hk.2).2.symm

/-- Two files of a language, and one of none. -/
example :
    let s : CodeStats := ⟨[.measure "a/A.cs" "// note\n\nclass A \x7b\x7d\n" (some .csharp),
      .measure "a/B.cs" "class B\n\x7b\n\x7d" (some .csharp), .measure "Makefile" "all:\n\n" none]⟩
    s.perLanguage = [(.csharp, ⟨2, ⟨31, 6, 1, 1⟩⟩)] ∧
      GroupStats.ofFiles s.uncategorized = ⟨1, ⟨6, 2, 1, 0⟩⟩ ∧
      s.total = ⟨3, ⟨37, 8, 2, 1⟩⟩ := by
  decide +kernel

end CodeStats

end Outline
