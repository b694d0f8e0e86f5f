import Outline.FileTree.Basic
import Outline.Run.Basic

/-!
# What is left after files have been written

A run that writes files only adds directories and sets the entries of the files.  So a path that
has led to a place goes on doing so, and a file holds the text that was written to its place last.

* `FileTree.Grows`, `FileTree.Keeps` — what does not change while files are written.
* `FileTree.Grows.locate` — a path goes on leading to the same place.
* `OutputFile.written_writeAll` — which files a run reports.
* `OutputFile.readText_writeAll` — what can be read after the run.
* `OutputFile.exists_writeAll_of_plain` — files that lie in the working directory can be written.
-/

namespace Outline

namespace FileTree

variable {t t' u : FileTree} {place other : Place} {p : Path}

/-! ## Entries -/

@[simp] theorem entry?_nil (t : FileTree) : t.entry? [] = some .directory := rfl

theorem entry?_eq_lookup (t : FileTree) (h : place ≠ []) :
    t.entry? place = t.entries.lookup place := by
  unfold entry?
  rw [if_neg]
  simpa using h

/-- An entry that is put behind all others, without the one of the same place. -/
theorem lookup_concat (es : List (Place × FileEntry)) (place : Place) (entry : FileEntry)
    (other : Place) :
    (es.filter (·.1 != place) ++ [(place, entry)]).lookup other =
      if other = place then some entry else es.lookup other := by
  induction es with
  | nil =>
      by_cases hother : other = place
      · simp [hother]
      · rw [if_neg hother, List.filter_nil, List.nil_append, List.lookup_cons,
          beq_eq_false_iff_ne.2 hother]
  | cons e es ih =>
      by_cases he : e.1 = place
      · rw [List.filter_cons_of_neg (by simp [he]), ih]
        by_cases hother : other = place
        · rw [if_pos hother, if_pos hother]
        · rw [if_neg hother, if_neg hother, List.lookup_cons, he, beq_eq_false_iff_ne.2 hother]
      · rw [List.filter_cons_of_pos (by simp [he]), List.cons_append, List.lookup_cons, ih,
          List.lookup_cons]
        by_cases hother : other = e.1
        · have hplace : other ≠ place := fun h => he (hother.symm.trans h)
          rw [beq_iff_eq.2 hother]
          exact (if_neg hplace).symm
        · rw [beq_eq_false_iff_ne.2 hother]

/-- The entries after one has been set. -/
theorem entry?_setEntry (t : FileTree) (entry : FileEntry) (h : place ≠ []) (other : Place) :
    FileTree.entry? (t.setEntry place entry) other =
      if other = place then some entry else t.entry? other := by
  by_cases hnil : other = []
  · subst hnil
    rw [if_neg (Ne.symm h), entry?_nil, entry?_nil]
  · rw [entry?_eq_lookup _ hnil, entry?_eq_lookup _ hnil, setEntry]
    exact lookup_concat t.entries place entry other

/-! ## What does not change -/

/-- The directories of a tree are directories of another one, in which relative paths start at the
same place. -/
structure Grows (t t' : FileTree) : Prop where
  /-- Relative paths start at the same place. -/
  workingDirectory : t'.workingDirectory = t.workingDirectory
  /-- Directories are kept. -/
  directory : ∀ place, t.entry? place = some .directory → t'.entry? place = some .directory

/-- All entries of a tree are entries of another one, in which relative paths start at the same
place. -/
structure Keeps (t t' : FileTree) : Prop where
  /-- Relative paths start at the same place. -/
  workingDirectory : t'.workingDirectory = t.workingDirectory
  /-- Entries are kept. -/
  entry : ∀ place entry, t.entry? place = some entry → t'.entry? place = some entry

theorem Keeps.grows (h : t.Keeps t') : t.Grows t' :=
  ⟨h.workingDirectory, fun place => h.entry place .directory⟩

theorem Keeps.refl (t : FileTree) : t.Keeps t := ⟨rfl, fun _ _ h => h⟩

theorem Keeps.trans (h : t.Keeps t') (h' : t'.Keeps u) : t.Keeps u :=
  ⟨h'.workingDirectory.trans h.workingDirectory,
    fun place entry hentry => h'.entry place entry (h.entry place entry hentry)⟩

theorem Grows.refl (t : FileTree) : t.Grows t := (Keeps.refl t).grows

theorem Grows.trans (h : t.Grows t') (h' : t'.Grows u) : t.Grows u :=
  ⟨h'.workingDirectory.trans h.workingDirectory,
    fun place hdirectory => h'.directory place (h.directory place hdirectory)⟩

/-! ## Paths -/

theorem requireDirectory_eq_ok :
    t.requireDirectory place = .ok () ↔ t.entry? place = some .directory := by
  unfold requireDirectory
  split <;> simp_all

/-- A path that can be followed leads to the same place. -/
theorem Grows.follow (h : t.Grows t') {steps : List PathComponent}
    (hfollow : t.follow place steps = .ok other) : t'.follow place steps = .ok other := by
  induction steps generalizing place with
  | nil => exact hfollow
  | cons step steps ih =>
      -- apart from the top, a step starts in a directory
      have hstep {next : Place} (hfollow :
          (t.requireDirectory place >>= fun _ => t.follow next steps) = .ok other) :
          (t'.requireDirectory place >>= fun _ => t'.follow next steps) = .ok other := by
        cases hdirectory : t.requireDirectory place with
        | error e =>
            rw [hdirectory] at hfollow
            cases hfollow
        | ok _ =>
            rw [hdirectory] at hfollow
            have hkept := h.directory place (requireDirectory_eq_ok.1 hdirectory)
            rw [requireDirectory_eq_ok.2 hkept]
            exact ih hfollow
      cases step with
      | root => exact ih hfollow
      | current => exact hstep hfollow
      | parent => exact hstep hfollow
      | name s => exact hstep hfollow

/-- A path goes on leading to the same place. -/
theorem Grows.locate (h : t.Grows t') (hlocate : t.locate p = .ok place) :
    t'.locate p = .ok place := by
  unfold FileTree.locate at hlocate ⊢
  by_cases hempty : (p.text == "") = true
  · simp only [hempty, if_true] at hlocate
    cases hlocate
  · simp only [hempty] at hlocate ⊢
    cases hfollow : t.follow t.workingDirectory p.components with
    | error e =>
        rw [hfollow] at hlocate
        cases hlocate
    | ok found =>
        rw [hfollow] at hlocate
        rw [h.workingDirectory, h.follow hfollow]
        by_cases hbehind : (p.trimmed != p) = true
        · simp only [hbehind, if_true] at hlocate ⊢
          cases hdirectory : t.requireDirectory found with
          | error e =>
              simp only [hdirectory, bind, Except.bind] at hlocate
              cases hlocate
          | ok _ =>
              have hkept := h.directory found (requireDirectory_eq_ok.1 hdirectory)
              simp only [hdirectory, bind, Except.bind, pure, Except.pure] at hlocate
              simp only [requireDirectory_eq_ok.2 hkept, bind, Except.bind, pure, Except.pure]
              exact hlocate
        · simp only [hbehind] at hlocate ⊢
          exact hlocate

/-! ## Steps -/

/-- A new entry is added to the others. -/
theorem keeps_setEntry (entry : FileEntry) (h : t.entry? place = none) :
    t.Keeps (t.setEntry place entry) := by
  have hplace : place ≠ [] := by
    rintro rfl
    simp at h
  refine ⟨rfl, fun other kept hother => ?_⟩
  rw [entry?_setEntry t entry hplace, if_neg]
  · exact hother
  · rintro rfl
    rw [h] at hother
    cases hother

theorem keeps_createDirectory (h : t.createDirectory p = .ok t') : t.Keeps t' := by
  unfold createDirectory at h
  cases hlocate : t.locate p.trimmed with
  | error e =>
      rw [hlocate] at h
      cases h
  | ok place =>
      simp only [hlocate, bind, Except.bind, pure, Except.pure] at h
      split at h
      · cases h
        exact Keeps.refl t
      · cases h
      case _ hfree =>
        cases h
        exact keeps_setEntry .directory hfree

theorem keeps_createUpTo {levels : Nat} (h : t.createUpTo levels p = .ok t') : t.Keeps t' := by
  induction levels generalizing p t' with
  | zero =>
      unfold createUpTo at h
      split at h
      · cases h
        exact Keeps.refl t
      · split at h
        case _ hlevels _ => cases hlevels
        · exact keeps_createDirectory h
  | succ levels ih =>
      unfold createUpTo at h
      split at h
      · cases h
        exact Keeps.refl t
      · split at h
        case _ hmissing hlevels hparent =>
          cases hlevels
          -- the directory above is made first
          cases habove : t.createUpTo levels _ with
          | error e =>
              rw [habove] at h
              cases h
          | ok u =>
              simp only [habove, bind, Except.bind] at h
              exact (ih habove).trans (keeps_createDirectory h)
        · exact keeps_createDirectory h

/-- Creating directories adds entries. -/
theorem keeps_createDirectories (h : t.createDirectories p = .ok t') : t.Keeps t' :=
  keeps_createUpTo h

/-- A file that is written is set at the place to which its path leads. -/
theorem exists_of_write {bytes : ByteArray} (h : t.write p bytes = .ok t') :
    ∃ place, t.locate p = .ok place ∧ t.entry? place ≠ some .directory ∧
      t' = t.setEntry place (.file bytes) := by
  unfold write at h
  split at h
  · cases h
  · cases hlocate : t.locate p with
    | error e =>
        rw [hlocate] at h
        cases h
    | ok place =>
        simp only [hlocate, bind, Except.bind, pure, Except.pure] at h
        split at h
        · cases h
        case _ hentry =>
          cases h
          exact ⟨place, rfl, hentry, rfl⟩

/-- Writing a file keeps the directories. -/
theorem grows_setEntry {bytes : ByteArray} (h : t.entry? place ≠ some .directory) :
    t.Grows (t.setEntry place (.file bytes)) := by
  have hplace : place ≠ [] := by
    rintro rfl
    exact h rfl
  refine ⟨rfl, fun other hother => ?_⟩
  rw [entry?_setEntry t _ hplace, if_neg]
  · exact hother
  · rintro rfl
    exact h hother

/-- The text of a file whose bytes are known. -/
theorem readText_of_entry {text : String} (hlocate : t.locate p = .ok place)
    (hentry : t.entry? place = some (.file text.toUTF8)) : t.readText p = .ok text := by
  have hbytes : t.readBytes p = .ok text.toUTF8 := by
    simp [readBytes, lookup, hlocate, hentry, bind, Except.bind, pure, Except.pure]
  have htext : String.fromUTF8? text.toUTF8 = some text := by
    unfold String.fromUTF8?
    rw [String.toUTF8_eq_toByteArray, dif_pos text.isValidUTF8]
    rfl
  simp only [readText, hbytes, htext, bind, Except.bind, pure, Except.pure]

end FileTree

namespace OutputFile

variable {t t' : FileTree} {printer : Printer} {style : OutputStyle} {f : OutputFile}
  {fs : List OutputFile} {written : List WrittenFile}

/-! ## One file -/

/-- A file is printed, and its text is written behind directories that have been added. -/
theorem exists_of_write (h : f.write t printer style = (t', .ok ())) :
    ∃ text u place, f.printed printer style = .ok text ∧ t.Keeps u ∧
      u.locate f.path = .ok place ∧ u.entry? place ≠ some .directory ∧
      t' = u.setEntry place (.file text.toUTF8) := by
  unfold write at h
  split at h
  · cases h
  case _ text htext =>
    simp only at h
    split at h
    · cases h
    case _ u hdirectories =>
      split at h
      · cases h
      case _ hwrite =>
        cases h
        obtain ⟨place, hlocate, hentry, rfl⟩ := FileTree.exists_of_write hwrite
        exact ⟨text, u, place, htext, FileTree.keeps_createDirectories hdirectories, hlocate,
          hentry, rfl⟩

theorem grows_write (h : f.write t printer style = (t', .ok ())) : t.Grows t' := by
  obtain ⟨text, u, place, -, hkeeps, -, hentry, rfl⟩ := exists_of_write h
  exact hkeeps.grows.trans (FileTree.grows_setEntry hentry)

/-- The place that has been written. -/
theorem exists_entry_of_write (h : f.write t printer style = (t', .ok ())) :
    ∃ text place, f.printed printer style = .ok text ∧ t'.locate f.path = .ok place ∧
      t'.entry? place = some (.file text.toUTF8) := by
  obtain ⟨text, u, place, htext, -, hlocate, hentry, rfl⟩ := exists_of_write h
  have hplace : place ≠ [] := by
    rintro rfl
    exact hentry rfl
  refine ⟨text, place, htext, (FileTree.grows_setEntry hentry).locate hlocate, ?_⟩
  rw [FileTree.entry?_setEntry _ _ hplace, if_pos rfl]

/-- Other places are not touched. -/
theorem entry?_write {place : Place} {entry : FileEntry}
    (h : f.write t printer style = (t', .ok ())) (hplace : t'.locate f.path ≠ .ok place)
    (hentry : t.entry? place = some entry) : t'.entry? place = some entry := by
  obtain ⟨text, u, target, -, hkeeps, hlocate, hfree, rfl⟩ := exists_of_write h
  have htarget : target ≠ [] := by
    rintro rfl
    exact hfree rfl
  have hgrows : u.Grows (u.setEntry target (.file text.toUTF8)) := FileTree.grows_setEntry hfree
  rw [FileTree.entry?_setEntry _ _ htarget, if_neg]
  · exact hkeeps.entry place entry hentry
  · rintro rfl
    exact hplace (hgrows.locate hlocate)

/-! ## All files -/

/-- The steps of a run that succeeds. -/
theorem writeAll_cons (h : writeAll t printer style (f :: fs) = (t', .ok written)) :
    ∃ u rest, f.write t printer style = (u, .ok ()) ∧ writeAll u printer style fs = (t', .ok rest) ∧
      written = ⟨f.path, f.declarations.size⟩ :: rest := by
  unfold writeAll at h
  split at h
  · cases h
  case _ u hwrite =>
    cases hrest : writeAll u printer style fs with
    | mk v result =>
        rw [hrest] at h
        cases result with
        | error e => cases h
        | ok rest =>
            cases h
            exact ⟨u, rest, hwrite, hrest, rfl⟩

/-- The files are reported in order. -/
theorem written_writeAll (h : writeAll t printer style fs = (t', .ok written)) :
    written = fs.map fun f => ⟨f.path, f.declarations.size⟩ := by
  induction fs generalizing t written with
  | nil =>
      cases h
      rfl
  | cons f fs ih =>
      obtain ⟨u, rest, -, hrest, rfl⟩ := writeAll_cons h
      rw [ih hrest, List.map_cons]

theorem grows_writeAll (h : writeAll t printer style fs = (t', .ok written)) : t.Grows t' := by
  induction fs generalizing t written with
  | nil =>
      cases h
      exact FileTree.Grows.refl _
  | cons f fs ih =>
      obtain ⟨u, rest, hwrite, hrest, -⟩ := writeAll_cons h
      exact (grows_write hwrite).trans (ih hrest)

/-- Places to which none of the paths leads are not touched. -/
theorem entry?_writeAll {place : Place} {entry : FileEntry}
    (h : writeAll t printer style fs = (t', .ok written))
    (hplace : ∀ f ∈ fs, t'.locate f.path ≠ .ok place) (hentry : t.entry? place = some entry) :
    t'.entry? place = some entry := by
  induction fs generalizing t written with
  | nil =>
      cases h
      exact hentry
  | cons f fs ih =>
      obtain ⟨u, rest, hwrite, hrest, -⟩ := writeAll_cons h
      refine ih hrest (fun g hg => hplace g (List.mem_cons_of_mem f hg)) ?_
      refine entry?_write hwrite (fun hlocate => ?_) hentry
      exact hplace f List.mem_cons_self ((grows_writeAll hrest).locate hlocate)

/-- A file holds what has been printed for it, unless a later path leads to the same place. -/
theorem readText_writeAll {front back : List OutputFile}
    (h : writeAll t printer style (front ++ f :: back) = (t', .ok written))
    (hback : ∀ g ∈ back, t'.locate g.path ≠ t'.locate f.path) :
    ∃ text, f.printed printer style = .ok text ∧ t'.readText f.path = .ok text := by
  induction front generalizing t written with
  | nil =>
      obtain ⟨u, rest, hwrite, hrest, -⟩ := writeAll_cons h
      obtain ⟨text, place, htext, hlocate, hentry⟩ := exists_entry_of_write hwrite
      have hlocate' := (grows_writeAll hrest).locate hlocate
      refine ⟨text, htext,
        FileTree.readText_of_entry hlocate' (entry?_writeAll hrest (fun g hg => ?_) hentry)⟩
      rw [← hlocate']
      exact hback g hg
  | cons g front ih =>
      obtain ⟨u, rest, -, hrest, -⟩ := writeAll_cons h
      exact ih hrest

end OutputFile

/-! ## Files in the working directory -/

/-- A path that is written as a name. -/
structure Path.Plain (p : Path) (s : String) : Prop where
  /-- It is not empty. -/
  nonempty : p.text ≠ ""
  /-- It has one component. -/
  components : p.components = [.name s]
  /-- The entry lies in the working directory. -/
  parent : p.parent? = some ⟨""⟩
  /-- Nothing stands behind the name. -/
  trimmed : p.trimmed = p
  /-- It does not ask for a directory. -/
  last : p.text.toList.getLast? ≠ some '/'

namespace FileTree

variable {t : FileTree} {p q : Path} {s : String}

theorem locate_plain (hp : p.Plain s) (h : t.entry? t.workingDirectory = some .directory) :
    t.locate p = .ok (t.workingDirectory ++ [s]) := by
  have hfollow : t.follow t.workingDirectory p.components = .ok (t.workingDirectory ++ [s]) := by
    simp [hp.components, follow, requireDirectory, h, bind, Except.bind]
  simp [locate, hp.nonempty, hp.trimmed, hfollow, bind, Except.bind, pure, Except.pure]

/-- Plain paths to the same place are the same path. -/
theorem same_of_locate_plain {r : String} (hp : p.Plain s) (hq : q.Plain r)
    (h : t.entry? t.workingDirectory = some .directory) (hlocate : t.locate p = t.locate q) :
    p.same q = true := by
  rw [locate_plain hp h, locate_plain hq h] at hlocate
  have hs : s = r := by simpa using Except.ok.inj hlocate
  rw [Path.same, hp.components, hq.components, hs, beq_self_eq_true]

end FileTree

namespace OutputFile

variable {t : FileTree} {printer : Printer} {style : OutputStyle} {f : OutputFile}
  {s text : String}

theorem write_plain (htext : f.printed printer style = .ok text) (hf : f.path.Plain s)
    (h : t.entry? t.workingDirectory = some .directory)
    (hfree : t.entry? (t.workingDirectory ++ [s]) ≠ some .directory) :
    f.write t printer style =
      (t.setEntry (t.workingDirectory ++ [s]) (.file text.toUTF8), .ok ()) := by
  have hdirectories : t.createDirectories ⟨""⟩ = .ok t := by
    unfold FileTree.createDirectories FileTree.createUpTo
    rfl
  have hwrite : t.write f.path text.toUTF8 =
      .ok (t.setEntry (t.workingDirectory ++ [s]) (.file text.toUTF8)) := by
    unfold FileTree.write
    rw [FileTree.locate_plain hf h]
    cases hentry : t.entry? (t.workingDirectory ++ [s]) with
    | none => simp [hf.last, hentry, bind, Except.bind, pure, Except.pure]
    | some entry =>
        cases entry with
        | directory => exact absurd hentry hfree
        | file bytes => simp [hf.last, hentry, bind, Except.bind, pure, Except.pure]
  unfold write
  simp only [htext, hf.parent, Option.getD_some, hdirectories, hwrite]

/-- Files with plain paths and with texts can be written where no directories have their names. -/
theorem exists_writeAll_of_plain {fs : List OutputFile}
    (htexts : ∀ f ∈ fs, ∃ text, f.printed printer style = .ok text)
    (hfs : ∀ f ∈ fs, ∃ s, f.path.Plain s ∧
      t.entry? (t.workingDirectory ++ [s]) ≠ some .directory)
    (h : t.entry? t.workingDirectory = some .directory) :
    ∃ t', writeAll t printer style fs =
      (t', .ok (fs.map fun f => ⟨f.path, f.declarations.size⟩)) := by
  induction fs generalizing t with
  | nil => exact ⟨t, rfl⟩
  | cons f fs ih =>
      obtain ⟨text, htext⟩ := htexts f List.mem_cons_self
      obtain ⟨s, hf, hfree⟩ := hfs f List.mem_cons_self
      let u := t.setEntry (t.workingDirectory ++ [s]) (.file text.toUTF8)
      have hwrite : f.write t printer style = (u, .ok ()) := write_plain htext hf h hfree
      have hgrows := grows_write hwrite
      have hlater : ∀ g ∈ fs, ∃ r, g.path.Plain r ∧
          u.entry? (u.workingDirectory ++ [r]) ≠ some .directory := by
        intro g hg
        obtain ⟨r, hr, hrfree⟩ := hfs g (List.mem_cons_of_mem f hg)
        refine ⟨r, hr, ?_⟩
        rw [hgrows.workingDirectory, FileTree.entry?_setEntry _ _ (by simp)]
        split
        · simp
        · exact hrfree
      have hdirectory : u.entry? u.workingDirectory = some .directory := by
        rw [hgrows.workingDirectory]
        exact hgrows.directory _ h
      obtain ⟨t', hrest⟩ := ih (fun g hg => htexts g (List.mem_cons_of_mem f hg)) hlater hdirectory
      refine ⟨t', ?_⟩
      unfold writeAll
      rw [hwrite]
      simp only [hrest]
      rfl

end OutputFile

end Outline
