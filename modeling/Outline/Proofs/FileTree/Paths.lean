import Mathlib.Data.List.DropRight
import Outline.FileTree.Path
import Outline.Proofs.Text.Pieces

/-!
# Components of paths

Two paths are the same path if they have the same components, however they are written.

* `Path.compare_eq_eq` — the order of paths takes exactly the same paths for equal; with the
  instances of `Std.TransCmp` it is a linear order of paths.
* `Path.components_child` — the path of an entry has the name of the entry behind the components
  of the directory.
* `Path.components_of_parent?` — the directory above a path has its components but for the last.
* `Path.components_addExtension` — an extension changes the last component and no other one, so
  that the same path with an extension is the same path (`Path.same_addExtension`).
-/

namespace Outline

/-! ## Joined texts -/

namespace Text

theorem intercalate_concat (sep x y : String) (xs : List String) :
    sep.intercalate (xs ++ [x ++ y]) = sep.intercalate (xs ++ [x]) ++ y := by
  induction xs with
  | nil => simp
  | cons a xs ih =>
      have hcons (z : String) :
          sep.intercalate (a :: (xs ++ [z])) = a ++ sep ++ sep.intercalate (xs ++ [z]) := by
        cases xs <;> simp [String.intercalate_cons_cons]
      rw [List.cons_append, List.cons_append, hcons, hcons, ih]
      simp only [String.append_assoc]

end Text

/-! ## Order -/

namespace PathComponent

theorem compare_eq_compareLex : compare = compareLex (compareOn rank) (compareOn text) := rfl

instance : Std.TransCmp compare := by
  rw [compare_eq_compareLex]
  infer_instance

instance : Std.LawfulEqCmp compare where
  eq_of_compare {a b} h := by
    rw [compare, Ordering.then_eq_eq] at h
    have hrank : a.rank = b.rank := Std.LawfulEqCmp.eq_of_compare h.1
    have htext : a.text = b.text := Std.LawfulEqCmp.eq_of_compare h.2
    cases a <;> cases b <;> first | rfl | simp_all [rank, text]

end PathComponent

namespace Path

theorem compareComponents_eq (as bs : List PathComponent) :
    compareComponents as bs = List.compareLex PathComponent.compare as bs := by
  induction as generalizing bs with
  | nil => cases bs <;> rfl
  | cons a as ih =>
      cases bs with
      | nil => rfl
      | cons b bs =>
          rw [compareComponents, ih, List.compareLex_cons_cons]

theorem compare_eq (p q : Path) :
    p.compare q = List.compareLex PathComponent.compare p.components q.components :=
  compareComponents_eq p.components q.components

/-- The order takes exactly the paths with the same components for equal. -/
theorem compare_eq_eq {p q : Path} : p.compare q = .eq ↔ p.same q = true := by
  rw [compare_eq, Std.LawfulEqCmp.compare_eq_iff_eq, same, beq_iff_eq]

instance : Std.TransCmp compare where
  eq_swap {p q} := by
    rw [compare_eq, compare_eq]
    exact Std.OrientedCmp.eq_swap
  isLE_trans {p q r} := by
    rw [compare_eq, compare_eq, compare_eq]
    exact Std.TransCmp.isLE_trans

theorem same_iff {p q : Path} : p.same q = true ↔ p.components = q.components := by
  rw [same, beq_iff_eq]

theorem same_refl (p : Path) : p.same p = true := same_iff.2 rfl

theorem same_symm {p q : Path} (h : p.same q = true) : q.same p = true :=
  same_iff.2 (same_iff.1 h).symm

theorem same_trans {p q r : Path} (h : p.same q = true) (h' : q.same r = true) :
    p.same r = true :=
  same_iff.2 ((same_iff.1 h).trans (same_iff.1 h'))

/-! ## Names -/

/-- A text that names an entry of a directory. -/
structure IsName (s : String) : Prop where
  /-- It is not empty. -/
  ne_empty : s ≠ ""
  /-- It is not the current directory. -/
  ne_current : s ≠ "."
  /-- It is not the directory above. -/
  ne_parent : s ≠ ".."

instance (s : String) : Decidable (IsName s) :=
  decidable_of_iff (s ≠ "" ∧ s ≠ "." ∧ s ≠ "..")
    ⟨fun h => ⟨h.1, h.2.1, h.2.2⟩, fun h => ⟨h.ne_empty, h.ne_current, h.ne_parent⟩⟩

theorem IsName.innerComponent? {s : String} (h : IsName s) :
    innerComponent? s = some (.name s) := by
  simp [Path.innerComponent?, h.ne_empty, h.ne_current, h.ne_parent]

theorem innerComponent?_eq_name {piece s : String}
    (h : innerComponent? piece = some (.name s)) : piece = s ∧ IsName s := by
  unfold innerComponent? at h
  split at h
  · cases h
  case _ hempty =>
    split at h
    · cases h
    case _ hparent =>
      cases h
      exact ⟨rfl, by simp_all, by simp_all, by simpa using hparent⟩

/-- A name with an extension is a name. -/
theorem IsName.extend {s extension : String} (h : IsName s) (hextension : extension ≠ "") :
    IsName (s ++ "." ++ extension) := by
  have hlong : 3 ≤ (s ++ "." ++ extension).length := by
    have hs : s.length ≠ 0 := by simpa using h.ne_empty
    have he : extension.length ≠ 0 := by simpa using hextension
    have hdot : ".".length = 1 := rfl
    rw [String.length_append, String.length_append, hdot]
    omega
  refine ⟨?_, ?_, ?_⟩ <;>
    · intro heq
      rw [heq] at hlong
      exact absurd hlong (by decide)

/-! ## Marked pieces -/

/-- The component that the first piece stands for, where `alone` says that there is no other. -/
def firstComponent? (first : String) (alone : Bool) : Option PathComponent :=
  if first == "" then (if alone then none else some .root)
  else if first == "." then some .current
  else innerComponent? first

/-- Pieces with the components that they stand for. -/
def marks : List String → List (String × Option PathComponent)
  | [] => []
  | first :: rest => (first, firstComponent? first rest.isEmpty) ::
      rest.map fun piece => (piece, innerComponent? piece)

theorem markedPieces_eq (p : Path) : p.markedPieces = marks (Text.splitAt '/' p.text) := rfl

theorem map_fst_marks (pieces : List String) : (marks pieces).map (·.1) = pieces := by
  cases pieces with
  | nil => rfl
  | cons first rest => simp [marks, Function.comp_def]

theorem firstComponent?_eq_name {first s : String} {alone : Bool}
    (h : firstComponent? first alone = some (.name s)) : first = s ∧ IsName s := by
  unfold firstComponent? at h
  split at h
  · split at h <;> cases h
  · split at h
    · cases h
    · exact innerComponent?_eq_name h

theorem IsName.firstComponent? {s : String} (h : IsName s) (alone : Bool) :
    firstComponent? s alone = some (.name s) := by
  simp [Path.firstComponent?, h.ne_empty, h.ne_current, h.innerComponent?]

/-- A piece that stands for a name is that name. -/
theorem mark_eq_name {pieces : List String} {piece s : String}
    (h : (piece, some (.name s)) ∈ marks pieces) : piece = s ∧ IsName s := by
  cases pieces with
  | nil => cases h
  | cons first rest =>
      cases List.mem_cons.1 h with
      | inl hfirst =>
          obtain ⟨rfl, hcomponent⟩ := Prod.mk.inj hfirst
          exact firstComponent?_eq_name hcomponent.symm
      | inr hrest =>
          obtain ⟨q, -, hq⟩ := List.mem_map.1 hrest
          obtain ⟨rfl, hcomponent⟩ := Prod.mk.inj hq
          exact innerComponent?_eq_name hcomponent

/-- Another name in the place of the last one leaves the components before it alone. -/
theorem marks_concat {before behind : List String} {s next : String}
    {front back : List (String × Option PathComponent)} (hnext : IsName next)
    (h : marks (before ++ s :: behind) = front ++ (s, some (.name s)) :: back)
    (hlength : front.length = before.length) :
    marks (before ++ [next]) = front ++ [(next, some (.name next))] := by
  cases before with
  | nil =>
      rw [List.length_nil, List.length_eq_zero_iff] at hlength
      rw [hlength, List.nil_append, marks, hnext.firstComponent?]
      rfl
  | cons first rest =>
      cases front with
      | nil => cases hlength
      | cons mark front =>
          -- the first piece is not alone with either name
          have halone : (rest ++ s :: behind).isEmpty = (rest ++ [next]).isEmpty := by
            cases rest <;> rfl
          rw [List.cons_append, marks, List.cons_append, List.cons.injEq, List.map_append] at h
          rw [List.cons_append, marks, List.cons_append, List.map_append, ← halone, h.1,
            (List.append_inj h.2 (by simpa using hlength.symm)).1, List.map_singleton,
            hnext.innerComponent?]

/-! ## Entries of a directory -/

/-- If the first piece is not empty, it does not matter whether it is alone. -/
theorem firstComponent?_of_ne {first : String} (h : first ≠ "") (alone alone' : Bool) :
    firstComponent? first alone = firstComponent? first alone' := by
  simp [firstComponent?, h]

/-- Further pieces do not change the components of those before them. -/
theorem marks_append {before : List String} (hne : before ≠ []) (htop : before ≠ [""])
    (behind : List String) :
    marks (before ++ behind) =
      marks before ++ behind.map fun piece => (piece, innerComponent? piece) := by
  cases before with
  | nil => exact absurd rfl hne
  | cons first rest =>
      have hfirst : firstComponent? first (rest ++ behind).isEmpty =
          firstComponent? first rest.isEmpty := by
        cases rest with
        | nil => exact firstComponent?_of_ne (fun h => htop (by rw [h])) _ _
        | cons r rest => rfl
      rw [List.cons_append, marks, marks, hfirst, List.map_append, List.cons_append]

theorem components_eq (p : Path) :
    p.components = (marks (Text.splitAt '/' p.text)).filterMap (·.2) := rfl

/-- A piece that is alone behind a slash. -/
theorem filterMap_marks_concat {before : List String} (hne : before ≠ []) (piece : String) :
    (marks (before ++ [piece])).filterMap (·.2) =
      (marks (before ++ [""])).filterMap (·.2) ++ (innerComponent? piece).toList := by
  cases before with
  | nil => exact absurd rfl hne
  | cons first rest =>
      have halone (s : String) : (rest ++ [s]).isEmpty = false := by simp
      have hempty : innerComponent? "" = none := rfl
      simp only [List.cons_append, marks, halone, List.map_append, List.map_cons, List.map_nil,
        List.filterMap_cons, List.filterMap_append, List.filterMap_nil, hempty, List.append_nil]
      cases firstComponent? first false <;> cases innerComponent? piece <;> simp

theorem slash_toList : "/".toList = ['/'] := rfl

/-- The path of an entry has the name of the entry behind the components of the directory. -/
theorem components_child {p : Path} {s : String} (hs : IsName s) (hslash : '/' ∉ s.toList) :
    (p.child s).components = p.components ++ [.name s] := by
  have hpiece := Text.splitAt_eq_singleton hslash
  have hinner : (innerComponent? s).toList = [.name s] := by rw [hs.innerComponent?]; rfl
  unfold child
  split
  case _ hempty =>
    have hnone : p.components = [] := by
      rw [components_eq, beq_iff_eq.1 hempty]
      rfl
    rw [hnone, components_eq, hpiece, marks, hs.firstComponent?]
    rfl
  case _ hempty =>
    split
    case _ hends =>
      obtain ⟨front, hfront⟩ : ∃ front, front ++ "/" = p.text := by
        obtain ⟨front, hfront⟩ := String.Slice.endsWith_string_iff.1 hends
        exact ⟨String.ofList front, by simpa [← String.toList_inj] using hfront⟩
      have hdirectory : Text.splitAt '/' p.text = Text.splitAt '/' front ++ [""] := by
        have happend := Text.splitAt_append slash_toList front ""
        rwa [hfront, String.append_empty] at happend
      rw [components_eq, components_eq, hdirectory, ← hfront, Text.splitAt_append slash_toList,
        hpiece, filterMap_marks_concat (Text.splitAt_ne_nil '/' front), hinner]
    case _ =>
      have htop : Text.splitAt '/' p.text ≠ [""] := by
        intro htop
        have hjoin := Text.intercalate_splitAt slash_toList p.text
        rw [htop, String.intercalate_singleton] at hjoin
        exact hempty (beq_iff_eq.2 hjoin.symm)
      rw [components_eq, components_eq, Text.splitAt_append slash_toList, hpiece,
        marks_append (Text.splitAt_ne_nil '/' p.text) htop, List.filterMap_append, List.map_singleton, hs.innerComponent?]
      rfl

/-! ## The directory above -/

/-- Pieces with components, up to the last one that stands for a component. -/
abbrev shown (marked : List (String × Option PathComponent)) : List (String × Option PathComponent) :=
  marked.rdropWhile (·.2.isNone)

theorem exists_append_shown (marked : List (String × Option PathComponent)) :
    ∃ back, marked = shown marked ++ back ∧ back.filterMap (·.2) = [] := by
  refine ⟨marked.rtakeWhile (·.2.isNone), List.rdropWhile_append_rtakeWhile.symm, ?_⟩
  refine List.filterMap_eq_nil_iff.2 fun mark hmark => ?_
  simpa using List.mem_rtakeWhile_imp hmark

theorem filterMap_shown (marked : List (String × Option PathComponent)) :
    (shown marked).filterMap (·.2) = marked.filterMap (·.2) := by
  obtain ⟨back, hmarked, hback⟩ := exists_append_shown marked
  have happend := congrArg (List.filterMap (·.2)) hmarked
  rw [List.filterMap_append, hback, List.append_nil] at happend
  exact happend.symm

/-- The last piece that is left stands for a component. -/
theorem shown_cases (marked : List (String × Option PathComponent)) :
    shown marked = [] ∨ ∃ front piece c, shown marked = front ++ [(piece, some c)] := by
  rcases (shown marked).eq_nil_or_concat' with hnil | ⟨front, ⟨piece, component⟩, hshown⟩
  · exact .inl hnil
  · have hlast := List.rdropWhile_last_not (·.2.isNone) marked (by simp [hshown])
    simp only [hshown, List.getLast_append_singleton, Option.isNone_iff_eq_none] at hlast
    obtain ⟨c, rfl⟩ := Option.ne_none_iff_exists'.1 hlast
    exact .inr ⟨front, piece, c, hshown⟩

theorem parent?_eq (p : Path) :
    p.parent? =
      match (shown p.markedPieces).reverse with
      | [] => none
      | (_, some .root) :: _ => none
      | _ :: before => some (ofPieces ((shown before.reverse).map (·.1))) := by
  simp only [shown, List.rdropWhile, List.reverse_reverse]
  rfl

/-- Leading pieces, up to one that stands for a component, make up a path with their
components. -/
theorem components_ofPieces {ps : List String} {front back : List (String × Option PathComponent)}
    (hps : marks ps = shown front ++ back) (hclean : ∀ piece ∈ ps, '/' ∉ piece.toList) :
    (ofPieces ((shown front).map (·.1))).components = front.filterMap (·.2) := by
  have hpieces : ps = (shown front).map (·.1) ++ back.map (·.1) := by
    rw [← List.map_append, ← hps, map_fst_marks]
  rw [← filterMap_shown front]
  rcases shown_cases front with hnil | ⟨before, piece, c, hshown⟩
  · rw [hnil]
    rfl
  rw [hshown] at hps hpieces ⊢
  have hne : (before ++ [(piece, some c)]).map (·.1) ≠ [] := by simp
  by_cases htop : (before ++ [(piece, some c)]).map (·.1) = [""]
  · -- an empty piece that stands for a component stands for the top
    have hbefore : before = [] := by
      have hlength := congrArg List.length htop
      simpa using hlength
    subst hbefore
    rw [htop] at hpieces
    rw [hpieces, List.singleton_append, List.nil_append, List.singleton_append, marks,
      List.cons.injEq, Prod.mk.injEq] at hps
    have hroot : c = .root := by
      have hfirst := hps.1.2
      simp only [firstComponent?] at hfirst
      split at hfirst <;> simp_all
    rw [htop, hroot]
    show (ofPieces [""]).components = [.root]
    decide
  · have hmarks : marks ((before ++ [(piece, some c)]).map (·.1)) = before ++ [(piece, some c)] := by
      rw [hpieces, marks_append hne htop] at hps
      refine (List.append_inj hps ?_).1
      have hlength := congrArg List.length
        (map_fst_marks ((before ++ [(piece, some c)]).map (·.1)))
      simpa using hlength
    have hclean' : ∀ s ∈ (before ++ [(piece, some c)]).map (·.1), '/' ∉ s.toList := fun s hs =>
      hclean s (by rw [hpieces]; exact List.mem_append_left _ hs)
    rw [components_eq, ofPieces, if_neg (by simpa using htop),
      Text.splitAt_intercalate slash_toList hne hclean', hmarks]

/-- The directory above a path has the components of the path but for the last one. -/
theorem components_of_parent? {p q : Path} (h : p.parent? = some q) :
    ∃ c, p.components = q.components ++ [c] := by
  rw [parent?_eq] at h
  rcases shown_cases p.markedPieces with hnil | ⟨front, piece, c, hshown⟩
  · rw [hnil] at h
    cases h
  · have hp : p.components = front.filterMap (·.2) ++ [c] := by
      rw [components, ← filterMap_shown, hshown, List.filterMap_append]
      rfl
    have hq : q = ofPieces ((shown front).map (·.1)) := by
      rw [hshown, List.reverse_append, List.reverse_singleton, List.singleton_append] at h
      cases c with
      | root => cases h
      | _ => exact (Option.some.inj h).symm.trans (by rw [List.reverse_reverse])
    obtain ⟨back, hmarked, -⟩ := exists_append_shown p.markedPieces
    obtain ⟨behind, hfront, -⟩ := exists_append_shown front
    have hps : marks (Text.splitAt '/' p.text) =
        shown front ++ (behind ++ (piece, some c) :: back) := by
      rw [← markedPieces_eq, hmarked, hshown, ← List.append_assoc (shown front), ← hfront,
        List.append_assoc, List.singleton_append]
    refine ⟨c, ?_⟩
    rw [hp, hq, components_ofPieces hps fun s hs => Text.not_mem_of_mem_splitAt hs]

/-- A path without a directory above it has no components or ends at the top. -/
theorem components_of_parent?_eq_none {p : Path} (h : p.parent? = none) :
    p.components = [] ∨ ∃ front, p.components = front ++ [.root] := by
  rw [parent?_eq] at h
  rw [components, ← filterMap_shown]
  rcases shown_cases p.markedPieces with hnil | ⟨front, piece, c, hshown⟩
  · exact .inl (by rw [hnil, List.filterMap_nil])
  · rw [hshown, List.reverse_append, List.reverse_singleton, List.singleton_append] at h
    have hroot : c = .root := by
      split at h <;> simp_all
    rw [hshown, List.filterMap_append, hroot]
    exact .inr ⟨_, rfl⟩

/-- A path without components is empty. -/
theorem text_of_components_eq_nil {p : Path} (h : p.components = []) : p.text = "" := by
  obtain ⟨first, rest, hpieces⟩ := List.exists_cons_of_ne_nil (Text.splitAt_ne_nil '/' p.text)
  rw [components_eq, hpieces, marks, List.filterMap_cons] at h
  have hnone : firstComponent? first rest.isEmpty = none := by
    cases hfirst : firstComponent? first rest.isEmpty with
    | none => rfl
    | some c => simp [hfirst] at h
  have htop : first = "" ∧ rest = [] := by
    simp only [firstComponent?, innerComponent?] at hnone
    split_ifs at hnone <;> simp_all
  rw [← Text.intercalate_splitAt slash_toList p.text, hpieces, htop.1, htop.2]
  rfl

/-- No component is written as nothing. -/
theorem text_ne_empty {p : Path} {c : PathComponent} (h : c ∈ p.components) : c.text ≠ "" := by
  cases c with
  | name s =>
      obtain ⟨⟨piece, component⟩, hmark, hs⟩ := List.mem_filterMap.1 h
      cases hs
      exact (mark_eq_name hmark).2.ne_empty
  | _ => decide

/-! ## Extensions -/

/-- The pieces of a path with a name: only pieces without components stand behind it. -/
theorem exists_marks_of_fileName {p : Path} {s : String} (h : p.fileName? = some s) :
    ∃ front back, p.markedPieces = front ++ (s, some (.name s)) :: back ∧
      (∀ mark ∈ back, mark.2 = none) ∧ IsName s := by
  have hlast : p.components.getLast? = some (.name s) := by
    unfold fileName? at h
    split at h <;> simp_all
  rw [components, List.getLast?_filterMap, List.findSome?_eq_some_iff] at hlast
  obtain ⟨back, mark, front, hmarks, hmark, hback⟩ := hlast
  obtain ⟨piece, component⟩ := mark
  cases hmark
  have hsplit : p.markedPieces = front.reverse ++ (piece, some (.name s)) :: back.reverse := by
    rw [← List.reverse_inj]
    simp [hmarks]
  have hmem : (piece, some (.name s)) ∈ marks (Text.splitAt '/' p.text) := by
    rw [← markedPieces_eq, hsplit]
    simp
  obtain ⟨rfl, hname⟩ := mark_eq_name hmem
  exact ⟨front.reverse, back.reverse, hsplit, by simpa using hback, hname⟩

/-- What stands behind the name is cut off. -/
theorem trimmed_of_marks {p : Path} {s : String} {front back : List (String × Option PathComponent)}
    (h : p.markedPieces = front ++ (s, some (.name s)) :: back) (hs : s ≠ "")
    (hback : ∀ mark ∈ back, mark.2 = none) :
    p.trimmed.text = "/".intercalate (front.map (·.1) ++ [s]) := by
  have hkept : (p.markedPieces.reverse.dropWhile (·.2.isNone)).reverse =
      front ++ [(s, some (.name s))] := by
    rw [h, List.reverse_append, List.reverse_cons, List.append_assoc,
      List.dropWhile_append_of_pos (by simpa using hback)]
    simp
  have htop : front.map (·.1) ++ [s] ≠ [""] := by
    intro htop
    have hmem : s ∈ [""] := by
      rw [← htop]
      simp
    exact hs (List.mem_singleton.1 hmem)
  rw [trimmed, hkept, List.map_append, List.map_singleton, ofPieces]
  simp [htop]

/-- The pieces of a path with an extension. -/
theorem splitAt_addExtension {p : Path} {s extension : String}
    {front back : List (String × Option PathComponent)} (hsome : p.fileName?.isSome = true)
    (h : p.markedPieces = front ++ (s, some (.name s)) :: back) (hs : s ≠ "")
    (hback : ∀ mark ∈ back, mark.2 = none) (hslash : '/' ∉ extension.toList) :
    Text.splitAt '/' (p.addExtension extension).text =
      front.map (·.1) ++ [s ++ "." ++ extension] := by
  have hclean (piece : String) (hmem : piece ∈ p.markedPieces.map (·.1)) :
      '/' ∉ piece.toList := by
    rw [markedPieces_eq, map_fst_marks] at hmem
    exact Text.not_mem_of_mem_splitAt hmem
  rw [addExtension, if_pos hsome, trimmed_of_marks h hs hback, String.append_assoc,
    ← Text.intercalate_concat, ← String.append_assoc]
  refine Text.splitAt_intercalate rfl (by simp) fun piece hmem => ?_
  cases List.mem_append.1 hmem with
  | inl hfront =>
      refine hclean piece ?_
      rw [h, List.map_append]
      exact List.mem_append_left _ hfront
  | inr hlast =>
      have hname := hclean s (by simp [h])
      rw [List.mem_singleton.1 hlast]
      simp [hname, hslash]

/-- An extension changes the last component and no other one. -/
theorem components_addExtension {p : Path} {s extension : String} (h : p.fileName? = some s)
    (hextension : extension ≠ "") (hslash : '/' ∉ extension.toList) :
    (p.addExtension extension).components =
      p.components.dropLast ++ [.name (s ++ "." ++ extension)] := by
  obtain ⟨front, back, hmarks, hback, hname⟩ := exists_marks_of_fileName h
  have hsome : p.fileName?.isSome = true := by rw [h, Option.isSome_some]
  have hmarked : marks (front.map (·.1) ++ s :: back.map (·.1)) =
      front ++ (s, some (.name s)) :: back := by
    rw [← hmarks, markedPieces_eq, ← map_fst_marks (Text.splitAt '/' p.text), ← markedPieces_eq,
      hmarks]
    simp
  have hbehind : back.filterMap (·.2) = [] := List.filterMap_eq_nil_iff.2 hback
  rw [components, components, markedPieces_eq,
    splitAt_addExtension hsome hmarks hname.ne_empty hback hslash,
    marks_concat (hname.extend hextension) hmarked (by simp), hmarks]
  simp [hbehind]

/-- The name belongs to the path and not to its text. -/
theorem fileName?_congr {p q : Path} (h : p.same q = true) : p.fileName? = q.fileName? := by
  rw [fileName?, fileName?, same_iff.1 h]

theorem extension?_congr {p q : Path} (h : p.same q = true) : p.extension? = q.extension? := by
  rw [extension?, extension?, fileName?_congr h]

/-- The same path with an extension is the same path. -/
theorem same_addExtension {p q : Path} {extension : String} (h : p.same q = true)
    (hextension : extension ≠ "") (hslash : '/' ∉ extension.toList) :
    (p.addExtension extension).same (q.addExtension extension) = true := by
  rw [same_iff]
  cases hname : p.fileName? with
  | none =>
      have hname' : q.fileName? = none := (fileName?_congr h).symm.trans hname
      rw [addExtension, addExtension, hname, hname']
      exact same_iff.1 h
  | some s =>
      have hname' : q.fileName? = some s := (fileName?_congr h).symm.trans hname
      rw [components_addExtension hname hextension hslash,
        components_addExtension hname' hextension hslash, same_iff.1 h]

end Path

end Outline
