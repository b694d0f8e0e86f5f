import Outline.Proofs.Relayout.Matching
import Outline.Proofs.TypeRef.Spelled

/-!
# Spaces inside type arguments

A list of type arguments is part of an identifier, and only spaces may stand inside it.  Where runs
of spaces are replaced by runs of spaces, a list stays one; any other change of the layout must stay
out of the lists.

* `Respaced` — two texts that differ in the lengths of runs of spaces.
* `IdentifierStyle.respects_scanList` — in both texts a list is read.
* `IdentifierStyle.scan_relaid` — identifiers in two layouts of a text.
-/

namespace Outline

open Text (isBlank)

variable {allowed : Nat → List Char → Nat → List Char → Prop} {p q n : Nat} {cs ds : List Char}

/-! ## Texts with other spaces -/

/-- A run of spaces may become another one. -/
def Spaced (_ : Nat) (b : List Char) (_ : Nat) (b' : List Char) : Prop :=
  (∀ c ∈ b, c = ' ') ∧ ∀ c ∈ b', c = ' '

/-- Two texts that differ in the lengths of runs of spaces. -/
def Respaced (cs ds : List Char) : Prop := ∀ p q, Relaid Spaced p cs q ds

theorem Relaid.respaced (h : Relaid Spaced p cs q ds) : Respaced cs ds := by
  induction h with
  | nil => exact fun p q => .nil p q
  | keep c _ ih => exact fun p q => .keep c (ih _ _)
  | replace old new ok _ ih => exact fun p q => .replace old new ok (ih _ _)

theorem drop_length_takeWhile {α : Type} (f : α → Bool) (xs : List α) :
    xs.drop (xs.takeWhile f).length = xs.dropWhile f := by
  have hdrop : (xs.takeWhile f ++ xs.dropWhile f).drop (xs.takeWhile f).length = xs.dropWhile f :=
    List.drop_left
  rwa [List.takeWhile_append_dropWhile] at hdrop

namespace Respaced

theorem refl (cs : List Char) : Respaced cs cs := fun p q => Relaid.refl p q cs

theorem symm (h : Respaced cs ds) : Respaced ds cs :=
  fun q p => (h p q).symm.mono fun _ _ _ _ _ _ hok => ⟨hok.2, hok.1⟩

theorem append {cs' ds' : List Char} (h : Respaced cs ds) (h' : Respaced cs' ds') :
    Respaced (cs ++ cs') (ds ++ ds') := by
  intro p q
  have hrelaid := h p q
  clear h
  induction hrelaid with
  | nil p q => exact h' p q
  | keep c _ ih => exact .keep c ih
  | replace old new ok _ ih =>
      rw [List.append_assoc, List.append_assoc]
      exact .replace old new ok ih

theorem eq_nil (h : Respaced [] ds) : ds = [] := (h 0 0).eq_nil

theorem exists_cons {c : Char} (hc : isBlank c = false) (h : Respaced (c :: cs) ds) :
    ∃ rest, ds = c :: rest ∧ Respaced cs rest := by
  obtain ⟨rest, rfl, hrest⟩ := (h 0 0).exists_cons hc
  exact ⟨rest, rfl, hrest.respaced⟩

/-- Where one text has a space, so has the other. -/
theorem head?_space (h : Respaced cs ds) (hcs : cs.head? = some ' ') : ds.head? = some ' ' := by
  have h := h 0 0
  obtain ⟨cs, rfl⟩ := List.head?_eq_some_iff.1 hcs
  generalize hxs : ' ' :: cs = xs at h
  cases h with
  | nil => cases hxs
  | keep c tail => cases hxs; rfl
  | replace old new ok =>
      obtain ⟨c, rest, rfl, -, -⟩ := new.exists_cons
      rw [ok.2 c (by simp)]
      rfl

/-- The spaces at the front. -/
theorem dropSpaces (h : Respaced cs ds) :
    Respaced (cs.drop (IdentifierStyle.spaces cs)) (ds.drop (IdentifierStyle.spaces ds)) := by
  rw [IdentifierStyle.spaces, IdentifierStyle.spaces, drop_length_takeWhile, drop_length_takeWhile]
  obtain ⟨p, q, hrelaid⟩ : ∃ p q, Relaid Spaced p cs q ds := ⟨0, 0, h 0 0⟩
  clear h
  induction hrelaid with
  | nil => exact .refl []
  | @keep c p q cs ds tail ih =>
      by_cases hc : c = ' '
      · simpa [List.dropWhile_cons, hc] using ih
      · simpa [List.dropWhile_cons, hc] using (Relaid.keep c tail).respaced
  | replace old new ok _ ih =>
      rw [List.dropWhile_append_of_pos fun c hc => beq_iff_eq.2 (ok.1 c hc),
        List.dropWhile_append_of_pos fun c hc => beq_iff_eq.2 (ok.2 c hc)]
      exact ih

/-- Characters at the front that are not blank. -/
theorem drop_solid (h : Respaced cs ds) (hn : n ≤ cs.length)
    (hsolid : ∀ c ∈ cs.take n, isBlank c = false) : Respaced (cs.drop n) (ds.drop n) :=
  ((h 0 0).split_solid hn hsolid).2.respaced

end Respaced

/-! ## Scanners -/

/-- A scanner that reads the same where runs of spaces are replaced by runs of spaces. -/
def Respects (scan : List Char → Option Nat) : Prop :=
  ∀ cs ds n, Respaced cs ds → scan cs = some n →
    ∃ m, scan ds = some m ∧ Respaced (cs.drop n) (ds.drop m)

theorem Respects.eq_none {scan : List Char → Option Nat} (h : Respects scan) (hr : Respaced cs ds)
    (hnone : scan cs = none) : scan ds = none := by
  cases hm : scan ds with
  | none => rfl
  | some m =>
      obtain ⟨n, hn, -⟩ := h ds cs m hr.symm hm
      rw [hnone] at hn
      cases hn

namespace IdentifierStyle

variable {style : IdentifierStyle}

theorem drop_of_drop_cons {c : Char} {rest : List Char} {i : Nat} (h : cs.drop i = c :: rest)
    (k : Nat) : cs.drop (i + (1 + k)) = rest.drop k := by
  rw [← List.drop_drop, h, Nat.add_comm 1 k, List.drop_succ_cons]

theorem respects_scanDotted (hs : style.SolidMarks) : Respects style.scanDotted := by
  intro cs ds n h hn
  refine ⟨n, by rw [scanDotted_relaid hs (h 0 0), hn], ?_⟩
  exact h.drop_solid (bounded_scanDotted style cs n hn) (solid_scanDotted hs cs n hn)

theorem respects_scanArguments {arg : List Char → Option Nat} (harg : Respects arg) :
    Respects (scanArguments arg) := by
  intro cs ds n h hn
  induction hlen : cs.length using Nat.strong_induction_on generalizing cs ds n with
  | _ len ih =>
  subst hlen
  rw [scanArguments_eq, Option.bind_eq_some_iff] at hn
  obtain ⟨i, hi, hn⟩ := hn
  obtain ⟨j, hj, hbehind⟩ := harg cs ds i h hi
  -- the argument and the spaces behind it
  have hmark := hbehind.dropSpaces
  rw [List.drop_drop, List.drop_drop] at hmark
  rw [scanArguments_eq, hj, Option.bind_some]
  generalize hcs : cs.drop (i + spaces (cs.drop i)) = xs at hn hmark
  generalize i + spaces (cs.drop i) = i at hn hcs
  generalize j + spaces (ds.drop j) = j at hmark ⊢
  split at hn
  · rename_i rest
    obtain ⟨k, hk, rfl⟩ := Option.map_eq_some_iff.1 hn
    obtain ⟨rest', hds, hrest⟩ := hmark.exists_cons (by decide)
    have hshort : (rest.drop (spaces rest)).length < cs.length := by
      have hlen := congrArg List.length hcs
      rw [List.length_drop, List.length_cons] at hlen
      rw [List.length_drop]
      omega
    obtain ⟨k', hk', hlast⟩ := ih _ hshort _ _ _ hrest.dropSpaces hk rfl
    rw [hds]
    refine ⟨j + 1 + spaces rest' + k', by simp only [hk', Option.map_some], ?_⟩
    rw [List.drop_drop, List.drop_drop] at hlast
    rw [Nat.add_assoc (i + 1), Nat.add_assoc i, drop_of_drop_cons hcs, Nat.add_assoc (j + 1),
      Nat.add_assoc j, drop_of_drop_cons hds]
    exact hlast
  · rename_i rest
    cases hn
    obtain ⟨rest', hds, hrest⟩ := hmark.exists_cons (by decide)
    rw [hds]
    exact ⟨j + 1, rfl, by rwa [← Nat.add_zero 1, drop_of_drop_cons hcs, drop_of_drop_cons hds]⟩
  · cases hn

theorem respects_scanBrackets {arg : List Char → Option Nat} (harg : Respects arg) :
    Respects (scanBrackets arg) := by
  intro cs ds n h hn
  obtain ⟨rest, k, rfl, hk, rfl⟩ := exists_cons_of_scanBrackets hn
  obtain ⟨rest', rfl, hrest⟩ := h.exists_cons (by decide)
  obtain ⟨k', hk', hlast⟩ := respects_scanArguments harg _ _ _ hrest.dropSpaces hk
  refine ⟨1 + spaces rest' + k', by rw [scanBrackets_cons, hk', Option.map_some], ?_⟩
  rw [List.drop_drop, List.drop_drop] at hlast
  rw [Nat.add_assoc, Nat.add_assoc, Nat.add_comm 1, Nat.add_comm 1, List.drop_succ_cons,
    List.drop_succ_cons]
  exact hlast

/-! ### Wildcards -/

theorem isPrefixOf_boundMark {keyword : String} (h : Respaced cs ds)
    (hsolid : ∀ c ∈ keyword.toList, isBlank c = false)
    (hcs : (boundMark keyword).isPrefixOf cs = true) :
    (boundMark keyword).isPrefixOf ds = true ∧
      Respaced (cs.drop keyword.length) (ds.drop keyword.length) := by
  obtain ⟨rest, rfl⟩ := List.isPrefixOf_iff_prefix.1 hcs
  rw [boundMark, List.append_assoc] at h
  have hword : keyword.toList.isPrefixOf (keyword.toList ++ ([' '] ++ rest)) = true :=
    List.isPrefixOf_iff_prefix.2 (List.prefix_append _ _)
  have hword' := (h 0 0).isPrefixOf_eq hsolid
  rw [hword, List.isPrefixOf_iff_prefix] at hword'
  obtain ⟨rest', rfl⟩ := hword'
  have hbehind := h.drop_solid (n := keyword.toList.length) (by simp) (by rwa [List.take_left])
  rw [String.length_toList] at hbehind
  rw [boundMark, List.append_assoc]
  refine ⟨?_, hbehind⟩
  rw [← String.length_toList, List.drop_left, List.drop_left] at hbehind
  obtain ⟨rest', rfl⟩ := List.head?_eq_some_iff.1 (hbehind.head?_space rfl)
  exact List.isPrefixOf_iff_prefix.2 ⟨rest', by simp⟩

/-- The keywords of bounds hold no blank characters. -/
theorem solid_of_mem_keywords {keyword : String} (h : keyword ∈ ["extends", "super"]) :
    ∀ c ∈ keyword.toList, isBlank c = false := by
  simp only [List.mem_cons, List.not_mem_nil, or_false] at h
  rcases h with rfl | rfl <;> exact Text.solid_of_all (by decide +kernel)

theorem scanBound_respaced {type : List Char → Option Nat} (htype : Respects type)
    {keyword : String} (hsolid : ∀ c ∈ keyword.toList, isBlank c = false) (h : Respaced cs ds) :
    (scanBound type keyword cs = none → scanBound type keyword ds = none) ∧
      ∀ n, scanBound type keyword cs = some (some n) →
        ∃ m, scanBound type keyword ds = some (some m) ∧ Respaced (cs.drop n) (ds.drop m) := by
  rw [scanBound_eq, scanBound_eq]
  constructor
  · intro hnone
    rw [if_neg]
    intro hds
    rw [if_pos (isPrefixOf_boundMark h.symm hsolid hds).1] at hnone
    cases hnone
  · intro n hn
    split at hn
    · rename_i hcs
      obtain ⟨k, hk, rfl⟩ := Option.map_eq_some_iff.1 (Option.some.inj hn)
      obtain ⟨hds, hbehind⟩ := isPrefixOf_boundMark h hsolid hcs
      have hbound := hbehind.dropSpaces
      rw [List.drop_drop, List.drop_drop] at hbound
      obtain ⟨k', hk', hlast⟩ := htype _ _ _ hbound hk
      rw [List.drop_drop, List.drop_drop] at hlast
      exact ⟨_, by rw [if_pos hds, hk', Option.map_some], hlast⟩
    · cases hn

theorem respects_scanArgument {type : List Char → Option Nat} (htype : Respects type) :
    Respects (style.scanArgument type) := by
  intro cs ds n h hn
  by_cases hwild : style.wildcards = true ∧ cs.head? = some '?'
  case neg =>
    have hwild' : ¬ (style.wildcards = true ∧ ds.head? = some '?') := by
      rintro ⟨hw, hds⟩
      exact hwild ⟨hw, ((h 0 0).head?_eq_some (by decide)).1 hds⟩
    rw [scanArgument_plain hwild] at hn
    rw [scanArgument_plain hwild']
    exact htype cs ds n h hn
  obtain ⟨hw, hhead⟩ := hwild
  obtain ⟨cs, rfl⟩ := List.head?_eq_some_iff.1 hhead
  obtain ⟨ds, rfl, htail⟩ := h.exists_cons (by decide)
  have hbehind := htail.dropSpaces
  have hbound := fun (keyword : String) hmem =>
    scanBound_respaced htype (solid_of_mem_keywords hmem : ∀ c ∈ keyword.toList, _) hbehind
  rcases exists_of_scanArgument hw hn with ⟨keyword, hmem, k, hk, rfl⟩ | ⟨hnone, rfl⟩
  · obtain ⟨k', hk', hlast⟩ := (hbound keyword hmem).2 k hk
    refine ⟨_, scanArgument_of_bound hw hmem hk', ?_⟩
    rw [List.drop_drop, List.drop_drop] at hlast
    rw [Nat.add_assoc, Nat.add_assoc, Nat.add_comm 1, Nat.add_comm 1, List.drop_succ_cons,
      List.drop_succ_cons]
    exact hlast
  · exact ⟨1, scanArgument_alone hw fun keyword hmem => (hbound keyword hmem).1 (hnone keyword hmem),
      htail⟩

/-! ### Types -/

theorem respaced_scanArrays (h : Respaced cs ds) :
    Respaced (cs.drop (scanArrays cs)) (ds.drop (scanArrays ds)) := by
  rw [scanArrays_relaid (h 0 0)]
  exact h.drop_solid (scanArrays_le cs) (solid_scanArrays cs)

theorem respaced_finish (nested : Bool) {m : Nat} (h : Respaced (cs.drop n) (ds.drop m)) :
    Respaced (cs.drop (scanType.finish nested cs n)) (ds.drop (scanType.finish nested ds m)) := by
  have hmark : (ds.drop m).head? = some '?' ↔ (cs.drop n).head? = some '?' :=
    (h 0 0).head?_eq_some (by decide)
  rw [finish_eq, finish_eq]
  simp only [hmark]
  split
  · rename_i hnullable
    obtain ⟨rest, hrest⟩ := List.head?_eq_some_iff.1 hnullable.2
    rw [hrest] at h
    obtain ⟨rest', hrest', htail⟩ := h.exists_cons (by decide)
    have harrays := respaced_scanArrays htail
    rw [Nat.add_assoc n, Nat.add_assoc m, drop_of_drop_cons hrest, drop_of_drop_cons hrest',
      ← Nat.add_zero 1, drop_of_drop_cons hrest, drop_of_drop_cons hrest']
    exact harrays
  · have harrays := respaced_scanArrays h
    rwa [List.drop_drop, List.drop_drop] at harrays

theorem respects_scanType {depth : Nat} (hs : style.SolidMarks)
    (hlist : Respects (style.scanList depth)) (nested : Bool) :
    Respects (style.scanType depth nested) := by
  intro cs ds n h hn
  rw [scanType_eq, Option.bind_eq_some_iff] at hn
  obtain ⟨i, hi, hn⟩ := hn
  obtain ⟨j, hj, hbehind⟩ := respects_scanDotted hs cs ds i h hi
  have hopen : (ds.drop j).head? = some '<' ↔ (cs.drop i).head? = some '<' :=
    (hbehind 0 0).head?_eq_some (by decide)
  have hbeq : ((ds.drop j).head? == some '<') = ((cs.drop i).head? == some '<') := by
    rw [Bool.eq_iff_iff, beq_iff_eq, beq_iff_eq, hopen]
  rw [scanType_eq, hj, Option.bind_some, hbeq]
  split at hn
  · rename_i hgenerics
    rw [if_pos hgenerics]
    split at hn
    · rename_i k hk
      cases hn
      obtain ⟨k', hk', hlast⟩ := hlist _ _ k hbehind hk
      rw [List.drop_drop, List.drop_drop] at hlast
      rw [hk']
      exact ⟨_, rfl, respaced_finish nested hlast⟩
    · rename_i hnone
      rw [hlist.eq_none hbehind hnone]
      split at hn
      · cases hn
      · rename_i hnested
        cases hn
        exact ⟨_, if_neg hnested, respaced_finish nested hbehind⟩
  · rename_i hgenerics
    cases hn
    exact ⟨_, if_neg hgenerics, respaced_finish nested hbehind⟩

/-- A list of type arguments is read in both texts. -/
theorem respects_scanList (hs : style.SolidMarks) (depth : Nat) :
    Respects (style.scanList depth) := by
  induction depth with
  | zero =>
      intro cs ds n _ hn
      cases hn
  | succ depth ih =>
      exact respects_scanBrackets (respects_scanArgument (respects_scanType hs ih true))

end IdentifierStyle

/-! ## Identifiers in two layouts -/

/-- The front of a text, if its last character is not blank and only spaces are replaced in it. -/
theorem Relaid.cut (h : Relaid allowed p cs q ds) (hn : n ≤ cs.length)
    (hlast : ∀ c, (cs.take n).getLast? = some c → isBlank c = false)
    (hspaced : ∀ p' b q' b', p ≤ p' → p' < p + n → allowed p' b q' b' → Spaced p' b q' b') :
    ∃ m ≤ ds.length, Respaced (cs.take n) (ds.take m) ∧
      Relaid allowed (p + n) (cs.drop n) (q + m) (ds.drop m) := by
  induction h generalizing n with
  | nil p q =>
      obtain rfl : n = 0 := by simpa using hn
      exact ⟨0, le_rfl, .refl [], .nil _ _⟩
  | @keep c p q cs ds tail ih =>
      cases n with
      | zero => exact ⟨0, Nat.zero_le _, .refl [], .keep c tail⟩
      | succ n =>
          obtain ⟨m, hm, htake, hdrop⟩ := ih (n := n) (by simpa using hn)
            (fun d hd => hlast d (by rw [List.take_succ_cons, List.getLast?_cons, hd]; rfl))
            fun p' b q' b' hp hp' => hspaced p' b q' b' (by omega) (by omega)
          refine ⟨m + 1, by simpa using hm, (Respaced.refl [c]).append htake, ?_⟩
          rw [Nat.add_right_comm, Nat.add_right_comm q] at hdrop
          exact hdrop
  | @replace p q b b' cs ds old new ok tail ih =>
      rcases Nat.eq_zero_or_pos n with rfl | hpos
      · exact ⟨0, Nat.zero_le _, .refl [], .replace old new ok tail⟩
      by_cases hshort : n ≤ b.length
      · -- the front would end inside the run
        obtain ⟨c, hc⟩ : ∃ c, (b.take n).getLast? = some c := by
          cases hc : (b.take n).getLast? with
          | some c => exact ⟨c, rfl⟩
          | none =>
              have := congrArg List.length (List.getLast?_eq_none_iff.1 hc)
              rw [List.length_take, List.length_nil] at this
              omega
        have hsolid := hlast c (by rwa [List.take_append_of_le_length hshort])
        rw [old.blank c (List.mem_of_mem_take (List.mem_of_getLast? hc))] at hsolid
        cases hsolid
      · obtain ⟨k, rfl⟩ : ∃ k, n = b.length + k := ⟨n - b.length, by omega⟩
        obtain ⟨m, hm, htake, hdrop⟩ := ih (n := k)
          (by rw [List.length_append] at hn; omega)
          (fun d hd => hlast d (by
            rw [List.take_length_add_append, List.getLast?_append, hd]
            rfl))
          fun p' b q' b' hp hp' => hspaced p' b q' b' (by omega) (by omega)
        have hrun : Respaced b b' := by
          have hreplace : Relaid Spaced p (b ++ []) q (b' ++ []) :=
            .replace old new (hspaced p b q b' le_rfl (by omega) ok) (.nil _ _)
          simpa using hreplace.respaced
        refine ⟨b'.length + m, by rw [List.length_append]; omega, ?_, ?_⟩
        · rw [List.take_length_add_append, List.take_length_add_append]
          exact hrun.append htake
        · rw [List.drop_length_add_append, List.drop_length_add_append, ← Nat.add_assoc,
            ← Nat.add_assoc]
          exact hdrop

namespace IdentifierStyle

variable {style : IdentifierStyle}

/-- A list of type arguments in which only spaces are replaced. -/
theorem scanList_relaid (hs : style.SolidMarks) (h : Relaid allowed p cs q ds) {depth k : Nat}
    (hk : style.scanList depth cs = some k)
    (hspaced : ∀ p' b q' b', p ≤ p' → p' < p + k → allowed p' b q' b' → Spaced p' b q' b') :
    ∃ m, style.scanList depth ds = some m ∧ Respaced (cs.take k) (ds.take m) ∧
      Relaid allowed (p + k) (cs.drop k) (q + m) (ds.drop m) := by
  obtain ⟨hlocal, hcomplete⟩ := local_complete_scanList style depth
  have hbounded : Bounded (style.scanList depth) := by
    cases depth with
    | zero => exact fun _ _ h => by cases h
    | succ depth => exact bounded_scanBrackets _
  have hle := hbounded cs k hk
  obtain ⟨list, ts, hlist, -⟩ := list_of_scan style depth cs k hk
  obtain ⟨m, hm, htake, hdrop⟩ := h.cut hle (fun c hc => by
    rw [hlist, ← List.cons_append, List.getLast?_concat, Option.some.injEq] at hc
    rw [← hc]
    decide) hspaced
  -- the list is read from the front of both texts, and then from the texts themselves
  obtain ⟨m', hm', hrest⟩ := respects_scanList hs depth _ _ k htake (hlocal.take hk hle)
  have hnil : (cs.take k).drop k = [] := List.drop_eq_nil_iff.2 (List.length_take_le _ _)
  rw [hnil] at hrest
  obtain rfl : m' = m := by
    have hlong := List.drop_eq_nil_iff.1 hrest.eq_nil
    have hshort := hbounded _ _ hm'
    rw [List.length_take] at hlong hshort
    omega
  refine ⟨m', ?_, htake, hdrop⟩
  have hwhole := hcomplete _ (ds.drop m') _ hm'
  rwa [List.take_append_drop] at hwhole

theorem listLength_eq (style : IdentifierStyle) (cs : List Char) :
    style.listLength cs =
      if style.generics then (style.scanList style.maxDepth cs).getD 0 else 0 := by
  unfold listLength
  cases style.maxDepth with
  | zero => rw [scanList, Option.getD_none, ite_self]
  | succ depth => rfl

/-- A list that belongs to an identifier, if only spaces are replaced in it. -/
theorem listLength_relaid (hs : style.SolidMarks) (h : Relaid allowed p cs q ds)
    (hcs : ∀ p' b q' b', p ≤ p' → p' < p + style.listLength cs → allowed p' b q' b' →
      Spaced p' b q' b')
    (hds : ∀ p' b q' b', q ≤ q' → q' < q + style.listLength ds → allowed p' b q' b' →
      Spaced p' b q' b') :
    Respaced (cs.take (style.listLength cs)) (ds.take (style.listLength ds)) ∧
      Relaid allowed (p + style.listLength cs) (cs.drop (style.listLength cs))
        (q + style.listLength ds) (ds.drop (style.listLength ds)) := by
  rw [listLength_eq, listLength_eq] at *
  split at hcs
  · rename_i hgenerics
    rw [if_pos hgenerics] at hds ⊢
    rw [if_pos hgenerics]
    cases hk : style.scanList style.maxDepth cs with
    | some k =>
        rw [hk] at hcs
        obtain ⟨m, hm, htake, hdrop⟩ := scanList_relaid hs h hk hcs
        rw [hm]
        exact ⟨htake, hdrop⟩
    | none =>
        -- a list in the other text would be one here, too
        have hnone : style.scanList style.maxDepth ds = none := by
          cases hm : style.scanList style.maxDepth ds with
          | none => rfl
          | some m =>
              rw [hm] at hds
              obtain ⟨k, hk', -⟩ := scanList_relaid hs h.symm hm fun q' b' p' b hq hq' hok =>
                ⟨(hds p' b q' b' hq hq' hok).2, (hds p' b q' b' hq hq' hok).1⟩
              rw [hk] at hk'
              cases hk'
        rw [hnone]
        exact ⟨.refl [], h⟩
  · rename_i hgenerics
    rw [if_neg hgenerics, if_neg hgenerics]
    exact ⟨.refl [], h⟩

/-- Identifiers in two layouts of a text, if only spaces are replaced inside them. -/
theorem scan_relaid (hs : style.SolidMarks) (h : Relaid allowed p cs q ds) {m : Nat}
    (hn : style.scan cs = some n) (hm : style.scan ds = some m)
    (hcs : ∀ p' b q' b', p < p' → p' < p + n → allowed p' b q' b' → Spaced p' b q' b')
    (hds : ∀ p' b q' b', q < q' → q' < q + m → allowed p' b q' b' → Spaced p' b q' b') :
    Respaced (cs.take n) (ds.take m) ∧
      Relaid allowed (p + n) (cs.drop n) (q + m) (ds.drop m) := by
  rw [scan_eq, Option.map_eq_some_iff] at hn hm
  obtain ⟨k, hk, rfl⟩ := hn
  obtain ⟨k', hk', rfl⟩ := hm
  obtain rfl : k' = k := by
    rw [scanDotted_relaid hs h, hk] at hk'
    exact (Option.some.inj hk').symm
  have hpos := pos_of_scanDotted hk
  -- the name
  obtain ⟨hname, hrest⟩ :=
    h.split_solid (bounded_scanDotted style cs k' hk) (solid_scanDotted hs cs k' hk)
  -- the list
  obtain ⟨hlist, harrays⟩ := listLength_relaid hs hrest
    (fun p' b q' b' hp hp' => hcs p' b q' b' (by omega) (by omega))
    (fun p' b q' b' hq hq' => hds p' b q' b' (by omega) (by omega))
  -- the brackets
  generalize style.listLength (cs.drop k') = i at *
  generalize style.listLength (ds.drop k') = j at *
  rw [List.drop_drop, List.drop_drop] at harrays
  have hsame := scanArrays_relaid harrays
  obtain ⟨hmarks, hlast⟩ := harrays.split_solid (scanArrays_le _) (solid_scanArrays _)
  rw [hsame]
  generalize scanArrays (cs.drop (k' + i)) = a at *
  rw [List.drop_drop, List.drop_drop] at hlast
  refine ⟨?_, by simpa only [Nat.add_assoc] using hlast⟩
  rw [List.take_add, List.take_add, List.take_add (i := k' + j), List.take_add (i := k'), hname,
    hmarks]
  exact ((Respaced.refl _).append hlist).append (.refl _)

end IdentifierStyle

end Outline
