import Outline.Proofs.Relayout.Spaces
import Outline.Proofs.Relayout.Spelling
import Outline.Proofs.Text.Pieces
import Outline.Proofs.TypeRef.SpelledReading

/-!
# Identifiers up to the lengths of runs of spaces

The text of an identifier with one space in place of every run of spaces spells the same type.

* `squeeze` — one space for every run of spaces.
* `IdentifierStyle.Spells.squeeze` — a text that spells a type still does so.
* `Spelling.squeezed` — identifiers are compared up to the lengths of runs of spaces.
-/

namespace Outline

open Text (isBlank)

variable {cs ds xs ys : List Char} {c : Char}

/-! ## Runs of spaces -/

/-- Puts a character in front of a text, but no second space. -/
def glue (c : Char) (cs : List Char) : List Char :=
  if c == ' ' && cs.head? == some ' ' then cs else c :: cs

/-- The text with one space in place of every run of spaces. -/
def squeeze (cs : List Char) : List Char := cs.foldr glue []

theorem squeeze_cons (c : Char) (cs : List Char) : squeeze (c :: cs) = glue c (squeeze cs) := rfl

theorem glue_of_ne (hc : c ≠ ' ') (cs : List Char) : glue c cs = c :: cs := by
  simp [glue, hc]

theorem head?_glue (c : Char) (cs : List Char) : (glue c cs).head? = some c := by
  unfold glue
  split
  · rename_i h
    rw [Bool.and_eq_true, beq_iff_eq, beq_iff_eq] at h
    rw [h.1, h.2]
  · rfl

theorem glue_space_glue_space (cs : List Char) : glue ' ' (glue ' ' cs) = glue ' ' cs := by
  have hhead := head?_glue ' ' cs
  rw [glue, hhead]
  simp

/-- A run of spaces is as good as one space. -/
theorem squeeze_spaces (hne : xs ≠ []) (hxs : ∀ c ∈ xs, c = ' ') (cs : List Char) :
    squeeze (xs ++ cs) = squeeze (' ' :: cs) := by
  induction xs with
  | nil => exact absurd rfl hne
  | cons c xs ih =>
      obtain rfl := hxs c (by simp)
      rcases eq_or_ne xs [] with rfl | hxs'
      · rfl
      · rw [List.cons_append, squeeze_cons, ih hxs' fun c hc => hxs c (by simp [hc]), squeeze_cons,
          glue_space_glue_space]

/-- Texts that differ in the lengths of runs of spaces are squeezed to the same text. -/
theorem Respaced.squeeze_eq (h : Respaced cs ds) : squeeze ds = squeeze cs := by
  obtain ⟨p, q, hrelaid⟩ : ∃ p q, Relaid Spaced p cs q ds := ⟨0, 0, h 0 0⟩
  clear h
  induction hrelaid with
  | nil => rfl
  | keep c _ ih => rw [squeeze_cons, squeeze_cons, ih]
  | replace old new ok _ ih =>
      rw [squeeze_spaces old.ne_nil ok.1, squeeze_spaces new.ne_nil ok.2, squeeze_cons, squeeze_cons,
        ih]

/-- Text that is not a space keeps what is on both sides apart. -/
theorem squeeze_append_cons (hc : c ≠ ' ') (xs ys : List Char) :
    squeeze (xs ++ c :: ys) = squeeze xs ++ c :: squeeze ys := by
  induction xs with
  | nil => exact glue_of_ne hc _
  | cons x xs ih =>
      have hhead : ∀ zs : List Char, ((zs ++ c :: squeeze ys).head? == some ' ') =
          (zs.head? == some ' ') := by
        intro zs
        cases zs with
        | nil => simp [hc]
        | cons => rfl
      rw [List.cons_append, squeeze_cons, squeeze_cons, ih, glue, glue, hhead]
      split <;> rfl

theorem squeeze_eq_self (h : ' ' ∉ cs) : squeeze cs = cs := by
  induction cs with
  | nil => rfl
  | cons c cs ih =>
      rw [List.mem_cons, not_or] at h
      rw [squeeze_cons, ih h.2, glue_of_ne (Ne.symm h.1)]

theorem mem_squeeze : c ∈ squeeze cs ↔ c ∈ cs := by
  induction cs with
  | nil => rfl
  | cons d cs ih =>
      rw [squeeze_cons, List.mem_cons, ← ih, glue]
      split
      · rename_i h
        rw [Bool.and_eq_true, beq_iff_eq, beq_iff_eq] at h
        refine ⟨.inr, ?_⟩
        rintro (rfl | hmem)
        · rw [h.1]
          exact List.mem_of_mem_head? h.2
        · exact hmem
      · rw [List.mem_cons]

theorem squeeze_squeeze (cs : List Char) : squeeze (squeeze cs) = squeeze cs := by
  induction cs with
  | nil => rfl
  | cons c cs ih =>
      by_cases hc : c = ' '
      · rw [squeeze_cons, glue]
        split
        · exact ih
        · rename_i h
          rw [squeeze_cons, ih, glue, if_neg h]
      · rw [squeeze_cons, glue_of_ne hc, squeeze_cons, glue_of_ne hc, ih]

/-! ## Ends of texts -/

/-- The text neither starts nor ends with a space. -/
structure Framed (cs : List Char) : Prop where
  /-- The first character. -/
  first : ∃ c rest, cs = c :: rest ∧ c ≠ ' '
  /-- The last character. -/
  last : ∃ front c, cs = front ++ [c] ∧ c ≠ ' '

theorem framed_of_notMem (hne : cs ≠ []) (h : ' ' ∉ cs) : Framed cs := by
  constructor
  · obtain ⟨c, rest, rfl⟩ := List.exists_cons_of_ne_nil hne
    exact ⟨c, rest, rfl, fun hc => h (by simp [hc])⟩
  · obtain ⟨front, c, rfl⟩ := (List.eq_nil_or_concat cs).resolve_left hne
    exact ⟨front, c, List.concat_eq_append, fun hc => h (by simp [hc])⟩

theorem Framed.append (hxs : Framed xs) (hys : Framed ys) (cs : List Char) :
    Framed (xs ++ (cs ++ ys)) := by
  obtain ⟨c, rest, rfl, hc⟩ := hxs.first
  obtain ⟨front, d, rfl, hd⟩ := hys.last
  exact ⟨⟨c, _, rfl, hc⟩, c :: rest ++ cs ++ front, d, by simp, hd⟩

theorem squeeze_append_of_first (h : ∃ c rest, ys = c :: rest ∧ c ≠ ' ') (xs : List Char) :
    squeeze (xs ++ ys) = squeeze xs ++ squeeze ys := by
  obtain ⟨c, rest, rfl, hc⟩ := h
  rw [squeeze_append_cons hc, squeeze_cons, glue_of_ne hc]

theorem squeeze_append_of_last (h : ∃ front c, xs = front ++ [c] ∧ c ≠ ' ') (ys : List Char) :
    squeeze (xs ++ ys) = squeeze xs ++ squeeze ys := by
  obtain ⟨front, c, rfl, hc⟩ := h
  rw [List.append_assoc, List.singleton_append, squeeze_append_cons hc, squeeze_append_cons hc,
    List.append_assoc]
  rfl

theorem squeeze_gap_append (k : Nat) (cs : List Char) :
    squeeze (IdentifierStyle.gap (k + 1) ++ cs) = squeeze (' ' :: cs) :=
  squeeze_spaces (by simp)
    (fun _ => List.eq_of_mem_replicate (n := k + 1)) cs

theorem exists_gap_squeeze (k : Nat) :
    ∃ j, squeeze (IdentifierStyle.gap k) = IdentifierStyle.gap j := by
  cases k with
  | zero => exact ⟨0, rfl⟩
  | succ k =>
      refine ⟨1, ?_⟩
      rw [← List.append_nil (IdentifierStyle.gap (k + 1)), squeeze_gap_append]
      rfl

/-! ## Spelled types -/

namespace IdentifierStyle

variable {style : IdentifierStyle} {nested : Bool} {t : TypeRef}

theorem space_notMem_isDotted (hs : style.SolidMarks) (h : style.IsDotted cs) : ' ' ∉ cs := by
  have hblank : isBlank ' ' = true := by decide
  refine fun hmem => mem_isDotted (P := (· ≠ ' ')) (fun c hc => ?_) (fun c hc => ?_) (by decide) h
    ' ' hmem rfl
  · rintro rfl
    rw [hs.isBlank_of_starts hc] at hblank
    cases hblank
  · rintro rfl
    rw [hs.isBlank_of_continues hc] at hblank
    cases hblank

theorem space_notMem_marksText (nullable : Bool) (dimensions : Nat) :
    ' ' ∉ marksText nullable dimensions := by
  cases nullable <;> simp [marksText]

theorem IsDotted.ne_nil (h : style.IsDotted cs) : cs ≠ [] := by
  rintro rfl
  exact absurd (pos_of_scanDotted h) (by simp)

theorem framed_typeText (hs : style.SolidMarks) {args : List Char → List TypeRef → Prop}
    (h : TypeText style nested args cs t) : Framed cs := by
  cases h with
  | @plain name nullable dimensions dotted =>
      refine framed_of_notMem (by simp [dotted.ne_nil]) ?_
      rw [List.mem_append, not_or]
      exact ⟨space_notMem_isDotted hs dotted, space_notMem_marksText _ _⟩
  | @generic name nullable list params dimensions dotted =>
      have hmarks : Framed ('>' :: marksText nullable dimensions) :=
        framed_of_notMem (by simp) (by simp [space_notMem_marksText])
      exact (framed_of_notMem dotted.ne_nil (space_notMem_isDotted hs dotted)).append hmarks
        ('<' :: list)

theorem framed_argumentText {type : List Char → TypeRef → Prop}
    (htype : ∀ cs t, type cs t → Framed cs) (h : ArgumentText style type cs t) : Framed cs := by
  cases h with
  | type typed => exact htype cs t typed
  | any => exact framed_of_notMem (by simp) (by decide)
  | @bound keyword name cs t j k _ known typed =>
      have hmark : Framed ['?'] := framed_of_notMem (by simp) (by decide)
      have happend := hmark.append (htype cs t typed) (gap j ++ (keyword.toList ++ ' ' :: gap k))
      simpa using happend

theorem first_argumentsText {arg : List Char → TypeRef → Prop}
    (harg : ∀ cs t, arg cs t → Framed cs) {ts : List TypeRef} (h : ArgumentsText arg cs ts) :
    ∃ c rest, cs = c :: rest ∧ c ≠ ' ' := by
  cases h with
  | last k argument =>
      obtain ⟨c, rest, rfl, hc⟩ := (harg _ _ argument).first
      exact ⟨c, _, rfl, hc⟩
  | cons j k argument =>
      obtain ⟨c, rest, rfl, hc⟩ := (harg _ _ argument).first
      exact ⟨c, _, rfl, hc⟩

theorem squeeze_typeText (hs : style.SolidMarks) {args : List Char → List TypeRef → Prop}
    (hargs : ∀ list ts, args list ts → args (squeeze list) ts)
    (h : TypeText style nested args cs t) : TypeText style nested args (squeeze cs) t := by
  cases h with
  | @plain name nullable dimensions dotted inside =>
      rw [squeeze_eq_self]
      · exact .plain dimensions dotted inside
      · rw [List.mem_append, not_or]
        exact ⟨space_notMem_isDotted hs dotted, space_notMem_marksText _ _⟩
  | @generic name nullable list params dimensions dotted inside listed =>
      rw [squeeze_append_cons (by decide), squeeze_append_cons (by decide),
        squeeze_eq_self (space_notMem_isDotted hs dotted),
        squeeze_eq_self (space_notMem_marksText _ _)]
      exact .generic dimensions dotted inside (hargs list params listed)

theorem squeeze_argumentText {type : List Char → TypeRef → Prop}
    (hframed : ∀ cs t, type cs t → Framed cs) (htype : ∀ cs t, type cs t → type (squeeze cs) t)
    (h : ArgumentText style type cs t) : ArgumentText style type (squeeze cs) t := by
  cases h with
  | type typed => exact .type (htype cs t typed)
  | any accepted => exact .any accepted
  | @bound keyword name cs t j k accepted known typed =>
      obtain ⟨i, hi⟩ := exists_gap_squeeze j
      have hkeyword : Framed keyword.toList ∧ ' ' ∉ keyword.toList := by
        have hword : ' ' ∉ keyword.toList ∧ keyword.toList ≠ [] := by
          simp only [boundKeywords, List.mem_cons, List.not_mem_nil, or_false,
            Prod.mk.injEq] at known
          rcases known with ⟨rfl, -⟩ | ⟨rfl, -⟩ <;> decide
        exact ⟨framed_of_notMem hword.2 hword.1, hword.1⟩
      have hspaces : squeeze (' ' :: (gap k ++ cs)) = ' ' :: (gap 0 ++ squeeze cs) := by
        obtain ⟨c, rest, rfl, hc⟩ := (hframed cs t typed).first
        rw [← List.cons_append]
        refine (squeeze_gap_append k (c :: rest)).trans ?_
        rw [squeeze_cons, squeeze_cons, glue_of_ne hc, glue, if_neg (by simp [hc])]
        rfl
      have hrest : squeeze (keyword.toList ++ ' ' :: (gap k ++ cs)) =
          keyword.toList ++ ' ' :: (gap 0 ++ squeeze cs) := by
        rw [squeeze_append_of_last hkeyword.1.last, squeeze_eq_self hkeyword.2, hspaces]
      rw [squeeze_cons, squeeze_append_of_first, hi, hrest, glue_of_ne (by decide)]
      · exact .bound i 0 accepted known (htype cs t typed)
      · obtain ⟨c, rest, hc, hne⟩ := hkeyword.1.first
        exact ⟨c, _, by rw [hc]; rfl, hne⟩

theorem squeeze_argumentsText {arg : List Char → TypeRef → Prop}
    (hframed : ∀ cs t, arg cs t → Framed cs) (harg : ∀ cs t, arg cs t → arg (squeeze cs) t)
    {ts : List TypeRef} (h : ArgumentsText arg cs ts) : ArgumentsText arg (squeeze cs) ts := by
  induction h with
  | @last cs t k argument =>
      obtain ⟨i, hi⟩ := exists_gap_squeeze k
      rw [squeeze_append_of_last (hframed cs t argument).last, hi]
      exact .last i (harg cs t argument)
  | @cons cs list t ts j k argument rest ih =>
      obtain ⟨i, hi⟩ := exists_gap_squeeze j
      obtain ⟨i', hi'⟩ := exists_gap_squeeze k
      rw [squeeze_append_of_last (hframed cs t argument).last, squeeze_append_cons (by decide), hi,
        squeeze_append_of_first (first_argumentsText hframed rest), hi']
      exact .cons i i' (harg cs t argument) ih

theorem squeeze_listText (hs : style.SolidMarks) (depth : Nat) (list : List Char)
    (ts : List TypeRef) (h : ListText style depth list ts) :
    ListText style depth (squeeze list) ts := by
  induction depth generalizing list ts with
  | zero => exact h.elim
  | succ depth ih =>
      obtain ⟨k, list, rfl, hlist⟩ := h
      obtain ⟨i, hi⟩ := exists_gap_squeeze k
      have hframed : ∀ cs t, ArgumentText style (TypeText style true (ListText style depth)) cs t →
          Framed cs := fun _ _ => framed_argumentText fun _ _ => framed_typeText hs
      rw [squeeze_append_of_first (first_argumentsText hframed hlist), hi]
      exact ⟨i, _, rfl, squeeze_argumentsText hframed (fun _ _ => squeeze_argumentText
        (fun _ _ => framed_typeText hs) fun _ _ => squeeze_typeText hs ih) hlist⟩

/-- A text that spells a type does so with other runs of spaces. -/
theorem Spells.squeeze (hs : style.SolidMarks) {depth : Nat} (h : style.Spells depth nested cs t) :
    style.Spells depth nested (squeeze cs) t :=
  squeeze_typeText hs (squeeze_listText hs depth) h

end IdentifierStyle

/-! ## The spelling -/

namespace Text

/-- The pieces of a squeezed text are squeezed pieces. -/
theorem map_squeeze_pieces {sep : Char} (hsep : sep ≠ ' ') (cs : List Char) :
    (pieces sep (squeeze cs)).map squeeze = (pieces sep cs).map squeeze := by
  have hother : ∀ {c : Char} {xs p : List Char} {ps : List (List Char)}, c ≠ sep →
      pieces sep xs = p :: ps → pieces sep (c :: xs) = (c :: p) :: ps := by
    intro c xs p ps hc hxs
    rw [pieces, if_neg (by simpa using hc), hxs]
  have hglue : ∀ c xs, (pieces sep (glue c xs)).map squeeze =
      (pieces sep (c :: xs)).map squeeze := by
    intro c xs
    rw [glue]
    split
    · rename_i h
      rw [Bool.and_eq_true, beq_iff_eq, beq_iff_eq] at h
      obtain ⟨rfl, hhead⟩ := h
      obtain ⟨xs, rfl⟩ := List.head?_eq_some_iff.1 hhead
      obtain ⟨p, ps, hxs⟩ := List.exists_cons_of_ne_nil (pieces_ne_nil sep xs)
      rw [hother hsep.symm (hother hsep.symm hxs), hother hsep.symm hxs, List.map_cons,
        List.map_cons, squeeze_cons, squeeze_cons ' ' (' ' :: p), squeeze_cons,
        glue_space_glue_space]
    · rfl
  induction cs with
  | nil => rfl
  | cons c cs ih =>
      rw [squeeze_cons, hglue]
      by_cases hc : c = sep
      · simp only [pieces, hc, beq_self_eq_true, if_true, List.map_cons, ih]
      · obtain ⟨p, ps, hp⟩ := List.exists_cons_of_ne_nil (pieces_ne_nil sep (squeeze cs))
        obtain ⟨p', ps', hp'⟩ := List.exists_cons_of_ne_nil (pieces_ne_nil sep cs)
        rw [hp, hp', List.map_cons, List.map_cons, List.cons.injEq] at ih
        rw [hother hc hp, hother hc hp', List.map_cons, List.map_cons, squeeze_cons, squeeze_cons,
          ih.1, ih.2]

end Text

namespace Spelling

/-- Two texts of identifiers are spelled alike if they differ in the lengths of runs of spaces;
so are two names. -/
def squeezed : Spelling where
  word s :=
    let w := String.ofList (squeeze s.toList)
    if (TypeRef.parse w).toOption = (TypeRef.parse s).toOption then w else s
  name s := String.ofList (squeeze s.toList)
  parse_word s := by
    dsimp only
    split
    · assumption
    · rfl
  name_word s := by
    dsimp only
    split
    · rw [String.toList_ofList, squeeze_squeeze]
    · rfl
  parts_word s := by
    dsimp only
    split
    · have hpieces := Text.map_squeeze_pieces (by decide : '.' ≠ ' ') s.toList
      simp only [Text.dottedParts, Text.splitAt, List.map_map, String.toList_ofList] at hpieces ⊢
      have hname : (fun s : String => String.ofList (squeeze s.toList)) ∘ String.ofList =
          String.ofList ∘ squeeze := by
        funext cs
        rw [Function.comp_apply, Function.comp_apply, String.toList_ofList]
      rw [hname, ← List.map_map, ← List.map_map, hpieces]
    · rfl
  any_word s f hf := by
    dsimp only
    split
    · rw [Bool.eq_iff_iff, List.any_eq_true, List.any_eq_true, String.toList_ofList]
      simp only [mem_squeeze]
    · rfl
  word_eq_iff s w hw := by
    dsimp only
    split
    · have hspace : ' ' ∉ w.toList := fun h => absurd (hw ' ' h) (by decide)
      constructor
      · intro h
        have hs : ' ' ∉ s.toList := by
          rwa [← mem_squeeze, ← String.toList_ofList (l := squeeze s.toList), h]
        rwa [squeeze_eq_self hs, String.ofList_toList] at h
      · rintro rfl
        rw [squeeze_eq_self hspace, String.ofList_toList]
    · rfl
  name_name s := by rw [String.toList_ofList, squeeze_squeeze]

end Spelling

end Outline
