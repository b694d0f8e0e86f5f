import Mathlib.Data.String.Lemmas
import Outline.Text.Split

/-!
# Pieces of texts

What the pieces of a text between the occurrences of a character are.

* `Text.pieces_append`, `Text.pieces_eq_singleton` — a text without the character is one piece.
* `Text.not_mem_of_mem_pieces` — no piece holds the character.
* `Text.splitAt_append` — a text is split on both sides of a separator.
* `Text.splitAt_intercalate`, `Text.intercalate_splitAt` — pieces that were joined are found again,
  and joining the pieces of a text gives the text.
-/

namespace Outline.Text

variable {sep : Char} {cs p : List Char}

theorem pieces_ne_nil (sep : Char) (cs : List Char) : pieces sep cs ≠ [] := by
  induction cs with
  | nil => simp [pieces]
  | cons c cs ih =>
      rw [pieces]
      split
      · simp
      · split <;> simp

theorem splitAt_ne_nil (sep : Char) (s : String) : splitAt sep s ≠ [] := by
  rw [splitAt, Ne, List.map_eq_nil_iff]
  exact pieces_ne_nil sep s.toList

theorem dottedParts_ne_nil (s : String) : dottedParts s ≠ [] := splitAt_ne_nil '.' s

theorem pieces_append {front : List Char} {ps : List (List Char)} (h : ∀ c ∈ front, c ≠ sep)
    (hcs : pieces sep cs = p :: ps) : pieces sep (front ++ cs) = (front ++ p) :: ps := by
  induction front with
  | nil => exact hcs
  | cons c front ih =>
      have hc : (c == sep) = false := beq_eq_false_iff_ne.2 (h c (by simp))
      rw [List.cons_append, pieces, hc, ih fun c hc => h c (by simp [hc])]
      rfl

/-- A further character in front belongs to the first piece. -/
theorem exists_pieces_cons {c : Char} (hc : c ≠ sep) (cs : List Char) :
    ∃ p ps, pieces sep cs = p :: ps ∧ pieces sep (c :: cs) = (c :: p) :: ps := by
  obtain ⟨p, ps, hps⟩ := List.exists_cons_of_ne_nil (pieces_ne_nil sep cs)
  exact ⟨p, ps, hps, pieces_append (List.forall_mem_singleton.2 hc) hps⟩

theorem pieces_eq_singleton (h : ∀ c ∈ cs, c ≠ sep) : pieces sep cs = [cs] := by
  have hpieces : pieces sep (cs ++ []) = [cs ++ []] := pieces_append h rfl
  rwa [List.append_nil] at hpieces

theorem pieces_eq_splitOn (sep : Char) (cs : List Char) : pieces sep cs = cs.splitOn sep := by
  induction cs with
  | nil => rfl
  | cons c cs ih =>
      rw [pieces, ih, List.splitOn, List.splitOn, List.splitOnP_cons_eq_if_modifyHead]
      split
      · rfl
      · cases hsplit : cs.splitOnP (· == sep) with
        | nil => exact absurd hsplit (List.splitOnP_ne_nil _ cs)
        | cons p ps => rfl

theorem splitAt_eq_singleton {s : String} (h : sep ∉ s.toList) : splitAt sep s = [s] := by
  rw [splitAt, pieces_eq_singleton fun c hc => ne_of_mem_of_not_mem hc h, List.map_singleton,
    String.ofList_toList]

/-- The pieces on both sides of a separator. -/
theorem splitAt_append {mark : String} (hmark : mark.toList = [sep]) (front back : String) :
    splitAt sep (front ++ mark ++ back) = splitAt sep front ++ splitAt sep back := by
  rw [splitAt, splitAt, splitAt, pieces_eq_splitOn, pieces_eq_splitOn, pieces_eq_splitOn,
    String.toList_append, String.toList_append, hmark, List.append_assoc, List.singleton_append,
    List.splitOn_append_cons_self, List.map_append]

theorem not_mem_of_mem_pieces (h : p ∈ pieces sep cs) : sep ∉ p := by
  induction cs generalizing p with
  | nil =>
      rw [pieces, List.mem_singleton] at h
      simp [h]
  | cons c cs ih =>
      rw [pieces] at h
      split at h
      · cases List.mem_cons.1 h with
        | inl hempty => simp [hempty]
        | inr hrest => exact ih hrest
      case _ hc =>
        have hsep : sep ≠ c := fun hsep => hc (by simp [hsep])
        split at h
        case _ q qs hpieces =>
          cases List.mem_cons.1 h with
          | inl hfirst =>
              rw [hfirst, List.mem_cons, not_or]
              exact ⟨hsep, ih (by simp [hpieces])⟩
          | inr hrest => exact ih (by simp [hpieces, hrest])
        · simp only [List.mem_singleton] at h
          simpa [h] using hsep

theorem not_mem_of_mem_splitAt {s piece : String} (h : piece ∈ splitAt sep s) :
    sep ∉ piece.toList := by
  obtain ⟨p, hp, rfl⟩ := List.mem_map.1 h
  rw [String.toList_ofList]
  exact not_mem_of_mem_pieces hp

/-- Pieces that were joined are found again. -/
theorem splitAt_intercalate {mark : String} (hmark : mark.toList = [sep]) {ss : List String}
    (hne : ss ≠ []) (h : ∀ s ∈ ss, sep ∉ s.toList) : splitAt sep (mark.intercalate ss) = ss := by
  have hsplit : ([sep].intercalate (ss.map String.toList)).splitOn sep = ss.map String.toList :=
    List.splitOn_intercalate sep (by simpa using h) (by simpa using hne)
  rw [splitAt, pieces_eq_splitOn, String.toList_intercalate, hmark, hsplit, List.map_map]
  simp [Function.comp_def]

/-- The pieces of a text, joined. -/
theorem intercalate_splitAt {mark : String} (hmark : mark.toList = [sep]) (s : String) :
    mark.intercalate (splitAt sep s) = s := by
  rw [← String.toList_inj, String.toList_intercalate, hmark, splitAt, pieces_eq_splitOn,
    List.map_map]
  simp [Function.comp_def, List.intercalate_splitOn]

end Outline.Text
