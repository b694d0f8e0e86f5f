import Mathlib.Data.Nat.Count
import Mathlib.Data.Prod.Lex
import Mathlib.Order.Interval.Set.Defs
import Outline.Source

/-!
# Positions tell offsets apart

A position names a character by its line and column.  The starts of the lines are listed once for
a text, and a position is looked up among them.

* `EndsLine` — the characters behind which a line ends, whatever marks are mixed in a text.
* `StartsLine` — where the line of an offset starts, told without the list of line starts.
* `Source.lineAt_lineStartsFrom` — looking up the list counts the line ends and finds that start.
* `Source.Locates` — what a position says about an offset, which no two offsets share.
* `Source.position_faithful` — every position locates its offset, and positions grow with offsets.
-/

namespace Outline

/-- A line ends behind the character at the offset `i`: it is a `\n`, or an `\r` that is not the
first half of a `\r\n`. -/
def EndsLine (cs : List Char) (i : Nat) : Prop :=
  cs[i]? = some '\n' ∨ cs[i]? = some '\r' ∧ cs[i + 1]? ≠ some '\n'

instance (cs : List Char) : DecidablePred (EndsLine cs) :=
  fun _ => inferInstanceAs (Decidable (_ ∨ _ ∧ _))

/-- The line that holds the offset `p` starts at the offset `start`. -/
structure StartsLine (cs : List Char) (start p : Nat) : Prop where
  /-- The line starts at the offset or before it. -/
  le : start ≤ p
  /-- It is the first line, or a line ends in front of it. -/
  behind : start = 0 ∨ EndsLine cs (start - 1)
  /-- No line ends between its start and the offset. -/
  within : ∀ i, start ≤ i → i < p → ¬ EndsLine cs i

variable {cs rest : List Char} {p i start : Nat}

namespace StartsLine

theorem first : StartsLine cs 0 0 where
  le := le_rfl
  behind := .inl rfl
  within _ _ hlt := absurd hlt (Nat.not_lt_zero _)

theorem next (h : EndsLine cs i) : StartsLine cs (i + 1) (i + 1) where
  le := le_rfl
  behind := .inr h
  within _ hle hlt := absurd hle (Nat.not_le.2 hlt)

/-- A line goes on where no line ends. -/
theorem extend (h : StartsLine cs start i) (hle : i ≤ p)
    (hno : ∀ j, i ≤ j → j < p → ¬ EndsLine cs j) : StartsLine cs start p where
  le := h.le.trans hle
  behind := h.behind
  within j hstart hj := by
    rcases Nat.lt_or_ge j i with hlt | hge
    · exact h.within j hstart hlt
    · exact hno j hge hj

end StartsLine

/-- No line is counted where none ends. -/
theorem count_endsLine_eq (hle : i ≤ p) (hno : ∀ j, i ≤ j → j < p → ¬ EndsLine cs j) :
    Nat.count (EndsLine cs) p = Nat.count (EndsLine cs) i := by
  refine le_antisymm ?_ (Nat.count_monotone _ hle)
  by_contra hlt
  obtain ⟨j, hj, hends⟩ := Nat.exists_of_count_lt_count (Nat.not_le.1 hlt)
  exact hno j hj.1 hj.2 hends

namespace Source

/-! ## The list of line starts -/

/-- The line of an offset is counted on from `line`, and its start is the one listed for it. -/
theorem lineAt_spec (offset line start : Nat) (later : List Nat) (h : start ≤ offset) :
    ∃ k, (lineAt offset line start later).1 = line + k ∧
      (start :: later)[k]? = some (lineAt offset line start later).2 ∧
      (lineAt offset line start later).2 ≤ offset := by
  induction later generalizing line start with
  | nil => exact ⟨0, rfl, rfl, h⟩
  | cons next later ih =>
      rw [lineAt]
      split
      · rename_i hnext
        obtain ⟨k, hline, hstart, hle⟩ := ih (line + 1) next hnext
        exact ⟨k + 1, by omega, hstart, hle⟩
      · exact ⟨0, rfl, rfl, h⟩

theorem lt_of_mem_lineStartsFrom {n q : Nat} (h : q ∈ lineStartsFrom n cs) : n < q := by
  fun_induction lineStartsFrom n cs <;> grind

theorem pairwise_lineStartsFrom (n : Nat) (cs : List Char) :
    (lineStartsFrom n cs).Pairwise (· < ·) := by
  fun_induction lineStartsFrom n cs with
  | case1 => exact .nil
  | case2 n cs ih => exact .cons (fun _ => lt_of_mem_lineStartsFrom) ih
  | case3 n cs ih => exact .cons (fun _ => lt_of_mem_lineStartsFrom) ih
  | case4 n cs _ ih => exact .cons (fun _ => lt_of_mem_lineStartsFrom) ih
  | case5 n c cs _ _ _ ih => exact ih

/-- A line starts behind a character if one ends there. -/
theorem lineStartsFrom_cons {c : Char} (h : cs.drop i = c :: rest) :
    lineStartsFrom i (c :: rest) =
      if EndsLine cs i then (i + 1) :: lineStartsFrom (i + 1) rest
      else lineStartsFrom (i + 1) rest := by
  have hget : ∀ k, cs[i + k]? = (c :: rest)[k]? := fun k => by rw [← h, List.getElem?_drop]
  have hends : EndsLine cs i ↔ c = '\n' ∨ c = '\r' ∧ rest.head? ≠ some '\n' := by
    rw [EndsLine, hget 1, ← Nat.add_zero i, hget 0, List.head?_eq_getElem?]
    simp only [List.getElem?_cons_zero, List.getElem?_cons_succ, Option.some.injEq, ne_eq]
  by_cases hline : c = '\n'
  · rw [if_pos (hends.2 (.inl hline)), hline]
    rfl
  · by_cases hreturn : c = '\r'
    · subst hreturn
      cases rest with
      | nil =>
          rw [if_pos (hends.2 (.inr ⟨rfl, by simp⟩))]
          rfl
      | cons d rest =>
          by_cases hnext : d = '\n'
          · subst hnext
            rw [if_neg (by rw [hends]; simp)]
            rfl
          · rw [if_pos (hends.2 (.inr ⟨rfl, by simpa using hnext⟩)), lineStartsFrom]
            exact fun ds heq => hnext (List.cons.inj heq).1
    · rw [if_neg (by simp [hends, hline, hreturn]), lineStartsFrom]
      · exact hline
      · exact fun _ heq _ => hreturn heq
      · exact hreturn

/-! ## Looking a position up -/

theorem lineAt_of_lt {offset : Nat} (line start : Nat) {later : List Nat}
    (h : ∀ next ∈ later, offset < next) : lineAt offset line start later = (line, start) := by
  cases later with
  | nil => rfl
  | cons next later => rw [lineAt, if_neg (Nat.not_le.2 (h next (List.mem_cons_self ..)))]

/-- The lookup finds where the list of line starts is split: the ones up to the line of the offset
are not behind it, and all others are. -/
theorem lineAt_split (line : Nat) {later : List Nat} (hsorted : (start :: later).Pairwise (· < ·))
    (hstart : start ≤ p) {j s : Nat} (hj : (start :: later)[j]? = some s) :
    s ≤ p ↔ line + j ≤ (lineAt p line start later).1 := by
  induction later generalizing line start j with
  | nil =>
      obtain ⟨hlt, rfl⟩ := List.getElem?_eq_some_iff.1 hj
      obtain rfl : j = 0 := Nat.lt_one_iff.1 hlt
      exact iff_of_true hstart le_rfl
  | cons next later ih =>
      have htail := (List.pairwise_cons.1 hsorted).2
      rw [lineAt]
      cases j with
      | zero =>
          obtain rfl : start = s := by simpa using hj
          refine iff_of_true hstart ?_
          split
          · obtain ⟨k, hk, -⟩ := lineAt_spec p (line + 1) next later (by assumption)
            omega
          · exact le_rfl
      | succ j =>
          rw [List.getElem?_cons_succ] at hj
          split
          · rename_i hnext
            rw [ih (line + 1) htail hnext hj, Nat.add_right_comm, Nat.add_assoc]
          · rename_i hnext
            have hs : next ≤ s := by
              rcases List.mem_cons.1 (List.mem_of_getElem? hj) with rfl | hmem
              · exact le_rfl
              · exact ((List.pairwise_cons.1 htail).1 s hmem).le
            exact iff_of_false (by omega) (by omega)

/-- The lookup counts the line ends in front of an offset and finds where its line starts, from
any offset `i` on for which both are known. -/
theorem lineAt_lineStartsFrom (hle : i ≤ p) (h : cs.drop i = rest)
    (hstart : StartsLine cs start i) :
    (lineAt p (Nat.count (EndsLine cs) i) start (lineStartsFrom i rest)).1 =
        Nat.count (EndsLine cs) p ∧
      StartsLine cs (lineAt p (Nat.count (EndsLine cs) i) start (lineStartsFrom i rest)).2 p := by
  induction rest generalizing i start with
  | nil =>
      have hno : ∀ j, i ≤ j → j < p → ¬ EndsLine cs j := fun j hj _ => by
        have hnone := List.getElem?_eq_none ((List.drop_eq_nil_iff.1 h).trans hj)
        simp [EndsLine, hnone]
      exact ⟨(count_endsLine_eq hle hno).symm, hstart.extend hle hno⟩
  | cons c rest ih =>
      rcases hle.eq_or_lt with rfl | hlt
      · rw [lineAt_of_lt _ _ fun _ => lt_of_mem_lineStartsFrom]
        exact ⟨rfl, hstart⟩
      · have htail : cs.drop (i + 1) = rest := by rw [← List.drop_drop, h]; rfl
        rw [lineStartsFrom_cons h]
        by_cases hends : EndsLine cs i
        · rw [if_pos hends, lineAt, if_pos (Nat.succ_le_of_lt hlt),
            ← Nat.count_succ_eq_succ_count hends]
          exact ih hlt htail (.next hends)
        · rw [if_neg hends, ← Nat.count_succ_eq_count hends]
          refine ih hlt htail (hstart.extend (Nat.le_succ i) fun j hj hji => ?_)
          rwa [show j = i by omega]

/-- What a position says about the offset `p` of a text. -/
structure Locates (source : Source) (position : Position) (p : Nat) : Prop where
  /-- The line is the number of line ends in front of the offset. -/
  line : position.line = Nat.count (EndsLine source.chars) p
  /-- The list of line starts splits behind the line: up to it no start is behind the offset. -/
  split : ∀ j s, (0 :: source.laterLines)[j]? = some s → (s ≤ p ↔ j ≤ position.line)
  /-- The offset is the start of its line, which is the one listed for it, and the column. -/
  start : ∃ start, StartsLine source.chars start p ∧
    (0 :: source.laterLines)[position.line]? = some start ∧ start + position.column = p

/-- A position locates one offset only. -/
theorem Locates.unique {source : Source} {position : Position} {q : Nat}
    (hp : source.Locates position p) (hq : source.Locates position q) : p = q := by
  obtain ⟨start, -, hlisted, hcolumn⟩ := hp.start
  obtain ⟨start', -, hlisted', hcolumn'⟩ := hq.start
  have hsame := Option.some.inj (hlisted.symm.trans hlisted')
  omega

/-- The lines and columns of a text that is short enough for them are not cut off. -/
theorem locates_position {text : String} (hshort : text.length < Position.width)
    (hp : p ≤ text.length) : (ofString text).Locates ((ofString text).position p) p := by
  have hsorted : (0 :: (ofString text).laterLines).Pairwise (· < ·) :=
    .cons (fun _ => lt_of_mem_lineStartsFrom) (pairwise_lineStartsFrom 0 text.toList)
  obtain ⟨k, hk, hlisted, hle⟩ := lineAt_spec p 0 0 (ofString text).laterLines (Nat.zero_le p)
  have hfound := lineAt_lineStartsFrom (Nat.zero_le p) (List.drop_zero (l := text.toList)) .first
  rw [Nat.count_zero] at hfound
  obtain ⟨hline, hstart⟩ : (lineAt p 0 0 (ofString text).laterLines).1 = _ ∧
    StartsLine _ (lineAt p 0 0 (ofString text).laterLines).2 p := hfound
  have hcount := Nat.count_le (p := EndsLine text.toList) (n := p)
  have hposition : (ofString text).position p =
      ⟨(lineAt p 0 0 (ofString text).laterLines).1,
        p - (lineAt p 0 0 (ofString text).laterLines).2⟩ := by
    simp only [position]
    rw [Nat.mod_eq_of_lt (by omega), Nat.mod_eq_of_lt (by omega)]
  rw [hposition]
  refine ⟨hline, fun j s hj => ?_, _, hstart, ?_, Nat.add_sub_cancel' hle⟩
  · rw [lineAt_split 0 hsorted (Nat.zero_le p) hj, Nat.zero_add]
  · dsimp only
    rw [hk, Nat.zero_add]
    exact hlisted

/-- A piece of the text ends with the character in front of its end. -/
theorem slice?_getLast? {text : String} {offset len : Nat} (hlen : 0 < len)
    (hstop : offset + len ≤ text.length) :
    ∃ piece, (ofString text).slice? offset len = some piece ∧
      piece.toList.getLast? = text.toList[offset + len - 1]? := by
  refine ⟨_, if_pos hstop, ?_⟩
  have hshort : min len (text.toList.length - offset) = len := by
    rw [String.length_toList]
    omega
  rw [String.toList_ofList, List.getLast?_eq_getElem?, List.length_take, List.length_drop]
  rw [show (ofString text).chars = text.toList from rfl, hshort,
    List.getElem?_take_of_lt (by omega), List.getElem?_drop, Nat.add_sub_assoc hlen]

/-- In a text that is short enough for its lines and columns, positions grow with offsets.  The
line of an offset is the number of line ends in front of it, and the offset is the start of its
line and its column.  The last position of a span is that of its last character. -/
theorem position_faithful {text : String} (hshort : text.length < Position.width) :
    StrictMonoOn (fun p => toLex (((ofString text).position p).line,
        ((ofString text).position p).column)) (Set.Iic text.length) ∧
      (∀ p ≤ text.length, (ofString text).Locates ((ofString text).position p) p) ∧
      ∀ offset len, 0 < len → offset + len ≤ text.length →
        (∃ piece, (ofString text).slice? offset len = some piece ∧
          piece.toList.getLast? = text.toList[offset + len - 1]?) ∧
        ((ofString text).span offset len).last = (ofString text).position (offset + len - 1) := by
  refine ⟨fun p hp q hq hlt => ?_, fun p hp => locates_position hshort hp,
    fun offset len hlen hstop => ⟨slice?_getLast? hlen hstop, ?_⟩⟩
  · have hlocp := locates_position hshort hp
    have hlocq := locates_position hshort hq
    rw [Prod.Lex.toLex_lt_toLex]
    rcases (Nat.count_monotone (EndsLine text.toList) hlt.le).lt_or_eq with hless | heq
    · exact .inl (hlocp.line.trans_lt (hless.trans_eq hlocq.line.symm))
    · -- both offsets lie in one line
      have hsame := hlocp.line.trans (heq.trans hlocq.line.symm)
      obtain ⟨start, -, hlisted, hcolumn⟩ := hlocp.start
      obtain ⟨start', -, hlisted', hcolumn'⟩ := hlocq.start
      rw [hsame, hlisted', Option.some.injEq] at hlisted
      exact .inr ⟨hsame, by dsimp only; omega⟩
  · rw [span, Nat.add_sub_assoc hlen]

/-- A text with all three kinds of line ends: the lone `\r` ends the third line. -/
theorem position_faithful_mixed :
    (ofString "ab\ncd\r\nef\rg").Locates ((ofString "ab\ncd\r\nef\rg").position 10) 10 ∧
      (ofString "ab\ncd\r\nef\rg").position 10 = ⟨3, 0⟩ ∧
      ((ofString "ab\ncd\r\nef\rg").span 4 3).last =
        (ofString "ab\ncd\r\nef\rg").position 6 := by
  have hshort : "ab\ncd\r\nef\rg".length < Position.width := by decide
  obtain ⟨-, hlocates, hspans⟩ := position_faithful hshort
  exact ⟨hlocates 10 (by decide), by decide, (hspans 4 3 (by decide) (by decide)).2⟩

end Source

end Outline
