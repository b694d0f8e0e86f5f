import Outline.Proofs.Token.Scanning

/-!
# Identifiers in a text that is cut off

An identifier is read from its characters alone: what stands behind them may be cut off.  The
other way round, text may be added behind a list of type arguments that can be read, since its
closing bracket shows that it is complete.

* `Local` — a scanner that reads the same where the text behind what it reads is cut off.
* `IdentifierStyle.Sealed` — a scanner that reads the same where text is added, if the end of a
  type argument follows what it reads.
* `IdentifierStyle.local_scan` — identifiers can be cut off.
-/

namespace Outline

variable {xs ys : List Char} {n : Nat}

/-- A scanner that reads the same where the text behind what it reads is cut off. -/
def Local (scan : List Char → Option Nat) : Prop :=
  ∀ xs ys n, scan (xs ++ ys) = some n → n ≤ xs.length → scan xs = some n

theorem Local.take {scan : List Char → Option Nat} (h : Local scan) {cs : List Char}
    (hscan : scan cs = some n) (hn : n ≤ cs.length) : scan (cs.take n) = some n := by
  refine h (cs.take n) (cs.drop n) n ?_ ?_
  · rwa [List.take_append_drop]
  · rw [List.length_take]
    omega

/-! ## Runs of characters -/

/-- A run that ends inside the text in front. -/
theorem takeWhile_append_of_lt {f : Char → Bool} (h : (xs.takeWhile f).length < xs.length) :
    (xs ++ ys).takeWhile f = xs.takeWhile f := by
  rw [List.takeWhile_append, if_neg (by omega)]

/-- A run that does not reach into the text behind. -/
theorem takeWhile_append_of_le {f : Char → Bool}
    (h : ((xs ++ ys).takeWhile f).length ≤ xs.length) :
    (xs ++ ys).takeWhile f = xs.takeWhile f := by
  by_cases hall : (xs.takeWhile f).length = xs.length
  · rw [List.takeWhile_append, if_pos hall, List.length_append] at h
    have hnone : ys.takeWhile f = [] := List.eq_nil_of_length_eq_zero (by omega)
    rw [List.takeWhile_append, if_pos hall, hnone, List.append_nil]
    exact ((List.takeWhile_prefix f).eq_of_length hall).symm
  · rw [List.takeWhile_append, if_neg hall]

/-- A character in front of the place where texts are joined. -/
theorem exists_of_drop_append {k : Nat} {c : Char} {rest : List Char} (hk : k < xs.length)
    (h : (xs ++ ys).drop k = c :: rest) : ∃ tail, xs.drop k = c :: tail ∧ rest = tail ++ ys := by
  rw [List.drop_append_of_le_length hk.le] at h
  obtain ⟨d, tail, hd⟩ := List.exists_cons_of_ne_nil (by
    rw [ne_eq, List.drop_eq_nil_iff]
    omega : xs.drop k ≠ [])
  rw [hd, List.cons_append] at h
  obtain ⟨rfl, rfl⟩ := List.cons.inj h
  exact ⟨tail, hd, rfl⟩

theorem head?_drop_append {k : Nat} (hk : k < xs.length) :
    ((xs ++ ys).drop k).head? = (xs.drop k).head? := by
  rw [List.head?_drop, List.head?_drop, List.getElem?_append_left hk]

namespace IdentifierStyle

variable {style : IdentifierStyle}

/-! ## Names -/

theorem scanName_cons (style : IdentifierStyle) (c : Char) (cs : List Char) :
    style.scanName (c :: cs) =
      if style.starts c then
        if (cs.takeWhile style.continues).length == 0 && style.extraStart.contains c &&
            !style.extraPart.contains c then none
        else some ((cs.takeWhile style.continues).length + 1)
      else none := rfl

/-- The characters of a name, by its first character. -/
theorem exists_cons_of_scanName {cs : List Char} (h : style.scanName cs = some n) :
    ∃ c rest, cs = c :: rest ∧ style.starts c = true ∧
      n = (rest.takeWhile style.continues).length + 1 := by
  cases cs with
  | nil => cases h
  | cons c rest =>
      rw [scanName_cons] at h
      split at h
      · rename_i hc
        split at h
        · cases h
        · exact ⟨c, rest, rfl, hc, (Option.some.inj h).symm⟩
      · cases h

theorem scanName_append {cs : List Char} (h : style.scanName xs = some n)
    (hlt : n < xs.length) : style.scanName (xs ++ cs) = some n := by
  obtain ⟨c, rest, rfl, hc, rfl⟩ := exists_cons_of_scanName h
  rw [List.length_cons] at hlt
  rw [List.cons_append, scanName_cons, takeWhile_append_of_lt (by omega)]
  rwa [scanName_cons] at h

theorem local_scanName (style : IdentifierStyle) : Local style.scanName := by
  intro xs ys n h hn
  obtain ⟨c, rest, hcons, hc, rfl⟩ := exists_cons_of_scanName h
  cases xs with
  | nil => simp at hn
  | cons d xs =>
      obtain ⟨rfl, rfl⟩ := List.cons.inj (hcons.symm.trans (List.cons_append ..))
      rw [List.cons_append, scanName_cons] at h
      rw [List.length_cons] at hn
      rw [scanName_cons, ← takeWhile_append_of_le (Nat.le_of_succ_le_succ hn)]
      exact h

/-- A name stays one where text is added, though it may become longer. -/
theorem scanName_append_ne_none (h : style.scanName xs ≠ none) :
    style.scanName (xs ++ ys) ≠ none := by
  obtain ⟨n, hn⟩ := Option.ne_none_iff_exists'.1 h
  obtain ⟨c, rest, rfl, hc, rfl⟩ := exists_cons_of_scanName hn
  rw [scanName_cons, if_pos hc] at hn
  split at hn
  · cases hn
  rename_i hlone
  rw [List.cons_append, scanName_cons, if_pos hc, if_neg]
  · exact Option.some_ne_none _
  · -- the run of further characters does not become shorter
    intro hnone
    refine hlone ?_
    rw [Bool.and_eq_true, Bool.and_eq_true, beq_iff_eq] at hnone ⊢
    refine ⟨⟨?_, hnone.1.2⟩, hnone.2⟩
    have hzero := hnone.1.1
    rw [List.takeWhile_append] at hzero
    split at hzero
    · rename_i hall
      rw [List.length_append] at hzero
      omega
    · exact hzero

/-! ## Dotted names -/

theorem scanDots_of_head?_ne {cs : List Char} (h : cs.head? ≠ some '.') :
    style.scanDots cs = 0 := by
  rw [scanDots]
  rintro rest rfl
  exact h rfl

theorem scanDots_append_of_le (h : style.scanDots (xs ++ ys) ≤ xs.length) :
    style.scanDots xs = style.scanDots (xs ++ ys) := by
  induction hlen : xs.length using Nat.strong_induction_on generalizing xs with
  | _ len ih =>
  subst hlen
  by_cases hdot : (xs ++ ys).head? = some '.'
  · cases xs with
    | nil =>
        rw [List.length_nil, Nat.le_zero] at h
        rw [h, scanDots_of_head?_ne (by simp)]
    | cons c xs =>
        obtain rfl : c = '.' := by simpa using hdot
        rw [List.cons_append, scanDots] at h ⊢
        rw [scanDots]
        cases hn : style.scanName (xs ++ ys) with
        | none =>
            cases hm : style.scanName xs with
            | none => rfl
            | some m => exact absurd hn (scanName_append_ne_none (by rw [hm]; simp))
        | some n =>
            rw [hn] at h
            simp only [List.length_cons] at h
            have hle : n ≤ xs.length := by omega
            rw [List.drop_append_of_le_length hle] at h
            rw [local_scanName style xs ys n hn hle]
            simp only [List.drop_append_of_le_length hle]
            rw [ih _ (by rw [List.length_drop, List.length_cons]; omega)
              (by rw [List.length_drop]; omega) rfl]
  · rw [scanDots_of_head?_ne hdot, scanDots_of_head?_ne]
    cases xs with
    | nil => simp
    | cons c xs => simpa using hdot

/-- The dots end where another character follows. -/
theorem scanDots_append (hne : xs.drop (style.scanDots xs) ≠ [])
    (hdot : (xs.drop (style.scanDots xs)).head? ≠ some '.') :
    style.scanDots (xs ++ ys) = style.scanDots xs := by
  fun_induction scanDots style xs with
  | case1 cs n hn ih =>
      have hshift : ('.' :: cs).drop (n + 1 + style.scanDots (cs.drop n)) =
          (cs.drop n).drop (style.scanDots (cs.drop n)) := by
        rw [Nat.add_right_comm, List.drop_succ_cons, List.drop_drop]
      rw [hshift] at hne hdot
      have hlt : n < cs.length := by
        rw [List.drop_drop, ne_eq, List.drop_eq_nil_iff] at hne
        omega
      rw [List.cons_append, scanDots, scanName_append hn hlt]
      simp only [List.drop_append_of_le_length hlt.le, ih hne hdot]
  | case2 cs hn => exact absurd rfl hdot
  | case3 cs hcs =>
      rw [scanDots_of_head?_ne]
      cases cs with
      | nil => exact absurd rfl hne
      | cons c cs =>
          rw [List.cons_append, List.head?_cons]
          rintro h
          cases h
          exact hcs cs rfl

theorem local_scanDotted (style : IdentifierStyle) : Local style.scanDotted := by
  intro xs ys n h hn
  obtain ⟨k, hk, rfl⟩ := Option.map_eq_some_iff.1 h
  have hle : k ≤ xs.length := by omega
  rw [List.drop_append_of_le_length hle] at hn ⊢
  have hdots : style.scanDots (xs.drop k) = style.scanDots (xs.drop k ++ ys) :=
    scanDots_append_of_le (by rw [List.length_drop]; omega)
  rw [scanDotted, local_scanName style xs ys k hk hle, Option.map_some, hdots]

theorem scanDotted_append_ne_none (h : style.scanDotted xs ≠ none) :
    style.scanDotted (xs ++ ys) ≠ none := by
  rw [scanDotted, ne_eq, Option.map_eq_none_iff] at h ⊢
  exact scanName_append_ne_none h

theorem scanDotted_append (h : style.scanDotted xs = some n) (hne : xs.drop n ≠ [])
    (hdot : (xs.drop n).head? ≠ some '.') : style.scanDotted (xs ++ ys) = some n := by
  obtain ⟨k, hk, rfl⟩ := Option.map_eq_some_iff.1 h
  rw [← List.drop_drop] at hne hdot
  have hlt : k < xs.length := by
    rw [List.drop_drop, ne_eq, List.drop_eq_nil_iff] at hne
    omega
  rw [scanDotted, scanName_append hk hlt, Option.map_some, List.drop_append_of_le_length hlt.le,
    scanDots_append hne hdot]

/-! ## Array brackets -/

theorem scanArrays_of_head?_ne {cs : List Char} (h : cs.head? ≠ some '[') : scanArrays cs = 0 := by
  rw [scanArrays]
  rintro rest rfl
  exact h rfl

theorem scanArrays_append_of_le (h : scanArrays (xs ++ ys) ≤ xs.length) :
    scanArrays xs = scanArrays (xs ++ ys) := by
  fun_induction scanArrays xs with
  | case1 cs ih =>
      rw [List.cons_append, List.cons_append, scanArrays] at h ⊢
      rw [ih (by simp only [List.length_cons] at h; omega)]
  | case2 cs hcs =>
      rcases cs with _ | ⟨c, _ | ⟨d, cs⟩⟩
      · exact (Nat.le_zero.1 h).symm
      · -- a bracket whose partner is cut off would be read
        rw [List.singleton_append] at h ⊢
        unfold scanArrays at h ⊢
        split at h
        · rw [List.length_singleton] at h
          omega
        · rfl
      · rw [List.cons_append, List.cons_append, scanArrays]
        rintro rest hrest
        cases hrest
        exact hcs cs rfl

theorem scanArrays_append (hne : xs.drop (scanArrays xs) ≠ [])
    (hopen : (xs.drop (scanArrays xs)).head? ≠ some '[') :
    scanArrays (xs ++ ys) = scanArrays xs := by
  fun_induction scanArrays xs with
  | case1 cs ih =>
      rw [Nat.add_comm, List.drop_succ_cons, List.drop_succ_cons] at hne hopen
      rw [List.cons_append, List.cons_append, scanArrays, ih hne hopen]
  | case2 cs hcs =>
      refine scanArrays_of_head?_ne ?_
      cases cs with
      | nil => exact absurd rfl hne
      | cons c cs => exact hopen

/-! ## Arguments -/

/-- What follows is the end of a type argument: a comma or the closing bracket, possibly behind
spaces. -/
def EndsArgument (cs : List Char) : Prop :=
  (cs.drop (spaces cs)).head? = some ',' ∨ (cs.drop (spaces cs)).head? = some '>'

/-- A scanner that reads the same where text is added, if the end of an argument follows what it
reads. -/
def Sealed (scan : List Char → Option Nat) : Prop :=
  ∀ xs ys n, scan xs = some n → EndsArgument (xs.drop n) → scan (xs ++ ys) = some n

theorem EndsArgument.head? {cs : List Char} (h : EndsArgument cs) :
    cs.head? = some ' ' ∨ cs.head? = some ',' ∨ cs.head? = some '>' := by
  cases cs with
  | nil => simp [EndsArgument] at h
  | cons c cs =>
      by_cases hc : c = ' '
      · exact .inl (by rw [hc, List.head?_cons])
      · right
        have hzero : spaces (c :: cs) = 0 := by simp [spaces, hc]
        rwa [EndsArgument, hzero] at h

theorem EndsArgument.drop_ne_nil {cs : List Char} (h : EndsArgument cs) :
    cs.drop (spaces cs) ≠ [] := by
  intro hnil
  rw [EndsArgument, hnil] at h
  simp at h

theorem EndsArgument.ne_nil {cs : List Char} (h : EndsArgument cs) : cs ≠ [] := by
  rintro rfl
  exact h.drop_ne_nil rfl

theorem spaces_append (h : xs.drop (spaces xs) ≠ []) : spaces (xs ++ ys) = spaces xs := by
  rw [ne_eq, List.drop_eq_nil_iff, Nat.not_le] at h
  rw [spaces, takeWhile_append_of_lt h, spaces]

theorem spaces_append_of_le (h : spaces (xs ++ ys) ≤ xs.length) :
    spaces (xs ++ ys) = spaces xs := by
  rw [spaces, takeWhile_append_of_le h, spaces]

theorem EndsArgument.append {cs : List Char} (h : EndsArgument cs) : EndsArgument (cs ++ ys) := by
  have hne := h.drop_ne_nil
  have hhead : (cs.drop (spaces cs) ++ ys).head? = (cs.drop (spaces cs)).head? := by
    rw [List.head?_append, Option.or_of_isSome (List.isSome_head?.2 hne)]
  rw [EndsArgument, spaces_append hne, List.drop_append_of_le_length (spaces_le cs), hhead]
  exact h

/-- The list of arguments behind an argument of `n` characters. -/
theorem scanArguments_eq (arg : List Char → Option Nat) (cs : List Char) :
    scanArguments arg cs = (arg cs).bind fun n =>
      match cs.drop (n + spaces (cs.drop n)) with
      | ',' :: rest => (scanArguments arg (rest.drop (spaces rest))).map
          (n + spaces (cs.drop n) + 1 + spaces rest + ·)
      | '>' :: _ => some (n + spaces (cs.drop n) + 1)
      | _ => none := by
  rw [scanArguments]
  cases arg cs with
  | none => rfl
  | some n =>
      simp only [Option.bind_some]
      split <;> simp_all

/-- What stands behind the last argument that is read. -/
theorem exists_of_scanArguments {arg : List Char → Option Nat} {cs : List Char}
    (h : scanArguments arg cs = some n) : ∃ m, arg cs = some m ∧ EndsArgument (cs.drop m) ∧
      m + spaces (cs.drop m) < n := by
  rw [scanArguments_eq, Option.bind_eq_some_iff] at h
  obtain ⟨m, hm, h⟩ := h
  refine ⟨m, hm, ?_⟩
  rw [EndsArgument, List.drop_drop]
  split at h
  · rename_i rest hrest
    obtain ⟨k, -, rfl⟩ := Option.map_eq_some_iff.1 h
    exact ⟨.inl (by rw [hrest, List.head?_cons]), by omega⟩
  · rename_i rest hrest
    cases h
    exact ⟨.inr (by rw [hrest, List.head?_cons]), Nat.lt_succ_self _⟩
  · cases h

/-- A list that can be read stays so where text is added. -/
def Complete (scan : List Char → Option Nat) : Prop :=
  ∀ xs ys n, scan xs = some n → scan (xs ++ ys) = some n

theorem complete_scanArguments {arg : List Char → Option Nat} (harg : Sealed arg) :
    Complete (scanArguments arg) := by
  intro xs ys n h
  induction hlen : xs.length using Nat.strong_induction_on generalizing xs n with
  | _ len ih =>
  subst hlen
  obtain ⟨m, hm, hends, -⟩ := exists_of_scanArguments h
  have hlong : m < xs.length := by
    have := hends.ne_nil
    rw [ne_eq, List.drop_eq_nil_iff] at this
    omega
  have hspaces : spaces ((xs ++ ys).drop m) = spaces (xs.drop m) := by
    rw [List.drop_append_of_le_length hlong.le, spaces_append hends.drop_ne_nil]
  have hstop : m + spaces (xs.drop m) < xs.length := by
    have := hends.drop_ne_nil
    rw [List.drop_drop, ne_eq, List.drop_eq_nil_iff] at this
    omega
  rw [scanArguments_eq, hm, Option.bind_some] at h
  rw [scanArguments_eq, harg xs ys m hm hends, Option.bind_some, hspaces,
    List.drop_append_of_le_length hstop.le]
  split at h
  · rename_i rest hrest
    obtain ⟨k, hk, rfl⟩ := Option.map_eq_some_iff.1 h
    have hshort : (rest.drop (spaces rest)).length < xs.length := by
      have hlen := congrArg List.length hrest
      rw [List.length_drop, List.length_cons] at hlen
      rw [List.length_drop]
      omega
    have hne : rest.drop (spaces rest) ≠ [] := by
      intro hnil
      rw [hnil] at hk
      obtain ⟨i, -, hi, -⟩ := exists_of_scanArguments hk
      rw [List.drop_nil] at hi
      exact hi.ne_nil rfl
    rw [hrest, List.cons_append]
    simp only [spaces_append hne, List.drop_append_of_le_length (spaces_le rest),
      ih _ hshort _ _ hk rfl, Option.map_some]
  · rename_i rest hrest
    rw [hrest, List.cons_append]
    exact h
  · cases h

theorem local_scanArguments {arg : List Char → Option Nat} (harg : Local arg) :
    Local (scanArguments arg) := by
  intro xs ys n h hn
  induction hlen : xs.length using Nat.strong_induction_on generalizing xs n with
  | _ len ih =>
  subst hlen
  obtain ⟨m, hm, -, hstop⟩ := exists_of_scanArguments h
  have hspaces : spaces ((xs ++ ys).drop m) = spaces (xs.drop m) := by
    rw [List.drop_append_of_le_length (by omega)] at hstop ⊢
    exact spaces_append_of_le (by rw [List.length_drop]; omega)
  rw [hspaces] at hstop
  rw [scanArguments_eq, hm, Option.bind_some, hspaces] at h
  rw [scanArguments_eq, harg xs ys m hm (by omega), Option.bind_some]
  split at h
  · rename_i rest hrest
    obtain ⟨k, hk, rfl⟩ := Option.map_eq_some_iff.1 h
    obtain ⟨tail, htail, rfl⟩ := exists_of_drop_append (by omega) hrest
    have hlen := congrArg List.length htail
    rw [List.length_drop, List.length_cons] at hlen
    have hskip : spaces (tail ++ ys) = spaces tail := spaces_append_of_le (by omega)
    have hinside := spaces_le tail
    rw [hskip, List.drop_append_of_le_length hinside] at hk
    rw [hskip] at hn ⊢
    rw [htail]
    have hk := ih _ (by rw [List.length_drop]; omega) _ _ hk
      (by rw [List.length_drop]; omega) rfl
    simp only [hk, Option.map_some]
  · rename_i rest hrest
    obtain ⟨tail, htail, rfl⟩ := exists_of_drop_append (by omega) hrest
    rw [htail]
    exact h
  · cases h

theorem scanBrackets_cons (arg : List Char → Option Nat) (cs : List Char) :
    scanBrackets arg ('<' :: cs) =
      (scanArguments arg (cs.drop (spaces cs))).map (1 + spaces cs + ·) := rfl

theorem exists_cons_of_scanBrackets {arg : List Char → Option Nat} {cs : List Char}
    (h : scanBrackets arg cs = some n) : ∃ rest k, cs = '<' :: rest ∧
      scanArguments arg (rest.drop (spaces rest)) = some k ∧ n = 1 + spaces rest + k := by
  unfold scanBrackets at h
  split at h
  · rename_i rest
    obtain ⟨k, hk, rfl⟩ := Option.map_eq_some_iff.1 h
    exact ⟨rest, k, rfl, hk, rfl⟩
  · cases h

theorem complete_scanBrackets {arg : List Char → Option Nat} (harg : Sealed arg) :
    Complete (scanBrackets arg) := by
  intro xs ys n h
  obtain ⟨rest, k, rfl, hk, rfl⟩ := exists_cons_of_scanBrackets h
  have hne : rest.drop (spaces rest) ≠ [] := by
    intro hnil
    rw [hnil] at hk
    obtain ⟨i, -, hi, -⟩ := exists_of_scanArguments hk
    rw [List.drop_nil] at hi
    exact hi.ne_nil rfl
  rw [List.cons_append, scanBrackets_cons, spaces_append hne,
    List.drop_append_of_le_length (spaces_le rest), complete_scanArguments harg _ _ _ hk,
    Option.map_some]

theorem local_scanBrackets {arg : List Char → Option Nat} (harg : Local arg) :
    Local (scanBrackets arg) := by
  intro xs ys n h hn
  obtain ⟨rest, k, hcons, hk, rfl⟩ := exists_cons_of_scanBrackets h
  cases xs with
  | nil => simp at hn
  | cons c xs =>
      obtain ⟨rfl, rfl⟩ := List.cons.inj (hcons.symm.trans (List.cons_append ..))
      rw [List.length_cons] at hn
      have hskip : spaces (xs ++ ys) = spaces xs := spaces_append_of_le (by omega)
      have hinside := spaces_le xs
      rw [hskip, List.drop_append_of_le_length hinside] at hk
      rw [hskip] at hn ⊢
      rw [scanBrackets_cons, local_scanArguments harg _ _ _ hk (by rw [List.length_drop]; omega),
        Option.map_some]

/-! ## Wildcards -/

theorem scanArgument_wildcard (hw : style.wildcards = true) (type : List Char → Option Nat)
    (cs : List Char) : style.scanArgument type ('?' :: cs) =
      match (scanBound type "extends" (cs.drop (spaces cs))).or
          (scanBound type "super" (cs.drop (spaces cs))) with
      | some bound => bound.map (1 + spaces cs + ·)
      | none => some 1 := by
  unfold scanArgument
  rw [hw]
  rfl

theorem scanArgument_plain {cs : List Char}
    (h : ¬ (style.wildcards = true ∧ cs.head? = some '?')) (type : List Char → Option Nat) :
    style.scanArgument type cs = type cs := by
  unfold scanArgument
  split
  · rename_i hw
    exact absurd ⟨hw, rfl⟩ h
  · rfl

/-- The keyword of a bound with the space behind it. -/
def boundMark (keyword : String) : List Char := keyword.toList ++ [' ']

theorem scanBound_eq (type : List Char → Option Nat) (keyword : String) (cs : List Char) :
    scanBound type keyword cs =
      if (boundMark keyword).isPrefixOf cs then
        some ((type (cs.drop (keyword.length + spaces (cs.drop keyword.length)))).map
          (keyword.length + spaces (cs.drop keyword.length) + ·))
      else none := by
  have hmark : (keyword.toList.isPrefixOf cs && (cs.drop keyword.length).head? == some ' ') =
      (boundMark keyword).isPrefixOf cs := by
    rw [Bool.eq_iff_iff, Bool.and_eq_true, beq_iff_eq, List.isPrefixOf_iff_prefix,
      List.isPrefixOf_iff_prefix, boundMark]
    constructor
    · rintro ⟨⟨rest, rfl⟩, hspace⟩
      rw [← String.length_toList, List.drop_left] at hspace
      obtain ⟨rest, rfl⟩ := List.head?_eq_some_iff.1 hspace
      exact ⟨rest, by simp⟩
    · rintro ⟨rest, rfl⟩
      rw [List.append_assoc, ← String.length_toList, List.drop_left]
      exact ⟨List.prefix_append _ _, rfl⟩
  rw [scanBound, hmark]

theorem spaces_pos_of_boundMark {keyword : String} {cs : List Char}
    (h : (boundMark keyword).isPrefixOf cs = true) : 0 < spaces (cs.drop keyword.length) := by
  obtain ⟨rest, rfl⟩ := List.isPrefixOf_iff_prefix.1 h
  rw [boundMark, List.append_assoc, ← String.length_toList, List.drop_left]
  simp [spaces]

/-- A bound that is read inside the text in front is that of this text, and so is a missing
one. -/
theorem scanBound_append_of_le {type : List Char → Option Nat} (htype : Local type)
    (keyword : String) :
    (scanBound type keyword (xs ++ ys) = none → scanBound type keyword xs = none) ∧
      ∀ m, scanBound type keyword (xs ++ ys) = some (some m) → m ≤ xs.length →
        scanBound type keyword xs = some (some m) := by
  rw [scanBound_eq, scanBound_eq]
  constructor
  · intro hnone
    rw [if_neg]
    intro hpre
    rw [List.isPrefixOf_iff_prefix] at hpre
    rw [if_pos (List.isPrefixOf_iff_prefix.2 (hpre.trans (List.prefix_append xs ys)))] at hnone
    cases hnone
  · intro m hsome hm
    split at hsome
    · rename_i hpre
      obtain ⟨k, hk, rfl⟩ := Option.map_eq_some_iff.1 (Option.some.inj hsome)
      have hlong : keyword.length ≤ xs.length := by omega
      have hskip : spaces ((xs ++ ys).drop keyword.length) = spaces (xs.drop keyword.length) := by
        rw [List.drop_append_of_le_length hlong] at hm ⊢
        exact spaces_append_of_le (by rw [List.length_drop]; omega)
      rw [hskip] at hm hk ⊢
      have hinside : keyword.length + spaces (xs.drop keyword.length) ≤ xs.length := by omega
      rw [List.drop_append_of_le_length hinside] at hk
      have hfits : (boundMark keyword).length ≤ xs.length := by
        have hspace := spaces_pos_of_boundMark hpre
        rw [hskip] at hspace
        rw [boundMark, List.length_append, String.length_toList, List.length_singleton]
        omega
      rw [if_pos, htype _ _ _ hk (by rw [List.length_drop]; omega), Option.map_some]
      rw [List.isPrefixOf_iff_prefix] at hpre ⊢
      exact List.prefix_of_prefix_length_le hpre (List.prefix_append xs ys) hfits
    · cases hsome

/-- A bound behind which an argument ends is read where text is added, too. -/
theorem scanBound_append {type : List Char → Option Nat} (htype : Sealed type) {keyword : String}
    {m : Nat} (h : scanBound type keyword xs = some (some m)) (hends : EndsArgument (xs.drop m)) :
    scanBound type keyword (xs ++ ys) = some (some m) := by
  rw [scanBound_eq] at h ⊢
  split at h
  · rename_i hpre
    obtain ⟨k, hk, rfl⟩ := Option.map_eq_some_iff.1 (Option.some.inj h)
    have hlong : keyword.length + spaces (xs.drop keyword.length) < xs.length := by
      have := hends.ne_nil
      rw [ne_eq, List.drop_eq_nil_iff] at this
      omega
    have hskip : spaces ((xs ++ ys).drop keyword.length) = spaces (xs.drop keyword.length) := by
      rw [List.drop_append_of_le_length (by omega), spaces_append]
      rw [List.drop_drop, ne_eq, List.drop_eq_nil_iff]
      omega
    rw [← List.drop_drop] at hends
    rw [hskip, List.drop_append_of_le_length hlong.le, htype _ _ _ hk hends, if_pos,
      Option.map_some]
    rw [List.isPrefixOf_iff_prefix] at hpre ⊢
    exact hpre.trans (List.prefix_append xs ys)
  · cases h

/-- Where one keyword stands, no other one does. -/
theorem scanBound_eq_none_of_head? {type : List Char → Option Nat} {keyword : String}
    {cs : List Char} (h : cs.head? ≠ (boundMark keyword).head?) :
    scanBound type keyword cs = none := by
  rw [scanBound_eq, if_neg]
  intro hpre
  obtain ⟨rest, rfl⟩ := List.isPrefixOf_iff_prefix.1 hpre
  have hne : boundMark keyword ≠ [] := by simp [boundMark]
  obtain ⟨c, mark, hmark⟩ := List.exists_cons_of_ne_nil hne
  rw [hmark] at h
  exact h rfl

theorem head?_of_scanBound {type : List Char → Option Nat} {keyword : String} {cs : List Char}
    {bound : Option Nat} (h : scanBound type keyword cs = some bound) :
    cs.head? = (boundMark keyword).head? := by
  by_contra hne
  rw [scanBound_eq_none_of_head? hne] at h
  cases h

/-- What a wildcard argument is: a bound that is read, or a question mark on its own. -/
theorem exists_of_scanArgument {type : List Char → Option Nat} (hw : style.wildcards = true)
    {cs : List Char} (h : style.scanArgument type ('?' :: cs) = some n) :
    (∃ keyword ∈ ["extends", "super"], ∃ m,
      scanBound type keyword (cs.drop (spaces cs)) = some (some m) ∧ n = 1 + spaces cs + m) ∨
    (∀ keyword ∈ ["extends", "super"], scanBound type keyword (cs.drop (spaces cs)) = none) ∧
      n = 1 := by
  rw [scanArgument_wildcard hw] at h
  split at h
  · rename_i bound hbound
    obtain ⟨m, rfl, rfl⟩ := Option.map_eq_some_iff.1 h
    rcases Option.or_eq_some_iff.1 hbound with hextends | ⟨-, hsuper⟩
    · exact .inl ⟨"extends", by simp, m, hextends, rfl⟩
    · exact .inl ⟨"super", by simp, m, hsuper, rfl⟩
  · rename_i hnone
    rw [Option.or_eq_none_iff] at hnone
    exact .inr ⟨by simp [hnone], (Option.some.inj h).symm⟩

theorem scanArgument_of_bound {type : List Char → Option Nat} (hw : style.wildcards = true)
    {cs : List Char} {keyword : String} (hmem : keyword ∈ ["extends", "super"]) {m : Nat}
    (h : scanBound type keyword (cs.drop (spaces cs)) = some (some m)) :
    style.scanArgument type ('?' :: cs) = some (1 + spaces cs + m) := by
  rw [scanArgument_wildcard hw]
  have hhead := head?_of_scanBound h
  simp only [List.mem_cons, List.not_mem_nil, or_false] at hmem
  rcases hmem with rfl | rfl
  · rw [h, Option.some_or]
    rfl
  · have hother : scanBound type "extends" (cs.drop (spaces cs)) = none :=
      scanBound_eq_none_of_head? (by rw [hhead]; decide)
    rw [hother, Option.none_or, h]
    rfl

theorem scanArgument_alone {type : List Char → Option Nat} (hw : style.wildcards = true)
    {cs : List Char}
    (h : ∀ keyword ∈ ["extends", "super"], scanBound type keyword (cs.drop (spaces cs)) = none) :
    style.scanArgument type ('?' :: cs) = some 1 := by
  rw [scanArgument_wildcard hw, h "extends" (by simp), h "super" (by simp)]
  rfl

theorem local_scanArgument {type : List Char → Option Nat} (htype : Local type) :
    Local (style.scanArgument type) := by
  intro xs ys n h hn
  by_cases hwild : style.wildcards = true ∧ (xs ++ ys).head? = some '?'
  case neg =>
    rw [scanArgument_plain hwild] at h
    rw [scanArgument_plain]
    · exact htype _ _ _ h hn
    · rintro ⟨hw, hhead⟩
      obtain ⟨rest, rfl⟩ := List.head?_eq_some_iff.1 hhead
      exact hwild ⟨hw, rfl⟩
  obtain ⟨hw, hmark⟩ := hwild
  cases xs with
  | nil =>
      obtain ⟨rest, hrest⟩ := List.head?_eq_some_iff.1 hmark
      rw [hrest] at h
      rw [List.length_nil] at hn
      rcases exists_of_scanArgument hw h with ⟨-, -, m, -, rfl⟩ | ⟨-, rfl⟩ <;> omega
  | cons c xs =>
      obtain rfl : c = '?' := by simpa using hmark
      rw [List.cons_append] at h
      rw [List.length_cons] at hn
      rcases exists_of_scanArgument hw h with ⟨keyword, hmem, m, hm, rfl⟩ | ⟨hnone, rfl⟩
      · have hskip : spaces (xs ++ ys) = spaces xs := spaces_append_of_le (by omega)
        rw [hskip, List.drop_append_of_le_length (spaces_le xs)] at hm
        rw [hskip] at hn ⊢
        exact scanArgument_of_bound hw hmem
          ((scanBound_append_of_le htype keyword).2 m hm (by rw [List.length_drop]; omega))
      · refine scanArgument_alone hw fun keyword hmem => ?_
        by_cases hle : spaces (xs ++ ys) ≤ xs.length
        · have hnone := hnone keyword hmem
          rw [spaces_append_of_le hle, List.drop_append_of_le_length (spaces_le xs)] at hnone
          exact (scanBound_append_of_le htype keyword).1 hnone
        · -- nothing but spaces is left in front
          have hall : xs.drop (spaces xs) = [] := by
            by_contra hne
            exact hle (by rw [spaces_append hne]; exact spaces_le xs)
          rw [hall]
          refine scanBound_eq_none_of_head? ?_
          simp only [List.mem_cons, List.not_mem_nil, or_false] at hmem
          rcases hmem with rfl | rfl <;> decide

theorem sealed_scanArgument {type : List Char → Option Nat} (htype : Sealed type) :
    Sealed (style.scanArgument type) := by
  intro xs ys n h hends
  by_cases hwild : style.wildcards = true ∧ xs.head? = some '?'
  case neg =>
    rw [scanArgument_plain hwild] at h
    rw [scanArgument_plain]
    · exact htype _ _ _ h hends
    · cases xs with
      | nil =>
          rw [List.drop_nil] at hends
          exact absurd rfl hends.ne_nil
      | cons c xs => exact hwild
  obtain ⟨hw, hhead⟩ := hwild
  obtain ⟨xs, rfl⟩ := List.head?_eq_some_iff.1 hhead
  rw [List.cons_append]
  rcases exists_of_scanArgument hw h with ⟨keyword, hmem, m, hm, rfl⟩ | ⟨hnone, rfl⟩
  · have hshift : ('?' :: xs).drop (1 + spaces xs + m) = (xs.drop (spaces xs)).drop m := by
      rw [Nat.add_assoc, Nat.add_comm, List.drop_succ_cons, List.drop_drop]
    rw [hshift] at hends
    have hne : xs.drop (spaces xs) ≠ [] := by
      intro hnil
      rw [hnil, List.drop_nil] at hends
      exact hends.ne_nil rfl
    have hbound : scanBound type keyword
        (xs.drop (spaces xs) ++ ys) = some (some m) := scanBound_append htype hm hends
    rw [← List.drop_append_of_le_length (spaces_le xs), ← spaces_append hne] at hbound
    rw [scanArgument_of_bound hw hmem hbound, spaces_append hne]
  · rw [List.drop_succ_cons, List.drop_zero] at hends
    refine scanArgument_alone hw fun keyword hmem => scanBound_eq_none_of_head? ?_
    rw [spaces_append hends.drop_ne_nil, List.drop_append_of_le_length (spaces_le xs),
      List.head?_append, Option.or_of_isSome (List.isSome_head?.2 hends.drop_ne_nil)]
    simp only [List.mem_cons, List.not_mem_nil, or_false] at hmem
    rcases hends with hends | hends <;> rcases hmem with rfl | rfl <;> rw [hends] <;> decide

/-! ## Types -/

theorem le_finish (nested : Bool) (cs : List Char) (n : Nat) :
    n ≤ scanType.finish nested cs n := by
  rw [scanType.finish]
  split <;> omega

/-- The marks behind the first `n` characters. -/
theorem finish_eq (nested : Bool) (cs : List Char) (n : Nat) : scanType.finish nested cs n =
    if nested = true ∧ (cs.drop n).head? = some '?' then n + 1 + scanArrays (cs.drop (n + 1))
    else n + scanArrays (cs.drop n) := by
  rw [scanType.finish]
  by_cases hmark : nested = true ∧ (cs.drop n).head? = some '?'
  · have : (nested && (cs.drop n).head? == some '?') = true := by
      rw [hmark.1, hmark.2]
      rfl
    simp only [if_pos hmark, this, if_true]
  · rw [if_neg hmark]
    have : (nested && (cs.drop n).head? == some '?') = false := by
      refine Bool.eq_false_iff.2 fun hboth => hmark ?_
      obtain ⟨hnested, hhead⟩ := Bool.and_eq_true_iff.1 hboth
      exact ⟨hnested, beq_iff_eq.1 hhead⟩
    simp only [this, Bool.false_eq_true, if_false]

theorem finish_append_of_le {nested : Bool} (h : scanType.finish nested (xs ++ ys) n ≤ xs.length) :
    scanType.finish nested xs n = scanType.finish nested (xs ++ ys) n := by
  have hn := (le_finish nested (xs ++ ys) n).trans h
  by_cases hlt : n < xs.length
  · have harrays : ∀ k, k ≤ xs.length → k + scanArrays ((xs ++ ys).drop k) ≤ xs.length →
        scanArrays (xs.drop k) = scanArrays ((xs ++ ys).drop k) := by
      intro k hk hle
      rw [List.drop_append_of_le_length hk] at hle ⊢
      exact scanArrays_append_of_le (by rw [List.length_drop]; omega)
    rw [finish_eq, head?_drop_append hlt] at h
    rw [finish_eq, finish_eq, head?_drop_append hlt]
    split at h
    · rename_i hmark
      rw [if_pos hmark, if_pos hmark, harrays (n + 1) (by omega) h]
    · rename_i hmark
      rw [if_neg hmark, if_neg hmark, harrays n hn h]
  · -- the text in front ends with the type, and so do its marks
    have hxs : xs.drop n = [] := List.drop_eq_nil_iff.2 (by omega)
    have heq : scanType.finish nested (xs ++ ys) n = n := by
      have := le_finish nested (xs ++ ys) n
      omega
    rw [heq, finish_eq, hxs]
    simp [scanArrays]

theorem finish_append {nested : Bool}
    (hends : EndsArgument (xs.drop (scanType.finish nested xs n))) :
    scanType.finish nested (xs ++ ys) n = scanType.finish nested xs n := by
  have hne := hends.ne_nil
  have hlt : n < xs.length := by
    have := le_finish nested xs n
    rw [ne_eq, List.drop_eq_nil_iff] at hne
    omega
  have hstop : (xs.drop (scanType.finish nested xs n)).head? ≠ some '[' := by
    rcases hends.head? with h | h | h <;> rw [h] <;> decide
  rw [finish_eq] at hne hstop
  rw [finish_eq, finish_eq, head?_drop_append hlt]
  split at hne
  · rename_i hmark
    rw [if_pos hmark] at hstop
    rw [← List.drop_drop] at hne hstop
    rw [if_pos hmark, if_pos hmark, List.drop_append_of_le_length (by omega),
      scanArrays_append hne hstop]
  · rename_i hmark
    rw [if_neg hmark] at hstop
    rw [← List.drop_drop] at hne hstop
    rw [if_neg hmark, if_neg hmark, List.drop_append_of_le_length hlt.le,
      scanArrays_append hne hstop]

/-- Reads the list of arguments of a type with at most `depth` levels of angle brackets. -/
def scanList (style : IdentifierStyle) : (depth : Nat) → List Char → Option Nat
  | 0, _ => none
  | depth + 1, cs => scanBrackets (style.scanArgument (style.scanType depth true)) cs

/-- A type is a name, its list and the marks behind them. -/
theorem scanType_eq (style : IdentifierStyle) (depth : Nat) (nested : Bool) (cs : List Char) :
    style.scanType depth nested cs = (style.scanDotted cs).bind fun n =>
      if style.generics && (cs.drop n).head? == some '<' then
        match style.scanList depth (cs.drop n) with
        | some k => some (scanType.finish nested cs (n + k))
        | none => if nested then none else some (scanType.finish nested cs n)
      else some (scanType.finish nested cs n) := by
  cases depth with
  | zero =>
      rw [scanType]
      cases style.scanDotted cs with
      | none => rfl
      | some n =>
          simp only [Option.bind_eq_bind, Option.bind_some, scanList]
          cases nested <;> simp
  | succ depth => rfl

/-- A type ends with its marks behind its name and its list, if there is one. -/
theorem exists_of_scanType {depth : Nat} {nested : Bool} {cs : List Char} {n : Nat}
    (h : style.scanType depth nested cs = some n) :
    ∃ m k, style.scanDotted cs = some m ∧ scanType.finish nested cs (m + k) = n := by
  rw [scanType_eq, Option.bind_eq_some_iff] at h
  obtain ⟨m, hm, h⟩ := h
  split at h
  · split at h
    · exact ⟨m, _, hm, Option.some.inj h⟩
    · split at h
      · cases h
      · exact ⟨m, 0, hm, Option.some.inj h⟩
  · exact ⟨m, 0, hm, Option.some.inj h⟩

theorem local_scanType_of_list {depth : Nat} (hlocal : Local (style.scanList depth))
    (hcomplete : Complete (style.scanList depth)) (nested : Bool) :
    Local (style.scanType depth nested) := by
  intro xs ys n h hn
  obtain ⟨m, k, hm, hfinish⟩ := exists_of_scanType h
  have hmk : m + k ≤ n := hfinish ▸ le_finish _ _ _
  have hle : m ≤ xs.length := by omega
  rw [scanType_eq, hm, Option.bind_some] at h
  have hplain : ∀ {k}, scanType.finish nested (xs ++ ys) k = n →
      scanType.finish nested xs k = n := by
    rintro k rfl
    exact finish_append_of_le hn
  rw [scanType_eq, local_scanDotted style _ _ _ hm hle, Option.bind_some]
  rw [List.drop_append_of_le_length hle] at h
  cases hxs : xs.drop m with
  | nil =>
      -- what follows the name is cut off
      have hxslen := List.drop_eq_nil_iff.1 hxs
      obtain rfl : k = 0 := by omega
      rw [if_neg (by simp)]
      exact congrArg some (hplain hfinish)
  | cons c tail =>
      rw [hxs, List.cons_append, List.head?_cons, ← List.cons_append, ← hxs] at h
      rw [List.head?_cons, ← hxs]
      split at h
      · rename_i hlist
        rw [if_pos hlist]
        split at h
        · rename_i k hk
          have hk := hlocal _ _ _ hk (by
            have := le_finish nested (xs ++ ys) (m + k)
            rw [Option.some.inj h] at this
            rw [List.length_drop]
            omega)
          rw [hk]
          exact congrArg some (hplain (Option.some.inj h))
        · rename_i hnone
          have hno : style.scanList depth (xs.drop m) = none := by
            cases hk : style.scanList depth (xs.drop m) with
            | none => rfl
            | some k => rw [hcomplete _ ys _ hk] at hnone; cases hnone
          rw [hno]
          split at h
          · cases h
          · rename_i hnested
            dsimp only
            rw [if_neg hnested, hplain (Option.some.inj h)]
      · rename_i hlist
        rw [if_neg hlist, hplain (Option.some.inj h)]

theorem sealed_scanType_of_list {depth : Nat} (hcomplete : Complete (style.scanList depth)) :
    Sealed (style.scanType depth true) := by
  intro xs ys n h hends
  rw [scanType_eq, Option.bind_eq_some_iff] at h
  obtain ⟨m, hm, h⟩ := h
  have hfinish : ∀ {k}, scanType.finish true xs k = n →
      scanType.finish true (xs ++ ys) k = n ∧ k < xs.length := by
    rintro k rfl
    have hne := hends.ne_nil
    rw [ne_eq, List.drop_eq_nil_iff] at hne
    exact ⟨finish_append hends, by have := le_finish true xs k; omega⟩
  -- behind the name there is no dot, since a dot would not end an argument
  have hname : m < xs.length ∧ (xs.drop m).head? ≠ some '.' := by
    split at h
    · rename_i hlist
      obtain ⟨-, hopen⟩ := Bool.and_eq_true_iff.1 hlist
      rw [beq_iff_eq] at hopen
      refine ⟨?_, by rw [hopen]; decide⟩
      rw [List.head?_drop] at hopen
      exact (List.getElem?_eq_some_iff.1 hopen).1
    · refine ⟨(hfinish (Option.some.inj h)).2, fun hdot => ?_⟩
      have hzero : scanType.finish true xs m = m := by
        rw [finish_eq, if_neg (by rw [hdot]; simp), scanArrays_of_head?_ne (by rw [hdot]; decide),
          Nat.add_zero]
      rw [hzero] at h
      cases h
      rcases hends.head? with h | h | h <;> rw [hdot] at h <;> cases h
  obtain ⟨hlt, hdot⟩ := hname
  have hne : xs.drop m ≠ [] := by
    rw [ne_eq, List.drop_eq_nil_iff]
    omega
  rw [scanType_eq, scanDotted_append hm hne hdot, Option.bind_some, head?_drop_append hlt,
    List.drop_append_of_le_length hlt.le]
  split at h
  · rename_i hlist
    rw [if_pos hlist]
    split at h
    · rename_i k hk
      rw [hcomplete _ ys _ hk]
      exact congrArg some (hfinish (Option.some.inj h)).1
    · cases h
  · rename_i hlist
    rw [if_neg hlist, (hfinish (Option.some.inj h)).1]

/-- Lists can be cut off and stay lists where text is added, whatever their depth. -/
theorem local_complete_scanList (style : IdentifierStyle) (depth : Nat) :
    Local (style.scanList depth) ∧ Complete (style.scanList depth) := by
  induction depth with
  | zero =>
      constructor <;>
      · intro xs ys n h
        cases h
  | succ depth ih =>
      exact ⟨local_scanBrackets (local_scanArgument (local_scanType_of_list ih.1 ih.2 true)),
        complete_scanBrackets (sealed_scanArgument (sealed_scanType_of_list ih.2))⟩

theorem local_scanType (style : IdentifierStyle) (depth : Nat) (nested : Bool) :
    Local (style.scanType depth nested) :=
  have h := local_complete_scanList style depth
  local_scanType_of_list h.1 h.2 nested

/-- Identifiers can be cut off. -/
theorem local_scan (style : IdentifierStyle) : Local style.scan :=
  local_scanType style style.maxDepth false

/-- An identifier stays one where text is added, though it may become longer. -/
theorem scan_append_ne_none (h : style.scan xs ≠ none) : style.scan (xs ++ ys) ≠ none := by
  have hscan : ∀ cs, style.scan cs = none ↔ style.scanDotted cs = none := by
    intro cs
    rw [scan, scanType_eq, Option.bind_eq_none_iff]
    constructor
    · intro hnone
      cases hn : style.scanDotted cs with
      | none => rfl
      | some n =>
          have := hnone n hn
          split at this
          · split at this <;> cases this
          · cases this
    · intro hnone n hn
      rw [hnone] at hn
      cases hn
  rw [ne_eq, hscan] at h ⊢
  exact scanDotted_append_ne_none h

end IdentifierStyle

end Outline
