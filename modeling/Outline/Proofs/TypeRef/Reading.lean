import Mathlib.Data.List.Chain
import Outline.Proofs.TypeRef.Markers

/-!
# Reading flat texts

A segment of flat text whose markers all name their own lists is read as the tree of its pieces,
and uses these lists up.

* `readSegment_eq` — a segment with its wildcards, its marker and its name set apart.
* `Piece.reads_of_numbered` — the reading of a segment.
* `Piece.parseChars_texts` — the reading of a text without digits directly behind its closing
  brackets.
-/

namespace Outline.TypeRef

/-! ## One segment -/

/-- The type with the given arguments whose name and marks a flat segment has. -/
def Segment.named (s : Segment) (params : List TypeRef) : Except TypeErrorCause TypeRef :=
  let name := Text.trimEnd (s.core.takeWhile (· != markerStart))
  if name.isEmpty then .error .missingName
  else .ok {
    name := String.ofList name, nullable := s.nullable, dimensions := s.dimensions, params }

/-- Reads the arguments that the marker of a flat segment stands for. -/
def readParams (levels : Nat) (core : List Char) :
    StateT ArgumentLists (Except TypeErrorCause) (List TypeRef) :=
  match levels, core.dropWhile (· != markerStart) with
  | _, [] => pure []
  | 0, _ => throw .invalidMarker
  | levels + 1, _ :: digits => do
    let list ← takeList digits
    (Text.pieces ',' list).mapM (readSegment levels)

theorem pure_apply {α : Type} (a : α) (lists : ArgumentLists) :
    (pure a : StateT ArgumentLists (Except TypeErrorCause) α) lists = .ok (a, lists) := rfl

theorem readSegment_eq (levels : Nat) (cs : List Char) (lists : ArgumentLists) :
    readSegment levels cs lists = match stripWildcards (Text.trim cs) with
      | none => .error .missingName
      | some (names, none) => .ok (names.foldr bounded (simple anyWildcard), lists)
      | some (names, some plain) =>
        readParams levels (stripMarks plain).core lists >>= fun (params, lists') =>
          ((stripMarks plain).named params).map fun t => (names.foldr bounded t, lists') := by
  rw [readSegment.eq_def]
  dsimp only
  cases stripWildcards (Text.trim cs) with
  | none => rfl
  | some found =>
      obtain ⟨names, plain?⟩ := found
      cases plain? with
      | none => rfl
      | some plain =>
          dsimp only
          unfold readParams Segment.named
          cases (stripMarks plain).core.dropWhile (· != markerStart) with
          | nil =>
              simp only [bind, StateT.bind, Except.bind, pure_apply]
              split <;> rfl
          | cons m digits =>
              cases levels with
              | zero => rfl
              | succ levels =>
                  simp only [bind, StateT.bind, Except.bind, pure]
                  cases takeList digits lists with
                  | error e => rfl
                  | ok taken =>
                      dsimp only
                      cases (Text.pieces ',' taken.1).mapM (readSegment levels) taken.2 with
                      | error e => rfl
                      | ok read =>
                          dsimp only
                          split <;> rfl

theorem stripWildcards_plain {cs : List Char} (h : ∀ rest, cs ≠ '?' :: rest) :
    stripWildcards cs = some ([], some cs) := by
  rw [stripWildcards]
  exact h

/-- The name of a wildcard with a bound, and the text of the bound. -/
def boundText? (cs : List Char) : Option (String × List Char) :=
  ((boundTarget? "extends" cs).map (upperWildcard, ·)).or
    ((boundTarget? "super" cs).map (lowerWildcard, ·))

theorem stripWildcards_wildcard (rest : List Char) :
    stripWildcards ('?' :: rest) =
      if (Text.trimStart rest).isEmpty then some ([], none)
      else (boundText? (Text.trimStart rest)).bind fun (name, target) =>
        (stripWildcards (Text.trim target)).map (Prod.map (name :: ·) id) := by
  rw [stripWildcards]
  dsimp only
  split
  · rfl
  · unfold boundText?
    split
    · rename_i target htarget
      rw [htarget]
      rfl
    · rename_i hnone
      rw [hnone]
      split
      · rename_i target htarget
        rw [htarget]
        rfl
      · rename_i hnone'
        rw [hnone']
        rfl

theorem readSegment_wildcard {cs rest : List Char} (h : Text.trim cs = '?' :: rest) (levels : Nat)
    (lists : ArgumentLists) :
    readSegment levels cs lists =
      if (Text.trimStart rest).isEmpty then .ok (simple anyWildcard, lists)
      else match boundText? (Text.trimStart rest) with
        | some (name, target) =>
          (readSegment levels target lists).map (Prod.map (bounded name) id)
        | none => .error .missingName := by
  rw [readSegment_eq, h, stripWildcards_wildcard]
  by_cases hrest : (Text.trimStart rest).isEmpty = true
  · rw [if_pos hrest, if_pos hrest]
    rfl
  · rw [if_neg hrest, if_neg hrest]
    cases boundText? (Text.trimStart rest) with
    | none => rfl
    | some found =>
        obtain ⟨name, target⟩ := found
        dsimp only [Option.bind_some]
        rw [readSegment_eq levels target]
        cases stripWildcards (Text.trim target) with
        | none => rfl
        | some found =>
            obtain ⟨names, plain?⟩ := found
            cases plain? with
            | none => rfl
            | some plain =>
                simp only [Option.map_some, Prod.map, id]
                cases readParams levels (stripMarks plain).core lists with
                | error e => rfl
                | ok read =>
                    simp only [bind, Except.bind]
                    cases (stripMarks plain).named read.1 <;> rfl

theorem readSegment_plain {cs : List Char} (h : ∀ rest, Text.trim cs ≠ '?' :: rest) (levels : Nat)
    (lists : ArgumentLists) :
    readSegment levels cs lists =
      readParams levels (stripMarks (Text.trim cs)).core lists >>= fun (params, lists') =>
        ((stripMarks (Text.trim cs)).named params).map (·, lists') := by
  rw [readSegment_eq, stripWildcards_plain h]
  rfl

namespace Piece

variable {pad : Nat → List Char}

theorem flat_of_isChar (pad : Nat → List Char) {ps : List Piece} (h : ∀ p ∈ ps, p.isChar = true) (n : Nat) :
    flat pad n ps = texts ps := by
  induction ps with
  | nil => rw [flat, texts]
  | cons p ps ih =>
      cases p with
      | char c => rw [flat, texts, ih fun p hp => h p (by simp [hp])]
      | list inner => exact absurd (h (.list inner) (by simp)) Bool.false_ne_true

theorem texts_eq_nil {ps : List Piece} : texts ps = [] ↔ ps = [] := by
  cases ps with
  | nil => simp [texts]
  | cons p ps => cases p <;> simp [texts]

theorem flat_eq_nil {n : Nat} {ps : List Piece} : flat pad n ps = [] ↔ ps = [] := by
  cases ps with
  | nil => simp [flat]
  | cons p ps => cases p <;> simp [flat, marker]

theorem boundText?_flat (n : Nat) (ps : List Piece) :
    boundText? (flat pad n ps) = (bound? ps).map (Prod.map id (flat pad n)) := by
  rw [boundText?, bound?, boundTarget?_flat (by decide), boundTarget?_flat (by decide)]
  cases target? "extends" ps with
  | some target => rfl
  | none => cases target? "super" ps <;> rfl

variable (hpad : ∀ k, ∀ c ∈ pad k, c.isDigit = true)

include hpad

theorem readSegment_flat_wildcard {ps rest : List Piece} (h : trim ps = .char '?' :: rest)
    (levels n : Nat) (lists : ArgumentLists) :
    readSegment levels (flat pad n ps) lists =
      if (trimStart rest).isEmpty then .ok (simple anyWildcard, lists)
      else match bound? (trimStart rest) with
        | some (name, target) =>
          (readSegment levels (flat pad n target) lists).map (Prod.map (bounded name) id)
        | none => .error .missingName := by
  have htrim : Text.trim (flat pad n ps) = '?' :: flat pad n rest := by
    rw [trim_flat hpad, h, flat]
  have hempty : (flat pad n (trimStart rest)).isEmpty = (trimStart rest).isEmpty := by
    rw [Bool.eq_iff_iff, List.isEmpty_iff, List.isEmpty_iff, flat_eq_nil]
  rw [readSegment_wildcard htrim, trimStart_flat, hempty, boundText?_flat]
  cases bound? (trimStart rest) <;> rfl

/-- The name of a flat segment is that of its pieces. -/
theorem named_flat {ps : List Piece} (hmark : '#' ∉ chars ps) (n : Nat) (params : List TypeRef) :
    (stripMarks (flat pad n ps)).named params = named (takeMarks ps) params := by
  have hcore : '#' ∉ chars (takeMarks ps).core :=
    fun h => hmark (mem_chars_of_isInfix (isCore_takeMarks ps).isInfix h)
  have hchars : ∀ p ∈ (takeMarks ps).core.takeWhile isChar, p.isChar = true :=
    fun p hp => List.mem_takeWhile_imp hp
  have hname : Text.trimEnd (texts ((takeMarks ps).core.takeWhile isChar)) =
      texts (trimEnd ((takeMarks ps).core.takeWhile isChar)) := by
    rw [← flat_of_isChar pad hchars 0, trimEnd_flat hpad, flat_of_isChar]
    exact fun p hp => hchars p ((isCore_trimEnd _).isInfix.mem hp)
  rw [stripMarks_flat hpad, Segment.named, named]
  simp only [takeWhile_flat hcore, hname, List.isEmpty_iff, texts_eq_nil]

theorem readSegment_flat_plain {ps : List Piece} (h : ∀ rest, trim ps ≠ .char '?' :: rest)
    (hmark : '#' ∉ chars ps) (levels n : Nat) (lists : ArgumentLists) :
    readSegment levels (flat pad n ps) lists =
      readParams levels (flat pad n (takeMarks (trim ps)).core) lists >>= fun (params, lists') =>
        (named (takeMarks (trim ps)) params).map (·, lists') := by
  have hplain : ∀ rest, Text.trim (flat pad n ps) ≠ '?' :: rest := by
    rw [trim_flat hpad]
    intro rest heq
    cases hps : trim ps with
    | nil => simp [hps, flat] at heq
    | cons p qs =>
        cases p with
        | char c =>
            rw [hps, flat, List.cons.injEq] at heq
            exact h qs (by rw [hps, heq.1])
        | list inner => simp [hps, flat, marker, markerStart] at heq
  have hmark' : '#' ∉ chars (trim ps) :=
    fun h => hmark (mem_chars_of_isInfix (isCore_trim ps).isInfix h)
  rw [readSegment_plain hplain, trim_flat hpad]
  simp only [named_flat hpad hmark']
  rw [stripMarks_flat hpad]

/-! ## Numbers of lists -/

omit hpad

/-- The digits behind the marker of each list bring that list back. -/
def Numbered (pad : Nat → List Char) (n : Nat) (ps : List Piece) : Prop :=
  ∀ k, n ≤ k → k < n + count ps → number? (Nat.toDigits 10 k ++ pad k) = some k

theorem Numbered.mono {n m : Nat} {ps qs : List Piece} (h : Numbered pad n ps) (hn : n ≤ m)
    (hcount : m + count qs ≤ n + count ps) : Numbered pad m qs :=
  fun k hk hlt => h k (by omega) (by omega)

end Piece

/-- No digit stands directly behind a closing angle bracket. -/
def Undigited (cs : List Char) : Prop := cs.IsChain fun a b => a = '>' → b.isDigit = false

theorem Undigited.inside {cs ds : List Char} (h : Undigited cs) (hds : ds <:+: cs) :
    Undigited ds := List.IsChain.infix h hds

theorem number?_append_other {c : Char} (hc : c.isDigit = false) (ds cs : List Char) :
    number? (ds ++ c :: cs) = none := by
  rw [number?, if_pos]
  simp [hc]

namespace Piece

theorem undigited_of_isInfix {ps qs : List Piece} (h : Undigited (texts qs)) (hps : ps <:+: qs) :
    Undigited (texts ps) := Undigited.inside h (texts_isInfix hps)

/-- A list has no digit directly behind it. -/
theorem head_flat_of_undigited (pad : Nat → List Char) {inner after : List Piece}
    (h : Undigited (texts (.list inner :: after))) (n : Nat) (hne : after ≠ []) :
    ∃ c cs, flat pad n after = c :: cs ∧ c.isDigit = false := by
  obtain ⟨p, after, rfl⟩ := List.exists_cons_of_ne_nil hne
  cases p with
  | char c =>
      refine ⟨c, flat pad n after, by rw [flat], ?_⟩
      have h : Undigited ('>' :: c :: texts after) :=
        Undigited.inside h ⟨'<' :: texts inner, [], by simp [texts]⟩
      exact (List.isChain_cons_cons.1 h).1 rfl
  | list inner => exact ⟨_, _, by rw [flat, marker, List.cons_append], by decide⟩

theorem texts_inner_isInfix {core inner after : List Piece}
    (hcore : core.dropWhile isChar = .list inner :: after) : texts inner <:+: texts core := by
  have h : texts inner <:+: texts (.list inner :: after) := ⟨['<'], '>' :: texts after, by
    simp [texts]⟩
  exact h.trans (texts_isInfix (hcore ▸ (List.dropWhile_suffix isChar).isInfix))

theorem mem_chars_inner {core inner after : List Piece}
    (hcore : core.dropWhile isChar = .list inner :: after) {c : Char} (hc : c ∈ chars inner) :
    c ∈ chars core := by
  have h : c ∈ chars (.list inner :: after) := by simp [chars, hc]
  exact mem_chars_of_isInfix (hcore ▸ (List.dropWhile_suffix isChar).isInfix) h

theorem isCore_dropWhile (core : List Piece) : IsCore (core.dropWhile isChar) core := by
  have hfront : ∀ p ∈ core.takeWhile isChar, p.isChar = true :=
    fun p hp => List.mem_takeWhile_imp hp
  have h := IsCore.front hfront (core.dropWhile isChar)
  rwa [List.takeWhile_append_dropWhile] at h

/-- A core is a name, and if there is more, a list with what follows it. -/
theorem core_cases (core : List Piece) :
    core.dropWhile isChar = [] ∨ ∃ inner follow, core.dropWhile isChar = .list inner :: follow := by
  cases hcore : core.dropWhile isChar with
  | nil => exact .inl rfl
  | cons p follow =>
      have hp := List.head_dropWhile_not isChar (l := core) (by simp [hcore])
      simp only [hcore, List.head_cons] at hp
      cases p with
      | char c => exact absurd hp (by simp [isChar])
      | list inner => exact .inr ⟨inner, follow, rfl⟩

theorem count_core {core inner follow : List Piece}
    (h : core.dropWhile isChar = .list inner :: follow) :
    count core = count inner + 1 + count follow := by
  rw [← (isCore_dropWhile core).count_eq, h, count]

theorem readParams_flat_nil {core : List Piece} (hmark : '#' ∉ chars core)
    (hcore : core.dropWhile isChar = []) (levels n : Nat) (lists : ArgumentLists) :
    readParams levels (flat pad n core) lists = .ok ([], lists) := by
  unfold readParams
  rw [dropWhile_flat hmark, hcore, flat]
  cases levels <;> rfl

theorem readParams_flat_list {core inner after : List Piece} (hmark : '#' ∉ chars core)
    (hcore : core.dropWhile isChar = .list inner :: after) (levels n : Nat)
    (lists : ArgumentLists) :
    readParams (levels + 1) (flat pad n core) lists =
      takeList (Nat.toDigits 10 (n + count inner) ++
        (pad (n + count inner) ++ flat pad (n + count inner + 1) after)) lists >>= fun taken =>
          (Text.pieces ',' taken.1).mapM (readSegment levels) taken.2 := by
  unfold readParams
  rw [dropWhile_flat hmark, hcore, flat]
  rfl

theorem takeList_ok {digits : List Char} (list : List Char) {lists : ArgumentLists} {k : Nat}
    (hk : number? digits = some k) (hlist : lists[k]? = some (some list)) :
    takeList digits lists = .ok (list, lists.set k none) := by
  rw [takeList, hk]
  simp [hlist]

theorem takeList_append_other {c : Char} (hc : c.isDigit = false) (ds cs : List Char)
    (lists : ArgumentLists) : takeList (ds ++ c :: cs) lists = .error .invalidMarker := by
  rw [takeList, number?_append_other hc]
  rfl

theorem takeList_own {before after : ArgumentLists} {n : Nat} {inner : List Piece}
    {digits : List Char} (hbefore : before.length = n)
    (hnumber : number? digits = some (n + count inner)) :
    takeList digits (before ++ ((recorded pad n inner ++ [flat pad n inner]).map some ++ after)) =
      .ok (flat pad n inner, before ++ ((recorded pad n inner).map some ++ none :: after)) := by
  have hlength : (before ++ (recorded pad n inner).map some).length = n + count inner := by
    simp [hbefore, length_recorded]
  have hlists : before ++ ((recorded pad n inner ++ [flat pad n inner]).map some ++ after) =
      (before ++ (recorded pad n inner).map some) ++ some (flat pad n inner) :: after := by simp
  rw [hlists, takeList_ok (flat pad n inner) hnumber (by rw [← hlength]; simp),
    ← hlength,
    List.set_append_right _ _ le_rfl]
  simp

/-! ## Reading what is numbered rightly -/

/-- A run of pieces is read as its tree, which uses its lists up. -/
def Reads (pad : Nat → List Char) (levels n : Nat) (ps : List Piece) : Prop :=
  ∀ before after : ArgumentLists, before.length = n →
    readSegment levels (flat pad n ps) (before ++ ((recorded pad n ps).map some ++ after)) =
      (readTree ps).map (·, before ++ (List.replicate (count ps) none ++ after))

theorem mapM_readSegment {levels n : Nat} {qs : List (List Piece)}
    (h : ∀ q ∈ qs, ∀ m, n ≤ m → m + count q ≤ n + count qs.flatten → Reads pad levels m q)
    (before after : ArgumentLists) (hbefore : before.length = n) :
    (flats pad n qs).mapM (readSegment levels)
        (before ++ ((recorded pad n qs.flatten).map some ++ after)) =
      (qs.mapM readTree).map
        (·, before ++ (List.replicate (count qs.flatten) none ++ after)) := by
  induction qs generalizing n before with
  | nil =>
      rw [flats, List.mapM_nil, List.mapM_nil, pure_apply]
      simp [recorded, count, pure, Except.pure, Except.map]
  | cons q qs ih =>
      have hq := h q (by simp) n le_rfl (by rw [List.flatten_cons, count_append]; omega)
        before ((recorded pad (n + count q) qs.flatten).map some ++ after) hbefore
      have hqs := ih (n := n + count q)
        (fun q' hq' m hm hcount => h q' (by simp [hq']) m (by omega)
          (by rw [List.flatten_cons, count_append]; omega))
        (before ++ List.replicate (count q) none) (by simp [hbefore])
      rw [flats, List.flatten_cons, recorded_append, count_append, List.map_append,
        List.append_assoc, List.mapM_cons, List.mapM_cons]
      simp only [bind, StateT.bind, Except.bind, hq]
      cases readTree q with
      | error e => rfl
      | ok t =>
          simp only [List.append_assoc] at hqs
          simp only [Except.map, hqs]
          cases qs.mapM readTree with
          | error e => rfl
          | ok ts =>
              simp only [pure_apply]
              simp [pure, Except.pure, ← List.replicate_append_replicate]

/-- A wildcard is read as its tree if its bound is. -/
theorem reads_wildcard (hpad : ∀ k, ∀ c ∈ pad k, c.isDigit = true) {ps rest : List Piece}
    {levels n : Nat} (hrest : trim ps = .char '?' :: rest)
    (htarget : ∀ name target, bound? (trimStart rest) = some (name, target) →
      Reads pad levels n target) : Reads pad levels n ps := by
  intro before after hbefore
  have hcore : IsCore (trimStart rest) ps :=
    ((isCore_trimStart rest).trans (IsCore.tail rfl rest)).trans (hrest ▸ isCore_trim ps)
  rw [readSegment_flat_wildcard hpad hrest, readTree_wildcard hrest]
  split
  · rename_i hempty
    rw [List.isEmpty_iff.1 hempty] at hcore
    rw [← hcore.count_eq, ← hcore.recorded_eq n]
    simp [count, recorded, Except.map]
  · cases hbound : bound? (trimStart rest) with
    | none => rfl
    | some found =>
        obtain ⟨name, target⟩ := found
        have hread := htarget name target hbound before after hbefore
        have htarget : IsCore target ps := (isCore_bound? hbound).trans hcore
        rw [htarget.recorded_eq, htarget.count_eq] at hread
        dsimp only
        rw [hread]
        cases readTree target <;> rfl

/-- The list of a core is read as its segments if each of them is. -/
theorem readParams_flat (hpad : ∀ k, ∀ c ∈ pad k, c.isDigit = true) {core : List Piece}
    {levels n : Nat} (hmark : '#' ∉ chars core) (hdigits : Undigited (texts core))
    (hnumbered : Numbered pad n core) (hlevels : count core ≤ levels)
    (hsegments : ∀ inner, core.dropWhile isChar = [.list inner] → ∀ q ∈ segments inner,
      ∀ m, n ≤ m → m + count q ≤ n + count inner → Reads pad (levels - 1) m q)
    (before after : ArgumentLists) (hbefore : before.length = n) :
    readParams levels (flat pad n core) (before ++ ((recorded pad n core).map some ++ after)) =
      (arguments core >>= List.mapM readTree).map
        (·, before ++ (List.replicate (count core) none ++ after)) := by
  rw [← (isCore_dropWhile core).recorded_eq]
  rcases core_cases core with hnil | ⟨inner, follow, hlist⟩
  · have hcount : count core = 0 := by rw [← (isCore_dropWhile core).count_eq, hnil, count]
    rw [readParams_flat_nil hmark hnil, arguments, hnil, hcount, recorded]
    rfl
  have hcount := count_core hlist
  obtain ⟨levels, rfl⟩ : ∃ l, levels = l + 1 := ⟨levels - 1, by omega⟩
  rw [readParams_flat_list hmark hlist]
  by_cases hfollow : follow = []
  · subst hfollow
    rw [count, Nat.add_zero] at hcount
    have harguments : arguments core = .ok (segments inner) := by rw [arguments, hlist]
    have hnumber := hnumbered (n + count inner) (by omega) (by omega)
    have hreads : ∀ q ∈ segments inner, ∀ m, n ≤ m →
        m + count q ≤ n + count (segments inner).flatten → Reads pad levels m q :=
      fun q hq m hm hmcount => hsegments inner hlist q hq m hm
        (by rwa [count_flatten_segments] at hmcount)
    have hread := mapM_readSegment hreads before (none :: after) hbefore
    rw [recorded_flatten_segments, count_flatten_segments] at hread
    rw [flat, List.append_nil, hlist, recorded, recorded, takeList_own hbefore hnumber, harguments]
    simp only [bind, Except.bind, pieces_flat hpad, hread, hcount]
    cases (segments inner).mapM readTree with
    | error e => rfl
    | ok params => simp [Except.map, ← List.replicate_append_replicate]
  · obtain ⟨c, cs, hflat, hc⟩ := head_flat_of_undigited pad
      (undigited_of_isInfix hdigits (hlist ▸ (List.dropWhile_suffix isChar).isInfix))
      (n + count inner + 1) hfollow
    have harguments : arguments core = .error .invalidMarker := by
      obtain ⟨p, follow, rfl⟩ := List.exists_cons_of_ne_nil hfollow
      rw [arguments, hlist]
    rw [hflat, ← List.append_assoc, takeList_append_other hc, harguments]
    rfl

/-- A segment whose lists are numbered rightly is read as its tree. -/
theorem reads_of_numbered (hpad : ∀ k, ∀ c ∈ pad k, c.isDigit = true) {ps : List Piece}
    {levels n : Nat} (hmark : '#' ∉ chars ps) (hdigits : Undigited (texts ps))
    (hnumbered : Numbered pad n ps) (hlevels : count ps ≤ levels) : Reads pad levels n ps := by
  induction hlen : (texts ps).length using Nat.strong_induction_on generalizing ps levels n with
  | _ len ih =>
  subst hlen
  by_cases hwild : ∃ rest, trim ps = .char '?' :: rest
  · obtain ⟨rest, hrest⟩ := hwild
    refine reads_wildcard hpad hrest fun name target hbound => ?_
    have htarget : IsCore target ps := (isCore_bound? hbound).trans
      (((isCore_trimStart rest).trans (IsCore.tail rfl rest)).trans (hrest ▸ isCore_trim ps))
    refine ih _ (length_bound_lt hrest hbound)
      (fun h => hmark (mem_chars_of_isInfix htarget.isInfix h))
      (undigited_of_isInfix hdigits htarget.isInfix) (hnumbered.mono le_rfl ?_) ?_ rfl
    · rw [htarget.count_eq]
    · rwa [htarget.count_eq]
  · intro before after hbefore
    have hplain : ∀ rest, trim ps ≠ .char '?' :: rest := fun rest h => hwild ⟨rest, h⟩
    have hcore : IsCore (takeMarks (trim ps)).core ps := (isCore_takeMarks _).trans (isCore_trim ps)
    rw [readSegment_flat_plain hpad hplain hmark, readTree_plain hplain, ← hcore.count_eq,
      ← hcore.recorded_eq]
    generalize takeMarks (trim ps) = marks at hcore ⊢
    have hmark' : '#' ∉ chars marks.core := fun h => hmark (mem_chars_of_isInfix hcore.isInfix h)
    have hlevels' : count marks.core ≤ levels := by rwa [hcore.count_eq]
    have hnumbered' : Numbered pad n marks.core := hnumbered.mono le_rfl (by rw [hcore.count_eq])
    have hdigits' : Undigited (texts marks.core) := undigited_of_isInfix hdigits hcore.isInfix
    rw [readParams_flat hpad hmark' hdigits' hnumbered' hlevels' ?_ before after hbefore]
    · cases arguments marks.core >>= List.mapM readTree <;> rfl
    · intro inner hlist q hq m hm hmcount
      have hcount := count_core hlist
      have harguments : arguments marks.core = .ok (segments inner) := by rw [arguments, hlist]
      have hinside : texts q <:+: texts marks.core :=
        (texts_isInfix (infix_of_mem_segments hq)).trans (texts_inner_isInfix hlist)
      refine ih _ (lt_of_lt_of_le (length_lt_of_arguments harguments hq) hcore.length_le)
        (fun h => hmark' (mem_chars_inner hlist (mem_chars_of_isInfix (infix_of_mem_segments hq) h)))
        (Undigited.inside hdigits' hinside) (hnumbered'.mono hm (by omega)) (by omega) rfl

/-! ## Reading a text -/

theorem trimStart_texts (ps : List Piece) : Text.trimStart (texts ps) = texts (trimStart ps) := by
  induction ps with
  | nil => simp [trimStart, texts, Text.trimStart]
  | cons p ps ih =>
      cases p with
      | char c =>
          rw [texts, Text.trimStart, List.dropWhile_cons, trimStart, List.dropWhile_cons, isBlank]
          split
          · exact ih
          · rw [texts]
      | list inner =>
          have hopen : Text.isWhiteSpace '<' = false := by decide
          simp [trimStart, isBlank, texts, Text.trimStart, hopen]

theorem trimEnd_texts (ps : List Piece) : Text.trimEnd (texts ps) = texts (trimEnd ps) := by
  induction ps using List.reverseRecOn with
  | nil => simp [trimEnd, texts, Text.trimEnd]
  | append_singleton ps p ih =>
      rw [trimEnd, List.rdropWhile_concat]
      cases p with
      | char c =>
          have hconcat : texts (ps ++ [.char c]) = texts ps ++ [c] := by
            rw [texts_append, texts, texts]
          rw [hconcat, trimEnd_concat, isBlank]
          split
          · exact ih
          · rw [hconcat]
      | list inner =>
          have hconcat : texts (ps ++ [.list inner]) =
              (texts ps ++ '<' :: texts inner) ++ ['>'] := by simp [texts_append, texts]
          have hclose : Text.isWhiteSpace '>' = false := by decide
          rw [if_neg (by simp [isBlank]), hconcat, trimEnd_concat, hclose]
          rfl

theorem trim_texts (ps : List Piece) : Text.trim (texts ps) = texts (trim ps) := by
  rw [Text.trim, trimStart_texts, trimEnd_texts, trim]

theorem mem_padded {n : Nat} {ps : List Piece} (hpad : ∀ k, ∀ c ∈ pad k, c.isDigit = true)
    {c : Char} (hc : c ∈ padded pad n ps) :
    c ∈ chars ps ∨ c = '<' ∨ c = '>' ∨ c.isDigit = true := by
  induction ps using texts.induct generalizing n with
  | case1 => simp [padded] at hc
  | case2 d ps ih =>
      rw [padded, List.mem_cons] at hc
      rw [chars, List.mem_cons]
      rcases hc with hc | hc
      · exact .inl (.inl hc)
      · exact (ih hc).imp_left .inr
  | case3 inner ps ihinner ih =>
      rw [padded] at hc
      simp only [List.mem_cons, List.mem_append] at hc
      rw [chars, List.mem_append]
      rcases hc with hc | hc | hc | hc | hc
      · exact .inr (.inl hc)
      · exact (ihinner hc).imp_left .inl
      · exact .inr (.inr (.inl hc))
      · exact .inr (.inr (.inr (hpad _ c hc)))
      · exact (ih hc).imp_left .inr

theorem parseChars_padded (hpad : ∀ k, ∀ c ∈ pad k, c.isDigit = true) {ps : List Piece}
    (hproper : Proper ps) (hmark : '#' ∉ chars ps) :
    parseChars (padded pad 0 ps) =
      (readSegment (count ps) (flat pad 0 ps) ((recorded pad 0 ps).map some)).map Prod.fst := by
  have hmarker : (padded pad 0 ps).contains markerStart = false := by
    rw [← Bool.not_eq_true, List.contains_iff_mem]
    intro h
    rcases mem_padded hpad h with h | h | h | h
    · exact hmark h
    all_goals exact absurd h (by decide)
  have hdigit : ∀ k, ∀ c ∈ pad k, c ≠ '<' ∧ c ≠ '>' := by
    intro k c hc
    constructor <;> rintro rfl <;> exact absurd (hpad k _ hc) (by decide)
  have hcut := cutLists_padded hdigit hproper [] [] [] [] (n := 0) rfl
  simp only [List.append_nil] at hcut
  rw [parseChars, if_neg (by rw [hmarker]; decide), hcut, cutLists]
  simp only [List.isEmpty_nil, if_true, List.reverse_reverse, bind, Except.bind, length_recorded,
    StateT.run]
  cases readSegment (count ps) (flat pad 0 ps) ((recorded pad 0 ps).map some) <;> rfl

/-- A text whose lists are numbered rightly is read as its tree. -/
theorem parseChars_of_numbered (hpad : ∀ k, ∀ c ∈ pad k, c.isDigit = true) {ps : List Piece}
    (hproper : Proper ps) (hmark : '#' ∉ chars ps) (hdigits : Undigited (texts ps))
    (hnumbered : Numbered pad 0 ps) : parseChars (padded pad 0 ps) = readTree ps := by
  have hread := reads_of_numbered hpad hmark hdigits hnumbered le_rfl [] [] rfl
  simp only [List.nil_append, List.append_nil] at hread
  rw [parseChars_padded hpad hproper hmark, hread]
  cases readTree ps <;> rfl

theorem padded_nil (n : Nat) (ps : List Piece) : padded (fun _ => []) n ps = texts ps := by
  induction ps using texts.induct generalizing n with
  | case1 => rw [padded, texts]
  | case2 c ps ih => rw [padded, texts, ih]
  | case3 inner ps ihinner ih => rw [padded, texts, ihinner, ih, List.nil_append]

theorem number?_toDigits (k : Nat) : number? (Nat.toDigits 10 k) = some k := by
  have hdigit : (Nat.toDigits 10 k).all Char.isDigit = true :=
    List.all_eq_true.2 fun c hc => Nat.isDigit_of_mem_toDigits (by decide) (by decide) hc
  rw [number?, if_neg (by simp [hdigit])]
  exact congrArg some (Nat.ofDigitChars_toDigits (by decide) (by decide))

/-- Where no digit stands directly behind a closing bracket, a text is read as its tree. -/
theorem parseChars_texts {ps : List Piece} (hproper : Proper ps) (hmark : '#' ∉ chars ps)
    (hdigits : Undigited (texts ps)) : parseChars (texts ps) = readTree ps := by
  rw [← padded_nil 0]
  exact parseChars_of_numbered (by simp) hproper hmark hdigits
    fun k _ _ => by rw [List.append_nil, number?_toDigits]

end Piece

end Outline.TypeRef
