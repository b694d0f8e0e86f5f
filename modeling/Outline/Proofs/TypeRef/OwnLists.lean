import Outline.Proofs.TypeRef.Reading

/-!
# Every list under its own number

The digits directly behind a closing bracket become part of the number of its list, so that a
marker may name another list.  A text is read in spite of this only if each list is brought back
by its own marker: a list that is taken by a wrong marker is missing at its own place, and the
first marker that names none of its own lists names one that closes behind its segment, hence in
the end one that does not exist.

* `number?_toDigits_append` — which digits leave a number as it is.
* `Piece.Settled` — what follows for the lists of a segment if it is read.
* `Piece.numbered_of_parseChars` — a text that is read has its lists under their own numbers.
-/

namespace Outline.TypeRef

/-! ## Numbers with more digits behind them -/

theorem number?_eq_some {cs : List Char} {m : Nat} (h : number? cs = some m) :
    m = Nat.ofDigitChars 10 cs 0 := by
  unfold number? at h
  split at h
  · cases h
  · exact (Option.some.inj h).symm

theorem ofDigitChars_toDigits_append (k : Nat) (ds : List Char) :
    Nat.ofDigitChars 10 (Nat.toDigits 10 k ++ ds) 0 = Nat.ofDigitChars 10 ds k := by
  rw [Nat.ofDigitChars_append, Nat.ofDigitChars_ten_toDigits]

theorem le_ofDigitChars (k : Nat) (ds : List Char) : k ≤ Nat.ofDigitChars 10 ds k := by
  rw [Nat.ofDigitChars_eq_ofDigitChars_zero]
  exact (Nat.le_mul_of_pos_left k (by simp)).trans (Nat.le_add_right _ _)

/-- More digits behind a number make no smaller number. -/
theorem le_of_number? {k m : Nat} {ds : List Char}
    (h : number? (Nat.toDigits 10 k ++ ds) = some m) : k ≤ m := by
  rw [number?_eq_some h, ofDigitChars_toDigits_append]
  exact le_ofDigitChars k ds

theorem eq_zero_of_ofDigitChars {k : Nat} {ds : List Char} (hds : ∀ c ∈ ds, c.isDigit = true)
    (h : Nat.ofDigitChars 10 ds k = k) : ∀ c ∈ ds, k = 0 ∧ c = '0' := by
  induction ds generalizing k with
  | nil => simp
  | cons d ds ih =>
      rw [Nat.ofDigitChars_cons] at h
      have hle := le_ofDigitChars (10 * k + (d.toNat - '0'.toNat)) ds
      have hk : k = 0 := by omega
      have hd : d.toNat - '0'.toNat = 0 := by omega
      have hzero : d = '0' := by
        have hlow := (Char.isDigit_iff_toNat.1 (hds d (by simp))).1
        have h48 : '0'.toNat = 48 := rfl
        exact Char.toNat_inj.1 (by omega)
      rw [hk, hd] at h
      intro c hc
      rcases List.mem_cons.1 hc with rfl | hc
      · exact ⟨hk, hzero⟩
      · exact ⟨hk, (ih (fun c hc => hds c (by simp [hc])) h c hc).2⟩

/-- Only zeros behind a zero leave a number as it is. -/
theorem number?_toDigits_append {k : Nat} {ds : List Char} (hds : ∀ c ∈ ds, c.isDigit = true) :
    number? (Nat.toDigits 10 k ++ ds) = some k ↔ ∀ c ∈ ds, k = 0 ∧ c = '0' := by
  constructor
  · intro h
    have heq := number?_eq_some h
    rw [ofDigitChars_toDigits_append] at heq
    exact eq_zero_of_ofDigitChars hds heq.symm
  · intro h
    have hdigit : (Nat.toDigits 10 k ++ ds).all Char.isDigit = true := by
      rw [List.all_eq_true]
      intro c hc
      rcases List.mem_append.1 hc with hc | hc
      · exact Nat.isDigit_of_mem_toDigits (by decide) (by decide) hc
      · exact hds c hc
    have hvalue : Nat.ofDigitChars 10 ds k = k := by
      cases ds with
      | nil => rfl
      | cons d ds =>
          rw [(h d (by simp)).1, List.eq_replicate_iff.2 ⟨rfl, fun c hc => (h c hc).2⟩,
            Nat.ofDigitChars_replicate_zero, Nat.mul_zero]
    rw [number?, if_neg (by simp [hdigit])]
    exact congrArg some ((ofDigitChars_toDigits_append k ds).trans hvalue)

/-! ## Lists that are brought back -/

/-- The list with the number `k`, as long as it has not been brought back. -/
def held (lists : ArgumentLists) (k : Nat) : Option (List Char) := lists[k]?.join

/-- All lists that `after` holds are also held by `before`. -/
def Fewer (after before : ArgumentLists) : Prop :=
  ∀ k list, held after k = some list → held before k = some list

theorem Fewer.trans {a b c : ArgumentLists} (h : Fewer a b) (h' : Fewer b c) : Fewer a c :=
  fun k list hk => h' k list (h k list hk)

theorem Fewer.eq_none {after before : ArgumentLists} (h : Fewer after before) {k : Nat}
    (hk : held before k = none) : held after k = none := by
  cases hafter : held after k with
  | none => rfl
  | some list => rw [h k list hafter] at hk; cases hk

theorem held_set (lists : ArgumentLists) (m k : Nat) :
    held (lists.set m none) k = if m = k then none else held lists k := by
  unfold held
  rw [List.getElem?_set]
  split
  · split <;> simp
  · rfl

/-- A list that is brought back was held under its number and is not held any more. -/
theorem takeList_eq_ok {digits list : List Char} {before after : ArgumentLists}
    (h : takeList digits before = .ok (list, after)) :
    ∃ m, number? digits = some m ∧ held before m = some list ∧ after = before.set m none := by
  unfold takeList at h
  split at h
  · rename_i m found hfound
    cases h
    obtain ⟨m', hm', hlist⟩ := Option.bind_eq_some_iff.1 hfound
    obtain ⟨list', hlist', heq⟩ := Option.map_eq_some_iff.1 hlist
    cases heq
    exact ⟨m, hm', hlist', rfl⟩
  · cases h

theorem Fewer.set (lists : ArgumentLists) (m : Nat) : Fewer (lists.set m none) lists := by
  intro k list h
  rw [held_set] at h
  split at h
  · cases h
  · exact h

theorem mapM_cons_eq_ok {α β σ ε : Type} {read : α → StateT σ (Except ε) β} {a : α} {as : List α}
    {s s' : σ} {bs : List β} (h : (a :: as).mapM read s = .ok (bs, s')) :
    ∃ b mid bs', read a s = .ok (b, mid) ∧ as.mapM read mid = .ok (bs', s') := by
  rw [List.mapM_cons] at h
  simp only [bind, StateT.bind, Except.bind] at h
  split at h
  · cases h
  · rename_i found hfound
    split at h
    · cases h
    · rename_i rest hrest
      cases h
      exact ⟨found.1, found.2, rest.1, hfound, hrest⟩

theorem exists_of_map_eq_ok {ε α β : Type} {f : α → β} {x : Except ε α} {b : β}
    (h : x.map f = .ok b) : ∃ a, x = .ok a ∧ f a = b := by
  cases x with
  | error e => cases h
  | ok a => exact ⟨a, rfl, Except.ok.inj h⟩

theorem exists_of_bind_eq_ok {ε α β : Type} {f : α → Except ε β} {x : Except ε α} {b : β}
    (h : x >>= f = .ok b) : ∃ a, x = .ok a ∧ f a = .ok b := by
  cases x with
  | error e => cases h
  | ok a => exact ⟨a, rfl, h⟩

/-- A segment has no marker, or the marker is one of a list. -/
theorem readParams_eq_ok {levels : Nat} {core : List Char} {before after : ArgumentLists}
    {params : List TypeRef} (h : readParams levels core before = .ok (params, after)) :
    core.dropWhile (· != markerStart) = [] ∧ after = before ∨
      ∃ l list mid, levels = l + 1 ∧
        takeList (core.dropWhile (· != markerStart)).tail before = .ok (list, mid) ∧
        (Text.pieces ',' list).mapM (readSegment l) mid = .ok (params, after) := by
  unfold readParams at h
  cases hmarked : core.dropWhile (· != markerStart) with
  | nil =>
      rw [hmarked] at h
      cases levels <;> cases h <;> exact .inl ⟨rfl, rfl⟩
  | cons c digits =>
      rw [hmarked] at h
      cases levels with
      | zero => cases h
      | succ l =>
          obtain ⟨⟨list, mid⟩, htaken, hread⟩ := exists_of_bind_eq_ok h
          exact .inr ⟨l, list, mid, rfl, htaken, hread⟩

theorem Fewer.mapM {read : List Char → StateT ArgumentLists (Except TypeErrorCause) TypeRef}
    (hread : ∀ {cs before t after}, read cs before = .ok (t, after) → Fewer after before)
    {css : List (List Char)} {before after : ArgumentLists} {ts : List TypeRef}
    (h : css.mapM read before = .ok (ts, after)) : Fewer after before := by
  induction css generalizing before ts with
  | nil =>
      cases h
      exact fun _ _ hk => hk
  | cons cs css ih =>
      obtain ⟨t, mid, ts', hcs, hcss⟩ := mapM_cons_eq_ok h
      exact (ih hcss).trans (hread hcs)

/-- Reading brings lists back and holds no new ones. -/
theorem fewer_of_readSegment {levels : Nat} {cs : List Char} {before after : ArgumentLists}
    {t : TypeRef} (h : readSegment levels cs before = .ok (t, after)) : Fewer after before := by
  induction levels using Nat.strong_induction_on generalizing cs before t after with
  | _ levels ih =>
  rw [readSegment_eq] at h
  split at h
  · cases h
  · cases h
    exact fun _ _ hk => hk
  · obtain ⟨⟨params, after'⟩, hparams, hnamed⟩ := exists_of_bind_eq_ok h
    obtain ⟨t', -, heq⟩ := exists_of_map_eq_ok hnamed
    cases heq
    rcases readParams_eq_ok hparams with ⟨-, rfl⟩ | ⟨l, list, mid, rfl, htaken, hread⟩
    · exact fun _ _ hk => hk
    · obtain ⟨m, -, -, rfl⟩ := takeList_eq_ok htaken
      exact (Fewer.mapM (ih l (Nat.lt_succ_self l)) hread).trans (Fewer.set before m)

namespace Piece

variable {pad : Nat → List Char}

/-- What is held under the numbers of the lists of a run of pieces are these lists. -/
def Faithful (pad : Nat → List Char) (lists : ArgumentLists) (n : Nat) (ps : List Piece) : Prop :=
  ∀ i list, i < count ps → held lists (n + i) = some list → (recorded pad n ps)[i]? = some list

/-- What follows if a run of pieces is read at all: each of its lists is brought back by its own
marker, or a list that closes behind the run was brought back. -/
def Settled (pad : Nat → List Char) (n : Nat) (ps : List Piece) (before after : ArgumentLists) :
    Prop :=
  (Numbered pad n ps ∧ ∀ k, n ≤ k → k < n + count ps → held before k ≠ none) ∨
    ∃ k, n + count ps ≤ k ∧ held before k ≠ none ∧ held after k = none

theorem Faithful.fewer {before after : ArgumentLists} {n : Nat} {ps : List Piece}
    (h : Faithful pad before n ps) (hfewer : Fewer after before) : Faithful pad after n ps :=
  fun i list hi hlist => h i list hi (hfewer _ _ hlist)

theorem Faithful.left {lists : ArgumentLists} {n : Nat} {ps qs : List Piece}
    (h : Faithful pad lists n (ps ++ qs)) : Faithful pad lists n ps := by
  intro i list hi hlist
  have hfound := h i list (by rw [count_append]; omega) hlist
  rwa [recorded_append, List.getElem?_append_left (by rwa [length_recorded])] at hfound

theorem Faithful.right {lists : ArgumentLists} {n : Nat} {ps qs : List Piece}
    (h : Faithful pad lists n (ps ++ qs)) : Faithful pad lists (n + count ps) qs := by
  intro i list hi hlist
  have hfound := h (count ps + i) list (by rw [count_append]; omega) (by rwa [← Nat.add_assoc])
  rwa [recorded_append, List.getElem?_append_right (by rw [length_recorded]; omega),
    length_recorded, Nat.add_sub_cancel_left] at hfound

theorem Faithful.core {lists : ArgumentLists} {n : Nat} {core ps : List Piece}
    (h : Faithful pad lists n ps) (hcore : IsCore core ps) : Faithful pad lists n core := by
  unfold Faithful
  rw [hcore.count_eq, hcore.recorded_eq]
  exact h

theorem Settled.core {before after : ArgumentLists} {n : Nat} {core ps : List Piece}
    (h : Settled pad n core before after) (hcore : IsCore core ps) :
    Settled pad n ps before after := by
  unfold Settled Numbered at h ⊢
  rwa [hcore.count_eq] at h

theorem settled_of_count_eq_zero {n : Nat} {ps : List Piece} (h : count ps = 0)
    (before after : ArgumentLists) : Settled pad n ps before after :=
  .inl ⟨fun k hk hlt => by omega, fun k hk hlt => by omega⟩

/-- If the segments of a list are read one after the other, each list in them is brought back by
its own marker, or one that closes behind them was brought back. -/
theorem settled_mapM {levels : Nat}
    {qs : List (List Piece)}
    (hq : ∀ q ∈ qs, ∀ m before t after, Faithful pad before m q →
      readSegment levels (flat pad m q) before = .ok (t, after) → Settled pad m q before after)
    {n : Nat} {before after : ArgumentLists} {ts : List TypeRef}
    (hfaithful : Faithful pad before n qs.flatten)
    (h : (flats pad n qs).mapM (readSegment levels) before = .ok (ts, after)) :
    Settled pad n qs.flatten before after := by
  induction qs generalizing n before ts with
  | nil => exact settled_of_count_eq_zero (by rw [List.flatten_nil, count]) ..
  | cons q qs ih =>
      rw [flats] at h
      obtain ⟨t, mid, ts', hread, hrest⟩ := mapM_cons_eq_ok h
      rw [List.flatten_cons] at hfaithful
      have hmid : Fewer mid before := fewer_of_readSegment hread
      have hafter : Fewer after mid := Fewer.mapM fewer_of_readSegment hrest
      have hfirst := hq q (by simp) n before t mid hfaithful.left hread
      have hothers := ih (fun q' hq' => hq q' (by simp [hq'])) (hfaithful.right.fewer hmid) hrest
      unfold Settled Numbered at hfirst hothers ⊢
      rw [List.flatten_cons, count_append]
      rcases hothers with ⟨hnumbered, hheld⟩ | ⟨k, hk, hheld, hnone⟩
      · rcases hfirst with ⟨hnumbered', hheld'⟩ | ⟨k, hk, hheld', hnone⟩
        · refine .inl ⟨fun k hk hlt => ?_, fun k hk hlt => ?_⟩
          · by_cases hq : k < n + count q
            · exact hnumbered' k hk hq
            · exact hnumbered k (by omega) (by omega)
          · by_cases hq : k < n + count q
            · exact hheld' k hk hq
            · exact fun h => hheld k (by omega) (by omega) (hmid.eq_none h)
        · -- The first segment took a list from behind it, which the others have to leave alone.
          refine .inr ⟨k, ?_, hheld', hafter.eq_none hnone⟩
          by_contra hlt
          exact hheld k hk (by omega) hnone
      · exact .inr ⟨k, by omega, fun h => hheld (hmid.eq_none h), hnone⟩

theorem recorded_core {core inner : List Piece} (hlist : core.dropWhile isChar = [.list inner])
    (n : Nat) : recorded pad n core = recorded pad n inner ++ [flat pad n inner] := by
  rw [← (isCore_dropWhile core).recorded_eq, hlist, recorded, recorded]

/-- What is held under the number of the list of a core is this list. -/
theorem Faithful.eq_flat {lists : ArgumentLists} {n : Nat} {core inner : List Piece}
    (h : Faithful pad lists n core) (hlist : core.dropWhile isChar = [.list inner])
    {list : List Char} (hheld : held lists (n + count inner) = some list) :
    list = flat pad n inner := by
  have hcount : count core = count inner + 1 := by
    rw [count_core hlist, count, Nat.add_zero]
  have hfound := h (count inner) list (by omega) hheld
  rw [recorded_core hlist, List.getElem?_append_right (by rw [length_recorded]), length_recorded,
    Nat.sub_self] at hfound
  exact (Option.some.inj hfound).symm

/-- So it is for the lists in it. -/
theorem Faithful.inner {lists : ArgumentLists} {n : Nat} {core inner : List Piece}
    (h : Faithful pad lists n core) (hlist : core.dropWhile isChar = [.list inner]) :
    Faithful pad lists n (segments inner).flatten := by
  have hcount : count core = count inner + 1 := by
    rw [count_core hlist, count, Nat.add_zero]
  intro i list hi hheld
  rw [count_flatten_segments] at hi
  have hfound := h i list (by omega) hheld
  rw [recorded_core hlist, List.getElem?_append_left (by rwa [length_recorded])] at hfound
  rwa [recorded_flatten_segments]

/-- What follows for the lists in the list of a core follows for those of the core, if the list
itself has been brought back by its own marker. -/
theorem Settled.of_inner {before after : ArgumentLists} {n : Nat} {core inner : List Piece}
    (h : Settled pad n (segments inner).flatten (before.set (n + count inner) none) after)
    (hcount : count core = count inner + 1)
    (hnumber : number? (Nat.toDigits 10 (n + count inner) ++ pad (n + count inner)) =
      some (n + count inner))
    (hheld : held before (n + count inner) ≠ none) : Settled pad n core before after := by
  unfold Settled Numbered at h ⊢
  rw [count_flatten_segments] at h
  rw [hcount]
  rcases h with ⟨hnumbered, hheld'⟩ | ⟨k, hk, hheld', hnone⟩
  · refine .inl ⟨fun k hk hlt => ?_, fun k hk hlt => ?_⟩
    all_goals rcases Nat.lt_succ_iff_lt_or_eq.1 hlt with hlt | rfl
    · exact hnumbered k hk hlt
    · exact hnumber
    · exact fun h => hheld' k hk hlt ((Fewer.set before _).eq_none h)
    · exact hheld
  · have hne : n + count inner ≠ k := by
      rintro rfl
      exact hheld' (by rw [held_set, if_pos rfl])
    exact .inr ⟨k, by omega, fun h => hheld' ((Fewer.set before _).eq_none h), hnone⟩

/-- If the list of a core is read, each list in it is brought back by its own marker, or one that
closes behind it was brought back. -/
theorem settled_of_readParams (hpad : ∀ k, ∀ c ∈ pad k, c.isDigit = true) {core : List Piece}
    (hmark : '#' ∉ chars core) (hdigits : Undigited (texts core)) {levels n : Nat}
    (hsegments : ∀ inner, core.dropWhile isChar = [.list inner] → ∀ q ∈ segments inner,
      ∀ l m before t after, Faithful pad before m q →
        readSegment l (flat pad m q) before = .ok (t, after) → Settled pad m q before after)
    {before after : ArgumentLists} {params : List TypeRef} (hfaithful : Faithful pad before n core)
    (h : readParams levels (flat pad n core) before = .ok (params, after)) :
    Settled pad n core before after := by
  rcases core_cases core with hnil | ⟨inner, follow, hlist⟩
  · exact settled_of_count_eq_zero (by rw [← (isCore_dropWhile core).count_eq, hnil, count]) ..
  have hcount := count_core hlist
  rcases readParams_eq_ok h with ⟨hnil, -⟩ | ⟨l, list, mid, rfl, htaken, hread⟩
  · rw [dropWhile_flat hmark, hlist, flat, marker] at hnil
    cases hnil
  rw [dropWhile_flat hmark, hlist, flat, marker, List.cons_append, List.tail_cons] at htaken
  obtain ⟨m, hm, hheld, rfl⟩ := takeList_eq_ok htaken
  have hfollow : follow = [] := by
    by_contra hne
    obtain ⟨c, cs, hflat, hc⟩ := head_flat_of_undigited pad
      (undigited_of_isInfix hdigits (hlist ▸ (List.dropWhile_suffix isChar).isInfix))
      (n + count inner + 1) hne
    rw [hflat, ← List.append_assoc, number?_append_other hc] at hm
    cases hm
  subst hfollow
  rw [flat, List.append_nil] at hm
  rw [count, Nat.add_zero] at hcount
  have hafter : Fewer after (before.set m none) := Fewer.mapM fewer_of_readSegment hread
  rcases Nat.eq_or_lt_of_le (le_of_number? hm) with rfl | hlt
  · rw [hfaithful.eq_flat hlist hheld, pieces_flat hpad] at hread
    have hsettled := settled_mapM (fun q hq => hsegments inner hlist q hq l)
      ((hfaithful.inner hlist).fewer (Fewer.set before _)) hread
    exact hsettled.of_inner hcount hm (by simp [hheld])
  · -- The digits name a list that closes behind the segment.
    refine .inr ⟨m, by omega, by simp [hheld], hafter.eq_none ?_⟩
    rw [held_set, if_pos rfl]

/-- If a segment is read, each of its lists is brought back by its own marker, or one that closes
behind it was brought back. -/
theorem settled_of_readSegment (hpad : ∀ k, ∀ c ∈ pad k, c.isDigit = true) {ps : List Piece}
    (hmark : '#' ∉ chars ps) (hdigits : Undigited (texts ps)) {levels n : Nat}
    {before after : ArgumentLists} {t : TypeRef} (hfaithful : Faithful pad before n ps)
    (h : readSegment levels (flat pad n ps) before = .ok (t, after)) :
    Settled pad n ps before after := by
  induction hlen : (texts ps).length using Nat.strong_induction_on
    generalizing ps levels n before t after with
  | _ len ih =>
  subst hlen
  by_cases hwild : ∃ rest, trim ps = .char '?' :: rest
  · obtain ⟨rest, hrest⟩ := hwild
    have hcore : IsCore (trimStart rest) ps :=
      ((isCore_trimStart rest).trans (IsCore.tail rfl rest)).trans (hrest ▸ isCore_trim ps)
    rw [readSegment_flat_wildcard hpad hrest] at h
    split at h
    · rename_i hempty
      rw [List.isEmpty_iff.1 hempty] at hcore
      exact settled_of_count_eq_zero (by rw [← hcore.count_eq, count]) ..
    · split at h
      · rename_i name target hbound
        have htarget : IsCore target ps := (isCore_bound? hbound).trans hcore
        obtain ⟨⟨bound, after'⟩, hread, heq⟩ := exists_of_map_eq_ok h
        cases heq
        have hsettled := ih _ (length_bound_lt hrest hbound)
          (fun h => hmark (mem_chars_of_isInfix htarget.isInfix h))
          (undigited_of_isInfix hdigits htarget.isInfix) (hfaithful.core htarget) hread rfl
        exact hsettled.core htarget
      · cases h
  · have hplain : ∀ rest, trim ps ≠ .char '?' :: rest := fun rest h => hwild ⟨rest, h⟩
    have hcore : IsCore (takeMarks (trim ps)).core ps := (isCore_takeMarks _).trans (isCore_trim ps)
    rw [readSegment_flat_plain hpad hplain hmark] at h
    generalize takeMarks (trim ps) = marks at hcore h
    obtain ⟨⟨params, after'⟩, hparams, hnamed⟩ := exists_of_bind_eq_ok h
    obtain ⟨t', -, heq⟩ := exists_of_map_eq_ok hnamed
    cases heq
    have hmark' : '#' ∉ chars marks.core := fun h => hmark (mem_chars_of_isInfix hcore.isInfix h)
    have hdigits' : Undigited (texts marks.core) := undigited_of_isInfix hdigits hcore.isInfix
    refine (settled_of_readParams hpad hmark' hdigits' ?_ (hfaithful.core hcore) hparams).core hcore
    intro inner hlist q hq l m before t after hfaithful hread
    have harguments : arguments marks.core = .ok (segments inner) := by rw [arguments, hlist]
    have hinside : texts q <:+: texts marks.core :=
      (texts_isInfix (infix_of_mem_segments hq)).trans (texts_inner_isInfix hlist)
    exact ih _ (lt_of_lt_of_le (length_lt_of_arguments harguments hq) hcore.length_le)
      (fun h => hmark' (mem_chars_inner hlist (mem_chars_of_isInfix (infix_of_mem_segments hq) h)))
      (Undigited.inside hdigits' hinside) hfaithful hread rfl

/-- A text that is read brings each list back by its own marker. -/
theorem numbered_of_parseChars (hpad : ∀ k, ∀ c ∈ pad k, c.isDigit = true) {ps : List Piece}
    (hproper : Proper ps) (hmark : '#' ∉ chars ps) (hdigits : Undigited (texts ps)) {t : TypeRef}
    (h : parseChars (padded pad 0 ps) = .ok t) : Numbered pad 0 ps := by
  rw [parseChars_padded hpad hproper hmark] at h
  obtain ⟨⟨t', after⟩, hread, -⟩ := exists_of_map_eq_ok h
  have hfaithful : Faithful pad ((recorded pad 0 ps).map some) 0 ps := by
    intro i list _ hlist
    rw [held, Nat.zero_add, List.getElem?_map] at hlist
    cases hfound : (recorded pad 0 ps)[i]? <;> simp_all
  rcases settled_of_readSegment hpad hmark hdigits hfaithful hread with h | ⟨k, hk, hheld, -⟩
  · exact h.1
  · have hnone : ((recorded pad 0 ps).map some)[k]? = none := by
      simpa [length_recorded] using hk
    exact absurd (by rw [held, hnone]; rfl) hheld

end Piece

end Outline.TypeRef
