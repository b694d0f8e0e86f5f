import Mathlib.Logic.Relation
import Outline.Proofs.Text.Positions
import Outline.Proofs.Token.Growth
import Outline.Proofs.Token.Index
import Outline.Proofs.Token.Locality

/-!
# Where the reading of a token tree fails

`TokenTree.read` fails at the place that its error names.  Everything in front of that place is
read alike where the text is cut off there, and where an error names an open bracket, the blocks
that are opened behind it are the ones that end.

* `Dialect.match?_front` — the first rule that matches is the same one where the text is cut off
  behind the match.
* `TokenTree.Moves`, `TokenTree.Stops` — the steps of the walk without the trees, and the places
  where it ends.
* `TokenTree.stops_of_readFrom` — the walk of `TokenTree.readFrom`.
* `TokenTree.read_fails` — the places that the errors name.
-/

namespace Outline

variable {xs ys : List Char} {c : Char}

/-! ## String literals in front of a cut -/

namespace StringStyle

variable {style : StringStyle} {n : Nat} {cs : List Char}

theorem pos_of_scanQuoted {quote : Char} {multiline : Bool}
    (h : scanQuoted quote multiline cs = some n) : 0 < n := by
  unfold scanQuoted at h
  split at h
  · cases h
  · cases h
  · obtain ⟨m, -, rfl⟩ := Option.map_eq_some_iff.1 h
    omega
  · split at h
    · cases h
      decide
    · obtain ⟨-, h⟩ := Option.ite_none_left_eq_some.1 h
      obtain ⟨m, -, rfl⟩ := Option.map_eq_some_iff.1 h
      omega

theorem pos_of_scanVerbatim (h : scanVerbatim cs = some n) : 0 < n := by
  unfold scanVerbatim at h
  split at h
  · cases h
  · obtain ⟨m, -, rfl⟩ := Option.map_eq_some_iff.1 h
    omega
  · cases h
    decide
  · obtain ⟨m, -, rfl⟩ := Option.map_eq_some_iff.1 h
    omega

theorem head?_of_scanQuoted_one {quote : Char} {multiline : Bool}
    (h : scanQuoted quote multiline cs = some 1) : cs.head? = some quote := by
  unfold scanQuoted at h
  split at h
  · cases h
  · cases h
  · obtain ⟨m, -, hm⟩ := Option.map_eq_some_iff.1 h
    omega
  · rename_i d cs _ _
    split at h
    · rename_i hd
      rw [List.head?_cons, beq_iff_eq.1 hd]
    · obtain ⟨-, h⟩ := Option.ite_none_left_eq_some.1 h
      obtain ⟨m, hm, hone⟩ := Option.map_eq_some_iff.1 h
      have := pos_of_scanQuoted hm
      omega

/-- A literal with marks in front of its quote has at least three characters. -/
theorem three_le_of_scanMarked (h : style.scanMarked cs = some (some n)) : 3 ≤ n := by
  unfold scanMarked at h
  split at h
  · obtain ⟨-, h⟩ := Option.ite_none_right_eq_some.1 h
    obtain ⟨m, hm, rfl⟩ := Option.map_eq_some_iff.1 (Option.some.inj h)
    exact Nat.add_le_add_right (pos_of_scanVerbatim hm) 2
  · obtain ⟨-, h⟩ := Option.ite_none_right_eq_some.1 h
    obtain ⟨m, -, rfl⟩ := Option.map_eq_some_iff.1 (Option.some.inj h)
    exact Nat.le_add_left 3 m
  · obtain ⟨-, h⟩ := Option.ite_none_right_eq_some.1 h
    obtain ⟨m, -, rfl⟩ := Option.map_eq_some_iff.1 (Option.some.inj h)
    exact Nat.le_add_left 3 m
  · obtain ⟨-, h⟩ := Option.ite_none_right_eq_some.1 h
    obtain ⟨m, hm, rfl⟩ := Option.map_eq_some_iff.1 (Option.some.inj h)
    exact Nat.add_le_add_right (pos_of_scanQuoted hm) 2
  · cases h

/-- A literal of fewer than three characters is a pair of quotes, whatever stands behind it. -/
theorem scan_take_of_lt (h : style.scan (c :: cs) = some n) (hn : n < 3) :
    2 ≤ n ∧ style.scan ((c :: cs).take n) = some n := by
  have hquoted : ∀ {quote : Char} {multiline : Bool},
      (scanQuoted quote multiline cs).map (· + 1) = some n →
        n = 2 ∧ cs.take 1 = [quote] ∧ scanQuoted quote multiline [quote] = some 1 := by
    intro quote multiline h
    obtain ⟨m, hm, rfl⟩ := Option.map_eq_some_iff.1 h
    obtain rfl : m = 1 := by
      have := pos_of_scanQuoted hm
      omega
    obtain ⟨rest, rfl⟩ := List.head?_eq_some_iff.1 (head?_of_scanQuoted_one hm)
    exact ⟨rfl, rfl, scanQuoted_of_take hm rfl⟩
  have htext : ∀ q, ¬ (style.textBlocks && ['"', '"', '"'].isPrefixOf [c, q]) = true := by simp
  rw [scan_cons] at h
  split at h
  · obtain ⟨m, -, rfl⟩ := Option.map_eq_some_iff.1 h
    omega
  · split at h
    · rename_i htemplate
      obtain ⟨rfl, htake, hpair⟩ := hquoted h
      refine ⟨le_rfl, ?_⟩
      rw [List.take_succ_cons, htake, scan_cons, if_neg (htext _), if_pos htemplate, hpair,
        Option.map_some]
    · rename_i htemplate
      cases hmarked : style.scanMarked (c :: cs) with
      | some result =>
          rw [hmarked, Option.getD_some] at h
          rw [h] at hmarked
          have := three_le_of_scanMarked hmarked
          omega
      | none =>
          rw [hmarked, Option.getD_none] at h
          obtain ⟨hquote, h⟩ := Option.ite_none_right_eq_some.1 h
          obtain ⟨rfl, htake, hpair⟩ := hquoted h
          have hnone : style.scanMarked [c, c] = none := by
            have hno : ∀ {q q' : Char} {w : List Char}, q ≠ q' →
                (q :: q' :: w).isPrefixOf [c, c] = false := by
              intro q q' w hne
              refine Bool.eq_false_iff.2 fun hpre => hne ?_
              obtain ⟨rest, hrest⟩ := List.isPrefixOf_iff_prefix.1 hpre
              simp only [List.cons_append, List.cons.injEq] at hrest
              exact hrest.1.trans hrest.2.1.symm
            rw [scanMarked_eq, hno (by decide), hno (by decide), hno (by decide),
              hno (by decide)]
            rfl
          refine ⟨le_rfl, ?_⟩
          rw [List.take_succ_cons, htake, scan_cons, if_neg (htext _), if_neg htemplate, hnone,
            Option.getD_none, if_pos hquote, hpair, Option.map_some]

/-- A string literal is read from its characters alone where the text ends behind it. -/
theorem local_scan (style : StringStyle) : Local style.scan := by
  intro xs ys n h hn
  cases xs with
  | nil =>
      obtain rfl := Nat.le_zero.1 hn
      cases ys with
      | nil => exact h
      | cons c ys => exact absurd (scan_take_of_lt h (by decide)).1 (by decide)
  | cons c xs =>
      rw [List.cons_append] at h
      by_cases hshort : (c :: xs).length < 3
      · obtain ⟨hn', htake⟩ := scan_take_of_lt h (by omega)
        have hall : n = (c :: xs).length := by omega
        rwa [← List.cons_append, hall, List.take_left, ← hall] at htake
      · refine scan_of_take h (List.take_append_of_le_length hn).symm
          (fun w hw => ?_) fun hquote => ?_
        · have hw : w.length ≤ 3 := by
            revert w
            decide
          exact (isPrefixOf_append_of_le (by omega)).symm
        · change ((c :: xs ++ ys).drop n).head? = some '"'
          rw [List.drop_append_of_le_length hn, List.head?_append, hquote]
          rfl

end StringStyle

/-! ## Matches in front of a cut -/

namespace Recognizer

variable {r : Recognizer}

/-- What is read in front of a character is read where the text ends there. -/
theorem scan_front (hr : ∀ opening, r ≠ .blockComment opening "") {n : Nat}
    (h : r.scan (xs ++ c :: ys) = some n) (hn : n ≤ xs.length) : r.scan xs = some n := by
  by_cases hstring : ∃ style, r = .string style
  · obtain ⟨style, rfl⟩ := hstring
    obtain ⟨hread, hpos⟩ := scan_eq_some_iff.1 h
    exact scan_eq_some_iff.2 ⟨style.local_scan xs (c :: ys) n hread hn, hpos⟩
  · exact (stopsAt_of_ne_string (fun style heq => hstring ⟨style, heq⟩) hr).scan_cut h hn

end Recognizer

theorem Rule.match?_front {r : Rule} (hr : ∀ opening, r.recognizer ≠ .blockComment opening "")
    {e : Char} {m : RuleMatch} (h : r.match? (e :: (xs ++ c :: ys)) = some m)
    (hm : ∀ n classifier, m = .reads n classifier → n ≤ xs.length + 1) :
    r.match? (e :: xs) = some m := by
  by_cases hblock : ∃ opening closing, r.recognizer = .block opening closing
  · -- a bracket is one character
    obtain ⟨opening, closing, hrec⟩ := hblock
    rw [match?, hrec] at h ⊢
    exact h
  · have hleaf : ∀ opening closing, r.recognizer ≠ .block opening closing :=
      fun opening closing h => hblock ⟨opening, closing, h⟩
    rw [Rule.match?_leaf hleaf] at h ⊢
    obtain ⟨n, hn, rfl⟩ := Option.map_eq_some_iff.1 h
    have hle : n ≤ (e :: xs).length := hm n r.classifier rfl
    have hfront : r.recognizer.scan (e :: xs) = some n := Recognizer.scan_front hr hn hle
    rw [hfront, Option.map_some]

namespace Dialect

variable {d : Dialect}

/-- The first rule that matches is the same one where the text is cut off behind the match. -/
theorem match?_front {e : Char} {m : RuleMatch}
    (h : d.ruleSet.match? e (xs ++ c :: ys) = some m)
    (hm : ∀ n classifier, m = .reads n classifier → n ≤ xs.length + 1) :
    d.ruleSet.match? e xs = some m := by
  obtain ⟨before, r, after, hrules, hr, hbefore⟩ := List.findSome?_eq_some_iff.1 h
  have hmem : ∀ rule ∈ before ++ r :: after, rule ∈ d.ruleSet.candidateRules e := by
    rw [hrules]
    exact fun _ hrule => hrule
  have hcomment : ∀ rule ∈ before ++ r :: after, ∀ opening,
      rule.recognizer ≠ .blockComment opening "" := fun rule hrule =>
    ne_blockComment (RuleSet.mem_rules_of_mem_candidateRules (hmem rule hrule))
  have hfront := Rule.match?_front (hcomment r (by simp)) hr hm
  refine List.findSome?_eq_some_iff.2 ⟨before, r, after, hrules, hfront, fun rule hrule => ?_⟩
  by_cases hstring : ∃ style, rule.recognizer = .string style
  · obtain ⟨style, hstyle⟩ := hstring
    rcases candidateRules_of_string (hmem rule (by simp [hrule])) hstyle with
      hone | ⟨rfl, rfl, htwo⟩
    · -- there is no rule behind the only one
      have hlength := congrArg List.length (hrules.symm.trans hone)
      simp only [List.length_append, List.length_cons, List.length_nil] at hlength
      obtain rfl : before = [] := List.eq_nil_of_length_eq_zero (by omega)
      cases hrule
    · have hid : r = ⟨.identifier (CSharp.identifiers d.maxDepth), .keywordOrIdentifier⟩ := by
        have hlist := hrules.symm.trans htwo
        rcases before with _ | ⟨first, _ | ⟨second, before⟩⟩
        · cases hrule
        · rw [List.singleton_append] at hlist
          exact (List.cons.inj (List.cons.inj hlist).2).1
        · have hlength := congrArg List.length hlist
          simp at hlength
      rw [Rule.match?_leaf (by simp [hid]), hid] at hfront
      obtain ⟨n, hn, -⟩ := Option.map_eq_some_iff.1 hfront
      have hread : (CSharp.identifiers d.maxDepth).scan ('@' :: xs) = some n :=
        (Recognizer.scan_eq_some_iff.1 hn).1
      rw [Rule.match?_leaf (by simp [hstyle]), hstyle, Recognizer.scan, Recognizer.read,
        CSharp.scan_strings_of_scanName (IdentifierStyle.scanName_of_scan hread)]
      rfl
  · have hstops := Recognizer.stopsAt_of_ne_string (c := c)
      (fun style heq => hstring ⟨style, heq⟩) (hcomment rule (by simp [hrule]))
    exact (Rule.match?_cut hstops).2 (hbefore rule hrule)

end Dialect

/-! ## Positions -/

namespace Source

/-- The offset `p` has the given position; in a text that is short enough for positions to be
counted to its end, no other offset has. -/
def IsOffset (source : Source) (position : Position) (p : Nat) : Prop :=
  source.position p = position ∧
    (source.length < Position.width → ∀ q ≤ source.length, source.position q = position → q = p)

theorem isOffset_position {text : String} {p : Nat} (hp : p ≤ (ofString text).length) :
    (ofString text).IsOffset ((ofString text).position p) p := by
  refine ⟨rfl, fun hshort q hq h => ?_⟩
  have hlocated := locates_position hshort hq
  rw [h] at hlocated
  exact hlocated.unique (locates_position hshort hp)

end Source

/-! ## The walk without the trees -/

namespace TokenTree

/-- Where the walk stands: the open brackets, the innermost first, and the offset of the next
character. -/
structure Place where
  /-- The open brackets. -/
  outer : List OpenBracket
  /-- The offset. -/
  pos : Nat

section Walk

variable (rules : RuleSet) (source : Source)

/-- One step of the walk. -/
inductive Moves : Place → Place → Prop where
  /-- The innermost open block ends. -/
  | closes {b : OpenBracket} {outer : List OpenBracket} {pos : Nat} {cs : List Char}
      (rest : source.chars.drop pos = b.closing :: cs) : Moves ⟨b :: outer, pos⟩ ⟨outer, pos + 1⟩
  /-- A block begins. -/
  | opens {outer : List OpenBracket} {pos : Nat} {c closing : Char} {cs : List Char}
      (rest : source.chars.drop pos = c :: cs) (other : outer.head?.any (·.closing == c) = false)
      (open? : rules.isCloser c = false) (found : rules.match? c cs = some (.opens closing)) :
      Moves ⟨outer, pos⟩ ⟨⟨c, closing, pos⟩ :: outer, pos + 1⟩
  /-- A rule reads some characters. -/
  | reads {outer : List OpenBracket} {pos len : Nat} {c : Char} {cs : List Char}
      {classifier : Classifier} (rest : source.chars.drop pos = c :: cs)
      (other : outer.head?.any (·.closing == c) = false) (open? : rules.isCloser c = false)
      (found : rules.match? c cs = some (.reads len classifier)) :
      Moves ⟨outer, pos⟩ ⟨outer, pos + len⟩

/-- The walk ends at the place, with the given error if it fails there. -/
inductive Stops : Place → Option TokenError → Prop where
  /-- The text has ended. -/
  | done {pos : Nat} (rest : source.chars.drop pos = []) : Stops ⟨[], pos⟩ none
  /-- The text has ended inside a block. -/
  | unclosed {b : OpenBracket} {outer : List OpenBracket} {pos : Nat}
      (rest : source.chars.drop pos = []) :
      Stops ⟨b :: outer, pos⟩ (some (.unclosed b.opening (source.position b.start)))
  /-- A closing bracket that does not end the innermost open block. -/
  | unexpectedClose {outer : List OpenBracket} {pos : Nat} {c : Char} {cs : List Char}
      (rest : source.chars.drop pos = c :: cs) (other : outer.head?.any (·.closing == c) = false)
      (closer : rules.isCloser c = true) :
      Stops ⟨outer, pos⟩ (some (.unexpectedClose c (source.position pos)))
  /-- A character that no rule accepts. -/
  | unrecognized {outer : List OpenBracket} {pos : Nat} {c : Char} {cs : List Char}
      (rest : source.chars.drop pos = c :: cs) (other : outer.head?.any (·.closing == c) = false)
      (open? : rules.isCloser c = false) (found : rules.match? c cs = none) :
      Stops ⟨outer, pos⟩ (some (.unrecognized c (source.position pos)))

/-- The places that the walk over the text comes to. -/
def Reached (s : Place) : Prop := Relation.ReflTransGen (Moves rules source) ⟨[], 0⟩ s

/-- A block begins at the offset `p`. -/
def OpensAt (p : Nat) : Prop :=
  ∃ s t b, Reached rules source s ∧ Moves rules source s t ∧ s.pos = p ∧ t.outer = b :: s.outer

/-- The character at the offset `q` ends the block that begins at the offset `p`. -/
def Closes (p q : Nat) : Prop :=
  ∃ s t b, Reached rules source s ∧ Moves rules source s t ∧ s.pos = q ∧ s.outer = b :: t.outer ∧
    b.start = p

end Walk

variable {rules : RuleSet} {source : Source} {s t t' : Place} {e e' : Option TokenError}

/-- What happens at a place: a step, or the end of the walk. -/
def Place.next (rules : RuleSet) (source : Source) (s : Place) :
    Except (Option TokenError) Place :=
  match source.chars.drop s.pos with
  | [] => .error (s.outer.head?.map fun b => .unclosed b.opening (source.position b.start))
  | c :: cs =>
    if s.outer.head?.any (·.closing == c) then .ok ⟨s.outer.tail, s.pos + 1⟩
    else if rules.isCloser c then .error (some (.unexpectedClose c (source.position s.pos)))
    else match rules.match? c cs with
      | none => .error (some (.unrecognized c (source.position s.pos)))
      | some (.opens closing) => .ok ⟨⟨c, closing, s.pos⟩ :: s.outer, s.pos + 1⟩
      | some (.reads len _) => .ok ⟨s.outer, s.pos + len⟩

theorem Moves.next_eq (h : Moves rules source s t) : s.next rules source = .ok t := by
  cases h with
  | closes rest => simp [Place.next, rest]
  | opens rest other open? found => simp [Place.next, rest, other, open?, found]
  | reads rest other open? found => simp [Place.next, rest, other, open?, found]

theorem Stops.next_eq (h : Stops rules source s e) : s.next rules source = .error e := by
  cases h with
  | done rest => simp [Place.next, rest]
  | unclosed rest => simp [Place.next, rest]
  | unexpectedClose rest other closer => simp [Place.next, rest, other, closer]
  | unrecognized rest other open? found => simp [Place.next, rest, other, open?, found]

theorem Moves.unique (h : Moves rules source s t) (h' : Moves rules source s t') : t = t' :=
  Except.ok.inj (h.next_eq.symm.trans h'.next_eq)

theorem Stops.not_moves (h : Stops rules source s e) : ¬ Moves rules source s t := by
  intro hmoves
  have hnext := h.next_eq.symm.trans hmoves.next_eq
  cases hnext

/-- A step goes forward. -/
theorem Moves.lt (h : Moves rules source s t) : s.pos < t.pos := by
  cases h with
  | closes rest => exact Nat.lt_succ_self _
  | opens rest other open? found => exact Nat.lt_succ_self _
  | reads rest other open? found =>
      obtain ⟨-, hpos, -⟩ := RuleSet.match?_reads found
      exact Nat.lt_add_of_pos_right hpos

/-- The walk goes on from every place that it comes to, up to where it ends. -/
theorem Reached.trans_stop {f : Place} (hs : Reached rules source s) (hf : Reached rules source f)
    (hstop : Stops rules source f e) : Relation.ReflTransGen (Moves rules source) s f := by
  have hunique : Relator.RightUnique (Moves rules source) := fun _ _ _ h h' => h.unique h'
  rcases Relation.ReflTransGen.total_of_right_unique hunique hs hf with h | h
  · exact h
  · rcases Relation.ReflTransGen.cases_head h with rfl | ⟨t, hmoves, -⟩
    · exact .refl
    · exact absurd hmoves hstop.not_moves

/-- The walk ends at one place, and in one way. -/
theorem Reached.stop_unique {f : Place} (hs : Reached rules source s)
    (hstop : Stops rules source s e) (hf : Reached rules source f)
    (hstop' : Stops rules source f e') : e = e' := by
  obtain rfl | ⟨t, hmoves, -⟩ := Relation.ReflTransGen.cases_head (hs.trans_stop hf hstop')
  · exact Except.error.inj (hstop.next_eq.symm.trans hstop'.next_eq)
  · exact absurd hmoves hstop.not_moves

/-- The error of a reading that fails. -/
def failure {α : Type} : Except TokenError α → Option TokenError
  | .ok _ => none
  | .error e => some e

theorem failure_eq_none_iff {α : Type} {reading : Except TokenError α} :
    failure reading = none ↔ ∃ a, reading = .ok a := by
  cases reading <;> simp [failure]

theorem failure_eq_some_iff {α : Type} {reading : Except TokenError α} {e : TokenError} :
    failure reading = some e ↔ reading = .error e := by
  cases reading <;> simp [failure]

/-- The reading from a place on ends as the walk does. -/
theorem stops_of_readFrom {l : Language} {outer : List OpenBlock} {done : List TokenTree}
    {pos : Nat} {cs : List Char} (hrest : source.chars.drop pos = cs) :
    ∃ s, Relation.ReflTransGen (Moves rules source) ⟨outer.map OpenBlock.bracket, pos⟩ s ∧
      Stops rules source s (failure (readFrom l rules source outer done pos cs)) := by
  induction hn : cs.length using Nat.strong_induction_on generalizing outer done pos cs with
  | _ n ih =>
  subst hn
  cases cs with
  | nil =>
      refine ⟨_, .refl, ?_⟩
      cases outer with
      | nil =>
          rw [readFrom]
          exact .done hrest
      | cons b outer =>
          rw [readFrom]
          exact .unclosed hrest
  | cons c cs =>
      obtain ⟨htail, -, -⟩ := drop_succ_of_drop hrest
      by_cases hc : outer.head?.any (·.closing == c) = true
      · -- the innermost block ends
        obtain ⟨b, outer, rfl⟩ : ∃ b rest, outer = b :: rest := by
          cases outer with
          | nil => simp at hc
          | cons b rest => exact ⟨b, rest, rfl⟩
        obtain rfl : b.closing = c := by simpa using hc
        rw [readFrom_close]
        obtain ⟨s, hs, hstop⟩ := ih _ (by simp) htail rfl
        exact ⟨s, .head (.closes hrest) hs, hstop⟩
      · rw [Bool.not_eq_true] at hc
        have hother : (outer.map OpenBlock.bracket).head?.any (·.closing == c) = false := by
          rw [← hc]
          cases outer <;> rfl
        rw [readFrom_other done pos cs hc]
        split
        · rename_i hcloser
          exact ⟨_, .refl, .unexpectedClose hrest hother hcloser⟩
        · rename_i hopen
          rw [Bool.not_eq_true] at hopen
          split
          · rename_i hfound
            exact ⟨_, .refl, .unrecognized hrest hother hopen hfound⟩
          · -- a block begins
            rename_i closing hfound
            let b : OpenBlock := ⟨c, closing, pos, c :: cs, done⟩
            obtain ⟨s, hs, hstop⟩ := @ih _ (by simp) (b :: outer) [] _ _ htail rfl
            exact ⟨s, .head (.opens hrest hother hopen hfound) hs, hstop⟩
          · -- a rule reads some characters
            rename_i len classifier hfound
            obtain ⟨-, hpos, hlen⟩ := RuleSet.match?_reads hfound
            have hshort : (cs.drop (len - 1)).length < (c :: cs).length := by
              rw [List.length_drop, List.length_cons]
              omega
            obtain ⟨s, hs, hstop⟩ := ih _ hshort (drop_add_of_drop hrest hpos hlen).1 rfl
            exact ⟨s, .head (.reads hrest hother hopen hfound) hs, hstop⟩

/-- The reading of a text ends as the walk over it does. -/
theorem stops_of_read (d : Dialect) (text : String) :
    ∃ s, Reached d.ruleSet (Source.ofString text) s ∧
      Stops d.ruleSet (Source.ofString text) s (failure (read d text)) := by
  have hread : failure (read d text) = failure (readFrom d.language d.ruleSet
      (Source.ofString text) [] [] 0 (Source.ofString text).chars) := by
    rw [read]
    cases readFrom d.language d.ruleSet (Source.ofString text) [] [] 0
      (Source.ofString text).chars <;> rfl
  rw [hread]
  exact @stops_of_readFrom _ _ d.language [] [] _ _ List.drop_zero

/-! ## Cutting the text off where the walk stands -/

/-- A step is the same one where the text is cut off behind it. -/
theorem Moves.cut {d : Dialect} {source' : Source} {back : List Char}
    (hcut : source.chars = source'.chars ++ c :: back) (h : Moves d.ruleSet source s t)
    (ht : t.pos ≤ source'.chars.length) : Moves d.ruleSet source' s t := by
  have hrest : ∀ {p : Nat} {e : Char} {cs : List Char}, p < source'.chars.length →
      source.chars.drop p = e :: cs →
        ∃ cs', source'.chars.drop p = e :: cs' ∧ cs = cs' ++ c :: back := by
    intro p e cs hp hdrop
    rw [hcut] at hdrop
    exact exists_of_drop_append hp hdrop
  have hs := h.lt.trans_le ht
  cases h with
  | closes rest =>
      obtain ⟨cs', hdrop, -⟩ := hrest hs rest
      exact .closes hdrop
  | opens rest other open? found =>
      obtain ⟨cs', hdrop, rfl⟩ := hrest hs rest
      exact .opens hdrop other open? (Dialect.match?_front found fun n classifier h => by cases h)
  | @reads outer pos len e cs classifier rest other open? found =>
      obtain ⟨cs', hdrop, rfl⟩ := hrest hs rest
      have hlength := congrArg List.length hdrop
      rw [List.length_drop, List.length_cons] at hlength
      change source'.chars.length - pos = cs'.length + 1 at hlength
      refine .reads hdrop other open? (Dialect.match?_front found fun n classifier h => ?_)
      cases h
      change pos + len ≤ source'.chars.length at ht
      omega

theorem Reached.cut {d : Dialect} {source' : Source} {back : List Char}
    (hcut : source.chars = source'.chars ++ c :: back) (h : Reached d.ruleSet source s)
    (hs : s.pos ≤ source'.chars.length) : Reached d.ruleSet source' s := by
  induction h with
  | refl => exact .refl
  | tail _ hmoves ih => exact (ih (hmoves.lt.le.trans hs)).tail (hmoves.cut hcut hs)

/-- The text in front of a character that the walk comes to is read, or a block stays open at its
end. -/
theorem read_take_of_reached {d : Dialect} {text : String} {cs : List Char}
    (h : Reached d.ruleSet (Source.ofString text) s)
    (hrest : (Source.ofString text).chars.drop s.pos = c :: cs) :
    (∃ document, read d (String.ofList (text.toList.take s.pos)) = .ok document) ∨
      ∃ opening position, read d (String.ofList (text.toList.take s.pos)) =
        .error (.unclosed opening position) := by
  generalize hfront : String.ofList (text.toList.take s.pos) = front
  have hchars : (Source.ofString front).chars = text.toList.take s.pos := by
    rw [← hfront]
    exact String.toList_ofList
  have hlength : (Source.ofString front).chars.length = s.pos := by
    have hle := (drop_succ_of_drop hrest).2.1
    rw [hchars, List.length_take]
    exact Nat.min_eq_left (Nat.le_of_succ_le hle)
  have hcut : (Source.ofString text).chars = (Source.ofString front).chars ++ c :: cs := by
    rw [hchars, ← hrest]
    exact (List.take_append_drop s.pos text.toList).symm
  have hreached := h.cut hcut hlength.ge
  have hend : (Source.ofString front).chars.drop s.pos = [] := by rw [← hlength, List.drop_length]
  obtain ⟨f, hf, hstop⟩ := stops_of_read d front
  obtain ⟨outer, pos⟩ := s
  cases outer with
  | nil =>
      have hfailure := hreached.stop_unique (.done hend) hf hstop
      exact .inl (failure_eq_none_iff.1 hfailure.symm)
  | cons b outer =>
      have hfailure := hreached.stop_unique (.unclosed hend) hf hstop
      exact .inr ⟨_, _, failure_eq_some_iff.1 hfailure.symm⟩

/-! ## Open brackets -/

/-- What is known where the walk stands: each open bracket stands behind those around it, and a
block begins at it. -/
structure Place.Sound (rules : RuleSet) (source : Source) (s : Place) : Prop where
  /-- The order of the brackets. -/
  nested : s.outer.Pairwise fun b b' => b'.start < b.start
  /-- Each bracket stands in front of the place. -/
  before : ∀ b ∈ s.outer, b.start < s.pos
  /-- Each bracket is the character that it opens its block with. -/
  opening : ∀ b ∈ s.outer, source.chars[b.start]? = some b.opening ∧ OpensAt rules source b.start

theorem Reached.sound (h : Reached rules source s) : s.Sound rules source := by
  induction h with
  | refl => exact ⟨.nil, by simp, by simp⟩
  | @tail s t hs hmoves ih =>
      have hlt := hmoves.lt
      cases hmoves with
      | closes rest =>
          exact ⟨ih.nested.of_cons, fun b hb => (ih.before b (.tail _ hb)).trans hlt,
            fun b hb => ih.opening b (.tail _ hb)⟩
      | @opens outer pos c closing cs rest other open? found =>
          refine ⟨ih.nested.cons ih.before, ?_, ?_⟩
          · rintro b (_ | ⟨_, hb⟩)
            · exact hlt
            · exact (ih.before b hb).trans hlt
          · rintro b (_ | ⟨_, hb⟩)
            · exact ⟨(TokenTree.drop_succ_of_drop rest).2.2, _, _, _, hs,
                .opens rest other open? found, rfl, rfl⟩
            · exact ih.opening b hb
      | reads rest other open? found =>
          exact ⟨ih.nested, fun b hb => (ih.before b hb).trans hlt, ih.opening⟩

theorem pos_le_of_moves {f : Place} (h : Relation.ReflTransGen (Moves rules source) s f) :
    s.pos ≤ f.pos := by
  induction h with
  | refl => exact le_rfl
  | tail _ hmoves ih => exact ih.trans hmoves.lt.le

/-- A bracket that is open later on was open before or is opened in between. -/
theorem open_before {f : Place} (h : Relation.ReflTransGen (Moves rules source) s f) :
    ∀ b ∈ f.outer, b ∈ s.outer ∨ s.pos ≤ b.start := by
  induction h with
  | refl => exact fun b hb => .inl hb
  | @tail t f hst hmoves ih =>
      have hle := pos_le_of_moves hst
      intro b hb
      cases hmoves with
      | closes rest => exact ih b (.tail _ hb)
      | opens rest other open? found =>
          rcases List.mem_cons.1 hb with rfl | hb
          · exact .inr hle
          · exact ih b hb
      | reads rest other open? found => exact ih b hb

/-- A bracket that is no longer open has been closed. -/
theorem exists_closes {f : Place} {b : OpenBracket} (hs : Reached rules source s)
    (h : Relation.ReflTransGen (Moves rules source) s f) (hb : b ∈ s.outer) (hgone : b ∉ f.outer) :
    ∃ q, Closes rules source b.start q := by
  induction h using Relation.ReflTransGen.head_induction_on with
  | refl => exact absurd hb hgone
  | @head s t hmoves _ ih =>
      by_cases ht : b ∈ t.outer
      · exact ih (hs.tail hmoves) ht
      · refine ⟨s.pos, s, t, b, hs, hmoves, rfl, ?_, rfl⟩
        cases hmoves with
        | closes rest =>
            rcases List.mem_cons.1 hb with rfl | hb
            · rfl
            · exact absurd hb ht
        | opens rest other open? found => exact absurd (.tail _ hb) ht
        | reads rest other open? found => exact absurd hb ht

/-- The bracket of a block stands where the block begins. -/
theorem Moves.start_of_push {b : OpenBracket} (h : Moves rules source s t)
    (hpush : t.outer = b :: s.outer) : b.start = s.pos := by
  cases h with
  | closes rest =>
      have hlength := congrArg List.length hpush
      simp only [List.length_cons] at hlength
      omega
  | opens rest other open? found => rw [← (List.cons.inj hpush).1]
  | reads rest other open? found =>
      have hlength := congrArg List.length hpush
      simp only [List.length_cons] at hlength
      omega

/-- The innermost block that is open where the walk ends is never closed, and those that begin
behind it are. -/
theorem Reached.never_closed {f : Place} {b : OpenBracket} {outer : List OpenBracket}
    (hf : Reached rules source f) (hstop : Stops rules source f e) (houter : f.outer = b :: outer) :
    (∀ q, ¬ Closes rules source b.start q) ∧
      ∀ r, b.start < r → OpensAt rules source r → ∃ q, Closes rules source r q := by
  constructor
  · rintro q ⟨s, t, b', hs, hmoves, rfl, hpop, hstart⟩
    have hmem : b ∈ f.outer := by simp [houter]
    rcases open_before (Reached.trans_stop (hs.tail hmoves) hf hstop) b hmem with hopen | hle
    · -- a bracket around the closed one stands in front of it
      have hnested := hs.sound.nested
      rw [hpop] at hnested
      have hlt := List.rel_of_pairwise_cons hnested hopen
      omega
    · have hbefore := hs.sound.before b' (by simp [hpop])
      have hlt := hmoves.lt
      omega
  · rintro r hr ⟨s, t, b', hs, hmoves, rfl, hpush⟩
    have hstart := hmoves.start_of_push hpush
    have hgone : b' ∉ f.outer := by
      have hnested := hf.sound.nested
      rw [houter] at hnested ⊢
      rintro (_ | ⟨_, hmem⟩)
      · omega
      · have hlt := List.rel_of_pairwise_cons hnested hmem
        omega
    rw [← hstart]
    exact exists_closes (hs.tail hmoves) (Reached.trans_stop (hs.tail hmoves) hf hstop)
      (by simp [hpush]) hgone

/-! ## Failures -/

/-- Where the reading of a text fails.  The walk that `Moves` and `Stops` describe is that of the
reading.  A character that is not accepted, or a closing bracket that does not belong there, stands
at the place that is named, and the text in front of it is read, up to blocks that stay open.  A
bracket that stays open stands at the place that is named, and the blocks that begin behind it
end. -/
theorem read_fails (d : Dialect) (text : String) :
    let source := Source.ofString text
    let front := fun p => read d (String.ofList (text.toList.take p))
    (∃ s, Reached d.ruleSet source s ∧ Stops d.ruleSet source s (failure (read d text))) ∧
    (∀ c position, read d text = .error (.unrecognized c position) ∨
        read d text = .error (.unexpectedClose c position) →
      ∃ p, source.IsOffset position p ∧ text.toList[p]? = some c ∧
        ((∃ document, front p = .ok document) ∨
          ∃ opening position', front p = .error (.unclosed opening position'))) ∧
    ∀ opening position, read d text = .error (.unclosed opening position) →
      ∃ p, source.IsOffset position p ∧ text.toList[p]? = some opening ∧
        OpensAt d.ruleSet source p ∧ (∀ q, ¬ Closes d.ruleSet source p q) ∧
        ∀ r, p < r → OpensAt d.ruleSet source r → ∃ q, Closes d.ruleSet source r q := by
  intro source front
  obtain ⟨s, hs, hstop⟩ := stops_of_read d text
  refine ⟨⟨s, hs, hstop⟩, fun c position h => ?_, fun opening position h => ?_⟩
  · obtain ⟨cs, hrest, hposition⟩ : ∃ cs, source.chars.drop s.pos = c :: cs ∧
        position = source.position s.pos := by
      rcases h with h | h <;> rw [h] at hstop
      · cases hstop with
        | unrecognized rest other open? found => exact ⟨_, rest, rfl⟩
      · cases hstop with
        | unexpectedClose rest other closer => exact ⟨_, rest, rfl⟩
    obtain ⟨-, hle, hget⟩ := drop_succ_of_drop hrest
    refine ⟨s.pos, ?_, hget, read_take_of_reached hs hrest⟩
    rw [hposition]
    exact Source.isOffset_position (Nat.le_of_succ_le hle)
  · rw [h] at hstop
    obtain ⟨b, outer, houter, rfl, rfl⟩ : ∃ b outer, s.outer = b :: outer ∧
        opening = b.opening ∧ position = source.position b.start := by
      cases hstop
      exact ⟨_, _, rfl, rfl, rfl⟩
    obtain ⟨hget, hopens⟩ := hs.sound.opening b (by simp [houter])
    refine ⟨b.start, Source.isOffset_position ?_, hget, hopens, hs.never_closed hstop houter⟩
    exact (List.getElem?_eq_some_iff.1 hget).1.le

/-- A bracket that closes nothing behind a block that has ended, and an open block in front of
one that has ended. -/
theorem read_fails_brackets :
    let reading := fun text => read ⟨.java, 3⟩ text
    let rules := Dialect.ruleSet ⟨.java, 3⟩
    (reading "\x7b f(a) ] g" = .error (.unexpectedClose ']' ⟨0, 7⟩) ∧
      ∃ p, (Source.ofString "\x7b f(a) ] g").IsOffset ⟨0, 7⟩ p ∧
        "\x7b f(a) ] g".toList[p]? = some ']' ∧
        ((∃ document, reading (String.ofList ("\x7b f(a) ] g".toList.take p)) = .ok document) ∨
          ∃ opening position', reading (String.ofList ("\x7b f(a) ] g".toList.take p)) =
            .error (.unclosed opening position'))) ∧
    reading "\x7b f(a)" = .error (.unclosed '\x7b' ⟨0, 0⟩) ∧
      ∃ p, (Source.ofString "\x7b f(a)").IsOffset ⟨0, 0⟩ p ∧
        "\x7b f(a)".toList[p]? = some '\x7b' ∧
        OpensAt rules (Source.ofString "\x7b f(a)") p ∧
        (∀ q, ¬ Closes rules (Source.ofString "\x7b f(a)") p q) ∧
        ∀ r, p < r → OpensAt rules (Source.ofString "\x7b f(a)") r →
          ∃ q, Closes rules (Source.ofString "\x7b f(a)") r q := by
  intro reading rules
  have hclose : reading "\x7b f(a) ] g" = .error (.unexpectedClose ']' ⟨0, 7⟩) :=
    failure_eq_some_iff.1 (by decide +kernel)
  have hopen : reading "\x7b f(a)" = .error (.unclosed '\x7b' ⟨0, 0⟩) :=
    failure_eq_some_iff.1 (by decide +kernel)
  exact ⟨⟨hclose, (read_fails ⟨.java, 3⟩ "\x7b f(a) ] g").2.1 _ _ (.inr hclose)⟩, hopen,
    (read_fails ⟨.java, 3⟩ "\x7b f(a)").2.2 _ _ hopen⟩

end TokenTree

end Outline
