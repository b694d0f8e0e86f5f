import Outline.Proofs.Token.Scanning

/-!
# The grammar of token trees

`TokenTree.readFrom` keeps a stack of open blocks and closes the innermost one when its bracket
comes.  `Reads` says the same without a stack: a stretch of text reads as a list of trees if it is
cut into discarded text, leaves and blocks, where the text between the brackets of a block reads as
the trees inside it.

* `Reads.append` — stretches that touch can be joined.
* `Levels` — the loop invariant: every open block has read its own stretch so far.
* `reads_of_read` — what `TokenTree.read` answers is a reading of the whole text.
* `read_of_reads` — every reading of the whole text is answered.
-/

namespace Outline

/-- What is answered at all is answered without an error. -/
theorem eq_ok_of_toOption {ε α : Type} {e : Except ε α} {x : α} (h : e.toOption = some x) :
    e = .ok x := by
  cases e with
  | error e => cases h
  | ok y =>
      cases h
      rfl

namespace OpenBlock

/-- What is known of an open block: it stands at the start of the text that it keeps, and a
bracket pair opens it. -/
structure Opened (rules : RuleSet) (source : Source) (b : OpenBlock) : Prop where
  /-- The text kept is that from the opening bracket on. -/
  rest : source.chars.drop b.start = b.rest
  /-- The rule behind the bracket. -/
  found : ∃ cs, b.rest = b.opening :: cs ∧ rules.isCloser b.opening = false ∧
    rules.match? b.opening cs = some (.opens b.closing)

end OpenBlock

namespace TokenTree

/-- The text of `source` between the offsets `p` and `q` reads as the given trees. -/
inductive Reads (l : Language) (rules : RuleSet) (source : Source) :
    Nat → Nat → List TokenTree → Prop where
  /-- No text reads as no tree. -/
  | nil (p : Nat) : Reads l rules source p p []
  /-- Text that a rule discards. -/
  | skip {p q len : Nat} {c : Char} {cs : List Char} {classifier : Classifier}
      {ts : List TokenTree} (rest : source.chars.drop p = c :: cs)
      (open? : rules.isCloser c = false)
      (found : rules.match? c cs = some (.reads len classifier))
      (kind : classifier.kind? l (String.ofList ((c :: cs).take len)) = none)
      (tail : Reads l rules source (p + len) q ts) : Reads l rules source p q ts
  /-- Text that a rule makes a leaf. -/
  | leaf {p q len : Nat} {c : Char} {cs : List Char} {classifier : Classifier}
      {kind : TokenKind} {ts : List TokenTree} (rest : source.chars.drop p = c :: cs)
      (open? : rules.isCloser c = false)
      (found : rules.match? c cs = some (.reads len classifier))
      (kind? : classifier.kind? l (String.ofList ((c :: cs).take len)) = some kind)
      (tail : Reads l rules source (p + len) q ts) :
      Reads l rules source p q
        (TokenTree.leaf ⟨kind, source.span p len, String.ofList ((c :: cs).take len)⟩ :: ts)
  /-- A bracket, the text inside it and its partner. -/
  | block {p m q : Nat} {c closing : Char} {cs : List Char} {inner ts : List TokenTree}
      (rest : source.chars.drop p = c :: cs) (open? : rules.isCloser c = false)
      (found : rules.match? c cs = some (.opens closing))
      (inside : Reads l rules source (p + 1) m inner)
      (close : source.chars[m]? = some closing)
      (tail : Reads l rules source (m + 1) q ts) :
      Reads l rules source p q
        (.node ⟨.block, source.span p (m + 1 - p),
          String.ofList ((c :: cs).take (m + 1 - p))⟩ inner :: ts)

variable {l : Language} {rules : RuleSet} {source : Source}

namespace Reads

theorem append {p q r : Nat} {ts us : List TokenTree} (h : Reads l rules source p q ts)
    (hus : Reads l rules source q r us) : Reads l rules source p r (ts ++ us) := by
  induction h with
  | nil p => exact hus
  | skip rest hopen found kind _ ih => exact .skip rest hopen found kind (ih hus)
  | leaf rest hopen found kind _ ih => exact .leaf rest hopen found kind (ih hus)
  | block rest hopen found inside close _ _ ih =>
      exact .block rest hopen found inside close (ih hus)

/-- A reading goes forward. -/
theorem le {p q : Nat} {ts : List TokenTree} (h : Reads l rules source p q ts) : p ≤ q := by
  induction h with
  | nil p => exact le_rfl
  | skip _ _ _ _ _ ih => omega
  | leaf _ _ _ _ _ ih => omega
  | block _ _ _ _ _ _ ihinside ih => omega

end Reads

/-! ## The loop invariant -/

/-- Every level has read the stretch from behind its opening bracket up to where the next level
starts, the innermost one up to `pos`. -/
def Levels (l : Language) (rules : RuleSet) (source : Source) :
    List OpenBlock → List TokenTree → Nat → Prop
  | [], done, pos => Reads l rules source 0 pos done.reverse
  | b :: outer, done, pos =>
    Reads l rules source (b.start + 1) pos done.reverse ∧ b.Opened rules source ∧
      Levels l rules source outer b.before b.start

theorem Levels.read {outer : List OpenBlock} {done ts : List TokenTree} {pos next : Nat}
    (h : Levels l rules source outer done pos) (hts : Reads l rules source pos next ts) :
    Levels l rules source outer (ts.reverse ++ done) next := by
  cases outer with
  | nil =>
      have happ := Reads.append h hts
      rw [Levels, List.reverse_append, List.reverse_reverse]
      exact happ
  | cons b outer =>
      obtain ⟨hdone, hb, houter⟩ := h
      refine ⟨?_, hb, houter⟩
      rw [List.reverse_append, List.reverse_reverse]
      exact hdone.append hts

theorem Levels.close {b : OpenBlock} {outer : List OpenBlock} {done : List TokenTree} {pos : Nat}
    (h : Levels l rules source (b :: outer) done pos)
    (hclose : source.chars[pos]? = some b.closing) :
    Levels l rules source outer (b.tree source done (pos + 1) :: b.before) (pos + 1) := by
  obtain ⟨hdone, ⟨hrest, cs, hb, hopen, hfound⟩, houter⟩ := h
  rw [hb] at hrest
  have hblock := houter.read (.block hrest hopen hfound hdone hclose (.nil (pos + 1)))
  simpa [OpenBlock.tree, hb] using hblock

/-! ## The steps of the walk -/

/-- A bracket that ends the innermost open block. -/
theorem readFrom_close (b : OpenBlock) (outer : List OpenBlock) (done : List TokenTree) (pos : Nat)
    (cs : List Char) :
    readFrom l rules source (b :: outer) done pos (b.closing :: cs) =
      readFrom l rules source outer (b.tree source done (pos + 1) :: b.before) (pos + 1) cs := by
  rw [readFrom.eq_def]
  simp

/-- Any other character. -/
theorem readFrom_other {outer : List OpenBlock} {c : Char} (done : List TokenTree) (pos : Nat)
    (cs : List Char) (hc : outer.head?.any (·.closing == c) = false) :
    readFrom l rules source outer done pos (c :: cs) =
      if rules.isCloser c then .error (.unexpectedClose c (source.position pos))
      else match rules.match? c cs with
        | none => .error (.unrecognized c (source.position pos))
        | some (.opens closing) =>
          readFrom l rules source (⟨c, closing, pos, c :: cs, done⟩ :: outer) [] (pos + 1) cs
        | some (.reads len classifier) =>
          readFrom l rules source outer
            (match classifier.kind? l (String.ofList ((c :: cs).take len)) with
              | some kind =>
                leaf ⟨kind, source.span pos len, String.ofList ((c :: cs).take len)⟩ :: done
              | none => done) (pos + len) (cs.drop (len - 1)) := by
  refine (readFrom.eq_def ..).trans ?_
  dsimp only
  generalize outer.head?.any (·.closing == c) = closes at hc ⊢
  subst hc
  cases outer <;> rfl

theorem drop_succ_of_drop {cs xs : List Char} {c : Char} {p : Nat} (h : xs.drop p = c :: cs) :
    xs.drop (p + 1) = cs ∧ p + 1 ≤ xs.length ∧ xs[p]? = some c := by
  have hget : xs[p]? = some c := by rw [← List.head?_drop, h, List.head?_cons]
  refine ⟨?_, (List.getElem?_eq_some_iff.1 hget).1, hget⟩
  rw [← List.drop_drop, h, List.drop_succ_cons, List.drop_zero]

theorem drop_add_of_drop {cs xs : List Char} {c : Char} {p len : Nat} (h : xs.drop p = c :: cs)
    (hpos : 0 < len) (hlen : len ≤ (c :: cs).length) :
    xs.drop (p + len) = cs.drop (len - 1) ∧ p + len ≤ xs.length := by
  obtain ⟨k, rfl⟩ : ∃ k, len = k + 1 := ⟨len - 1, by omega⟩
  have hxs := congrArg List.length h
  rw [List.length_drop] at hxs
  refine ⟨?_, by omega⟩
  rw [← List.drop_drop, h, List.drop_succ_cons, Nat.add_sub_cancel]

/-- The walk keeps the invariant, and so a walk that succeeds has read the whole text. -/
theorem reads_of_readFrom {outer : List OpenBlock} {done ts : List TokenTree} {pos : Nat}
    {cs : List Char} (h : readFrom l rules source outer done pos cs = .ok ts)
    (hpos : pos ≤ source.chars.length) (hrest : source.chars.drop pos = cs)
    (hlevels : Levels l rules source outer done pos) :
    Reads l rules source 0 source.chars.length ts := by
  induction hn : cs.length using Nat.strong_induction_on generalizing outer done pos cs with
  | _ n ih =>
  subst hn
  cases cs with
  | nil =>
      have hend : pos = source.chars.length := by
        have := List.drop_eq_nil_iff.1 hrest
        omega
      cases outer with
      | nil =>
          rw [readFrom, Except.ok.injEq] at h
          rw [← h, ← hend]
          exact hlevels
      | cons b outer => simp [readFrom] at h
  | cons c cs =>
      obtain ⟨htail, hnext, hget⟩ := drop_succ_of_drop hrest
      by_cases hc : outer.head?.any (·.closing == c) = true
      · -- the innermost block ends
        obtain ⟨b, outer, rfl⟩ : ∃ b rest, outer = b :: rest := by
          cases outer with
          | nil => simp at hc
          | cons b rest => exact ⟨b, rest, rfl⟩
        obtain rfl : b.closing = c := by simpa using hc
        rw [readFrom_close] at h
        exact ih _ (by simp) h hnext htail (hlevels.close hget) rfl
      · rw [Bool.not_eq_true] at hc
        rw [readFrom_other done pos cs hc] at h
        split at h
        · simp at h
        · rename_i hopen
          rw [Bool.not_eq_true] at hopen
          split at h
          · simp at h
          · -- a block begins
            rename_i closing hfound
            exact ih _ (by simp) h hnext htail
              ⟨.nil _, ⟨hrest, cs, rfl, hopen, hfound⟩, hlevels⟩ rfl
          · -- a rule reads some characters
            rename_i len classifier hfound
            obtain ⟨-, hlenpos, hlen⟩ := RuleSet.match?_reads hfound
            obtain ⟨hafter, hbound⟩ := drop_add_of_drop hrest hlenpos hlen
            have hshort : (cs.drop (len - 1)).length < (c :: cs).length := by
              rw [List.length_drop, List.length_cons]
              omega
            refine ih _ hshort h hbound hafter ?_ rfl
            split
            · rename_i kind hkind
              exact hlevels.read (.leaf hrest hopen hfound hkind (.nil _))
            · rename_i hkind
              exact hlevels.read (.skip hrest hopen hfound hkind (.nil _))

/-- What is read from a text is the document that owns a reading of the whole text. -/
theorem reads_of_read {d : Dialect} {text : String} {doc : TokenTree} (h : read d text = .ok doc) :
    ∃ ts, doc = document (Source.ofString text) ts ∧
      Reads d.language d.ruleSet (Source.ofString text) 0 (Source.ofString text).length ts := by
  simp only [read] at h
  cases hts : readFrom d.language d.ruleSet (Source.ofString text) [] [] 0
      (Source.ofString text).chars with
  | error e =>
      rw [hts] at h
      simp [Except.map] at h
  | ok ts =>
      rw [hts, Except.map, Except.ok.injEq] at h
      exact ⟨ts, h.symm, reads_of_readFrom hts (Nat.zero_le _) rfl (.nil 0)⟩

/-- A reading stays inside the text. -/
theorem Reads.le_length {p q : Nat} {ts : List TokenTree} (h : Reads l rules source p q ts)
    (hp : p ≤ source.chars.length) : q ≤ source.chars.length := by
  induction h with
  | nil p => exact hp
  | skip rest _ found _ _ ih =>
      obtain ⟨-, hpos, hlen⟩ := RuleSet.match?_reads found
      exact ih (drop_add_of_drop rest hpos hlen).2
  | leaf rest _ found _ _ ih =>
      obtain ⟨-, hpos, hlen⟩ := RuleSet.match?_reads found
      exact ih (drop_add_of_drop rest hpos hlen).2
  | block _ _ _ _ close _ _ ih => exact ih (List.getElem?_eq_some_iff.1 close).1

/-! ## Readings are answered -/

/-- The bracket that ends an opened block is a closing one. -/
theorem isCloser_of_match? {d : Dialect} {c closing : Char} {cs : List Char}
    (h : d.ruleSet.match? c cs = some (.opens closing)) : d.ruleSet.isCloser closing = true := by
  obtain ⟨r, hr, hrec⟩ := RuleSet.match?_opens h
  refine List.contains_iff_mem.2 (List.mem_filterMap.2 ⟨r, hr, ?_⟩)
  rw [Rule.closer?, hrec]

/-- The walk takes up the trees of a stretch that can be read, whatever blocks are open. -/
theorem readFrom_of_reads {d : Dialect} {p q : Nat} {ts : List TokenTree}
    (h : Reads d.language d.ruleSet source p q ts) {outer : List OpenBlock}
    (houter : outer.head?.all (d.ruleSet.isCloser ·.closing) = true) (done : List TokenTree) :
    readFrom d.language d.ruleSet source outer done p (source.chars.drop p) =
      readFrom d.language d.ruleSet source outer (ts.reverse ++ done) q
        (source.chars.drop q) := by
  have hother : ∀ {outer : List OpenBlock} {c : Char},
      outer.head?.all (d.ruleSet.isCloser ·.closing) = true → d.ruleSet.isCloser c = false →
        outer.head?.any (·.closing == c) = false := by
    intro outer c houter hc
    cases outer with
    | nil => rfl
    | cons b outer =>
        refine beq_eq_false_iff_ne.2 fun hclosing => ?_
        have : d.ruleSet.isCloser b.closing = true := houter
        rw [hclosing, hc] at this
        cases this
  induction h generalizing outer done with
  | nil p => rfl
  | @skip p q len c cs classifier ts rest hopen found kind tail ih =>
      obtain ⟨-, hpos, hlen⟩ := RuleSet.match?_reads found
      rw [rest, readFrom_other done p cs (hother houter hopen), if_neg (by simp [hopen]), found]
      simp only [kind]
      rw [← (drop_add_of_drop rest hpos hlen).1]
      exact ih houter done
  | @leaf p q len c cs classifier kind ts rest hopen found hkind tail ih =>
      obtain ⟨-, hpos, hlen⟩ := RuleSet.match?_reads found
      rw [rest, readFrom_other done p cs (hother houter hopen), if_neg (by simp [hopen]), found]
      simp only [hkind]
      rw [← (drop_add_of_drop rest hpos hlen).1, ih houter, List.reverse_cons, List.append_assoc]
      rfl
  | @block p m q c closing cs inner ts rest hopen found inside close tail ihinside ih =>
      have hclose : source.chars.drop m = closing :: source.chars.drop (m + 1) := by
        obtain ⟨hm, hget⟩ := List.getElem?_eq_some_iff.1 close
        rw [List.drop_eq_getElem_cons hm, hget]
      rw [rest, readFrom_other done p cs (hother houter hopen), if_neg (by simp [hopen]), found]
      dsimp only
      rw [← (drop_succ_of_drop rest).1]
      -- the new block is the innermost one until its closing bracket
      let b : OpenBlock := ⟨c, closing, p, c :: source.chars.drop (p + 1), done⟩
      have hb : (b :: outer).head?.all (d.ruleSet.isCloser ·.closing) = true :=
        isCloser_of_match? found
      rw [ihinside hb, hclose, readFrom_close b, ih houter]
      simp [b, OpenBlock.tree, (drop_succ_of_drop rest).1]

/-- A reading of the whole text is what is read from it. -/
theorem read_of_reads {d : Dialect} {text : String} {ts : List TokenTree}
    (h : Reads d.language d.ruleSet (Source.ofString text) 0 (Source.ofString text).chars.length
      ts) : read d text = .ok (document (Source.ofString text) ts) := by
  have hread := readFrom_of_reads h (rfl : ([] : List OpenBlock).head?.all _ = true) []
  rw [List.drop_zero, List.drop_length, List.append_nil] at hread
  simp only [read, hread, readFrom, List.reverse_reverse]
  rfl

/-- A text that is read, with a property of its tree, by evaluation. -/
theorem exists_read_of_any (d : Dialect) (text : String) (f : TokenTree → Bool)
    (h : (read d text).toOption.any f = true) :
    ∃ document, read d text = .ok document ∧ f document = true := by
  obtain ⟨document, hread, hf⟩ := (Option.any_eq_true _ _).1 h
  exact ⟨document, eq_ok_of_toOption hread, hf⟩

end TokenTree

end Outline
