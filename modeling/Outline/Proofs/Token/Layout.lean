import Outline.Proofs.Token.Reading

/-!
# Where tokens lie in the text

The layout of the trees that a stretch of text reads as.  All statements are proved by induction
on `TokenTree.Reads`.

* `Reads.within` — every token of a reading lies inside the stretch that is read.
* `Reads.ordered` — siblings follow each other without sharing a character.
* `Reads.sound` — every token is not empty and carries the text at its place; only blocks own
  tokens, and these lie between the two brackets of one bracket pair.
* `Reads.owned` — every character of the stretch belongs to exactly one token or is discarded.
-/

namespace Outline

/-! ## Owners of characters -/

theorem Span.contains_iff {s t : Span} :
    s.contains t = true ↔ s.offset ≤ t.offset ∧ t.stop ≤ s.stop := by
  rw [Span.contains, Bool.and_eq_true, decide_eq_true_eq, decide_eq_true_eq]

namespace Token

/-- Whether the character at the offset `i` belongs to the token itself.  All characters of a leaf
belong to it, of a block only the two brackets, and none of the document. -/
def owns (t : Token) (i : Nat) : Bool :=
  match t.kind with
  | .document => false
  | .block => i == t.span.offset || i + 1 == t.span.stop
  | _ => decide (t.span.offset ≤ i) && decide (i < t.span.stop)

theorem owns_of_leaf {t : Token} (h : t.kind.isCompound = false) (i : Nat) :
    t.owns i = (decide (t.span.offset ≤ i) && decide (i < t.span.stop)) := by
  unfold owns
  split
  · rename_i hk; rw [hk] at h; exact absurd h (by decide)
  · rename_i hk; rw [hk] at h; exact absurd h (by decide)
  · rfl

/-- A block from `p` to `m` owns its two brackets. -/
theorem owns_block {source : Source} {p m : Nat} {text : String} (h : p ≤ m) (i : Nat) :
    owns ⟨.block, source.span p (m + 1 - p), text⟩ i = (i == p || i == m) := by
  simp only [owns, Source.span, Span.stop]
  congr 1
  rw [Bool.eq_iff_iff, beq_iff_eq, beq_iff_eq]
  omega

/-- A token that is not empty owns no character outside its span. -/
theorem owns_eq_false {t : Token} (hlen : 0 < t.span.len) {i : Nat}
    (hi : i < t.span.offset ∨ t.span.stop ≤ i) : t.owns i = false := by
  unfold owns Span.stop at *
  split
  · rfl
  · rw [Bool.or_eq_false_iff, beq_eq_false_iff_ne, beq_eq_false_iff_ne]
    omega
  · rw [Bool.and_eq_false_iff, decide_eq_false_iff_not, decide_eq_false_iff_not]
    omega

end Token

namespace Rose

variable {α : Type}

theorem mem_subtreesAll_of_mem {t : Rose α} {ts : List (Rose α)} (h : t ∈ ts) :
    t ∈ subtreesAll ts := by
  induction ts with
  | nil => simp at h
  | cons u us ih =>
      rw [subtreesAll_cons, List.mem_append]
      rcases List.mem_cons.1 h with rfl | h
      · cases t with
        | node a below => exact Or.inl (by simp)
      · exact Or.inr (ih h)

mutual

theorem mem_subtrees_of_mem_children {c x t : Rose α} (hx : x ∈ t.subtrees)
    (hc : c ∈ x.children) : c ∈ t.subtrees := by
  cases t with
  | node a ts =>
      rw [subtrees_node] at hx ⊢
      rcases List.mem_cons.1 hx with rfl | hx
      · exact List.mem_cons_of_mem _ (Rose.mem_subtreesAll_of_mem hc)
      · exact List.mem_cons_of_mem _ (mem_subtreesAll_of_mem_children hx hc)

theorem mem_subtreesAll_of_mem_children {c x : Rose α} {ts : List (Rose α)}
    (hx : x ∈ subtreesAll ts) (hc : c ∈ x.children) : c ∈ subtreesAll ts := by
  cases ts with
  | nil => simp at hx
  | cons t ts =>
      rw [subtreesAll_cons, List.mem_append] at hx ⊢
      rcases hx with hx | hx
      · exact Or.inl (mem_subtrees_of_mem_children hx hc)
      · exact Or.inr (mem_subtreesAll_of_mem_children hx hc)

end

mutual

/-- The trees below one of the trees come in one run, right behind it. -/
theorem subtrees_sublist_subtrees {x t : Rose α} (hx : x ∈ t.subtrees) :
    x.subtrees.Sublist t.subtrees := by
  cases t with
  | node a ts =>
      rw [subtrees_node] at hx ⊢
      rcases List.mem_cons.1 hx with rfl | hx
      · exact subtrees_node a ts ▸ List.Sublist.refl _
      · exact (subtrees_sublist_subtreesAll hx).cons _

theorem subtrees_sublist_subtreesAll {x : Rose α} {ts : List (Rose α)}
    (hx : x ∈ subtreesAll ts) : x.subtrees.Sublist (subtreesAll ts) := by
  cases ts with
  | nil => simp at hx
  | cons t ts =>
      rw [subtreesAll_cons, List.mem_append] at hx
      rw [subtreesAll_cons]
      rcases hx with hx | hx
      · exact (subtrees_sublist_subtrees hx).trans (List.sublist_append_left _ _)
      · exact (subtrees_sublist_subtreesAll hx).trans (List.sublist_append_right _ _)

end

end Rose

namespace TokenTree

open Rose (subtreesAll)

/-- Whether the character at `i` is left out as white space, or as part of a directive.  A
directive starts with a number sign at or after `start` and goes on to the end of the line; no
token of the list owns any of it. -/
def Discarded (l : Language) (source : Source) (start : Nat) (tokens : List TokenTree) (i : Nat) :
    Prop :=
  (∃ c, source.chars[i]? = some c ∧ Text.isBlank c = true) ∨
    l = .csharp ∧ ∃ j, start ≤ j ∧ j ≤ i ∧ source.chars[j]? = some '#' ∧ ∀ k, j ≤ k → k ≤ i →
      (∃ c, source.chars[k]? = some c ∧ Text.isLineEnd c = false) ∧
        ∀ x ∈ tokens, x.value.owns k = false

/-- What holds of every token below the document. -/
structure Sound (d : Dialect) (source : Source) (x : TokenTree) : Prop where
  /-- Its positions are those of its offset and its length. -/
  placed : x.span = source.span x.span.offset x.span.len
  /-- It is not empty. -/
  nonempty : 0 < x.span.len
  /-- Its text is the slice of the source at its span. -/
  text : source.slice? x.span.offset x.span.len = some x.text
  /-- The document is not below itself. -/
  kind : x.kind ≠ .document
  /-- Only a block owns tokens. -/
  leaf : x.kind ≠ .block → x.children = []
  /-- A block starts and ends with the brackets of one rule. -/
  brackets : x.kind = .block → ∃ r ∈ d.language.rules d.maxDepth, ∃ opening closing,
    r.recognizer = .block opening closing ∧ x.text.toList.head? = some opening ∧
      x.text.toList.getLast? = some closing
  /-- Tokens next to each other follow each other. -/
  ordered : x.children.Pairwise (fun a b : TokenTree => a.span.stop ≤ b.span.offset)
  /-- The tokens inside lie inside. -/
  contained : ∀ c : TokenTree, c ∈ x.children → x.span.contains c.span = true

/-! ## The rules of a language -/

/-- The kinds of leaves: no rule but that of a bracket pair makes a block or a document. -/
theorem isCompound_of_reads {d : Dialect} {c : Char} {cs : List Char} {n : Nat}
    {classifier : Classifier} (h : d.ruleSet.match? c cs = some (.reads n classifier))
    {text : String} {kind : TokenKind} (hkind : classifier.kind? d.language text = some kind) :
    kind.isCompound = false := by
  obtain ⟨⟨r, hr, hscan, rfl⟩, -, -⟩ := RuleSet.match?_reads h
  have hleaf : ∀ opening closing, r.recognizer ≠ .block opening closing := by
    intro opening closing hblock
    rw [hblock] at hscan
    simp [Recognizer.scan, Recognizer.read] at hscan
  have hclass : r.classifier = .keywordOrIdentifier ∨ r.classifier = .discard ∨
      ∃ k, r.classifier = .ofKind k ∧ k.isCompound = false := by
    change r ∈ d.language.rules d.maxDepth at hr
    cases hl : d.language <;> rw [hl] at hr <;>
      simp only [Language.rules, CSharp.rules, Java.rules, TypeScript.rules, List.mem_cons,
        List.not_mem_nil, or_false] at hr <;>
      rcases hr with rfl | rfl | rfl | rfl | rfl | rfl | rfl | rfl | rfl | rfl | rfl | rfl <;>
      simp_all [TokenKind.isCompound]
  rcases hclass with hc | hc | ⟨k, hc, hk⟩
  · rw [hc, Classifier.kind?, Option.some.injEq] at hkind
    rw [← hkind]
    split <;> rfl
  · rw [hc] at hkind
    simp [Classifier.kind?] at hkind
  · rw [hc, Classifier.kind?, Option.some.injEq] at hkind
    rwa [← hkind]

/-- Only white space and directives are discarded. -/
theorem recognizer_of_discard {d : Dialect} {r : Rule} (h : r ∈ d.ruleSet.rules)
    (hc : r.classifier = .discard) :
    r.recognizer = .whitespace ∨ d.language = .csharp ∧ r.recognizer = .directive '#' := by
  change r ∈ d.language.rules d.maxDepth at h
  cases hl : d.language <;> rw [hl] at h <;>
    simp only [Language.rules, CSharp.rules, Java.rules, TypeScript.rules, List.mem_cons,
      List.not_mem_nil, or_false] at h <;>
    rcases h with rfl | rfl | rfl | rfl | rfl | rfl | rfl | rfl | rfl | rfl | rfl | rfl <;>
    simp_all

/-! ## Places -/

namespace Reads

variable {d : Dialect} {source : Source} {p q : Nat} {ts : List TokenTree}

/-- Every token of a reading lies inside the stretch and is not empty. -/
theorem within (h : Reads d.language d.ruleSet source p q ts) {x : TokenTree}
    (hx : x ∈ subtreesAll ts) : p ≤ x.span.offset ∧ 0 < x.span.len ∧ x.span.stop ≤ q := by
  induction h with
  | nil p => simp at hx
  | skip _ _ found _ tail ih =>
      obtain ⟨-, hpos, -⟩ := RuleSet.match?_reads found
      have := ih hx
      omega
  | @leaf p q len c cs classifier kind ts rest _ found _ tail ih =>
      obtain ⟨-, hpos, -⟩ := RuleSet.match?_reads found
      have hle := tail.le
      simp only [Rose.subtreesAll_cons, TokenTree.leaf, Rose.subtrees_node, Rose.subtreesAll_nil,
        List.cons_append, List.nil_append, List.mem_cons] at hx
      rcases hx with rfl | hx
      · simp only [TokenTree.span, Rose.value_node, Source.span, Span.stop]
        omega
      · have := ih hx
        omega
  | @block p m q c closing cs inner ts rest _ found inside close tail ihinside ih =>
      have hin := inside.le
      have hle := tail.le
      simp only [Rose.subtreesAll_cons, Rose.subtrees_node, List.cons_append, List.mem_cons,
        List.mem_append] at hx
      rcases hx with rfl | hx | hx
      · simp only [TokenTree.span, Rose.value_node, Source.span, Span.stop]
        omega
      · have := ihinside hx
        omega
      · have := ih hx
        omega

/-- The trees of a reading follow each other. -/
theorem ordered (h : Reads d.language d.ruleSet source p q ts) :
    ts.Pairwise (fun a b : TokenTree => a.span.stop ≤ b.span.offset) := by
  induction h with
  | nil p => exact .nil
  | skip _ _ _ _ _ ih => exact ih
  | leaf _ _ _ _ tail ih =>
      refine .cons ?_ ih
      intro b hb
      exact (tail.within (Rose.mem_subtreesAll_of_mem hb)).1
  | @block p m q c closing cs inner ts _ _ _ inside _ tail _ ih =>
      refine .cons ?_ ih
      intro b hb
      have hb := (tail.within (Rose.mem_subtreesAll_of_mem hb)).1
      have hle := inside.le
      simp only [TokenTree.span, Rose.value_node, Source.span, Span.stop] at hb ⊢
      omega

/-- From the top down and from left to right, the trees of a reading start further and further
behind. -/
theorem offsets (h : Reads d.language d.ruleSet source p q ts) :
    (subtreesAll ts).Pairwise (fun a b : TokenTree => a.span.offset < b.span.offset) := by
  induction h with
  | nil p => simp
  | skip _ _ _ _ _ ih => exact ih
  | leaf _ _ found _ tail ih =>
      obtain ⟨-, hpos, -⟩ := RuleSet.match?_reads found
      rw [Rose.subtreesAll_cons, TokenTree.leaf, Rose.subtrees_node, Rose.subtreesAll_nil]
      refine .cons ?_ ih
      intro b hb
      have hb := (tail.within hb).1
      simp only [TokenTree.span, Rose.value_node, Source.span] at hb ⊢
      omega
  | @block p m q c closing cs inner ts _ _ _ inside _ tail ihinside ih =>
      have hle := inside.le
      rw [Rose.subtreesAll_cons, Rose.subtrees_node, List.cons_append]
      refine .cons ?_ (List.pairwise_append.2 ⟨ihinside, ih, ?_⟩)
      · intro b hb
        have hb : p + 1 ≤ b.span.offset := by
          rcases List.mem_append.1 hb with hb | hb
          · exact (inside.within hb).1
          · have := (tail.within hb).1
            omega
        simp only [TokenTree.span, Rose.value_node, Source.span] at hb ⊢
        omega
      · intro a ha b hb
        have ha := inside.within ha
        have hb := (tail.within hb).1
        simp only [Span.stop] at ha
        omega

/-! ## Texts and brackets -/

theorem slice?_of_drop {source : Source} (hsource : source.length = source.chars.length)
    {cs : List Char} {p len : Nat} (hrest : source.chars.drop p = cs)
    (hlen : p + len ≤ source.chars.length) :
    source.slice? p len = some (String.ofList (cs.take len)) := by
  rw [Source.slice?, if_pos (by omega), hrest]

theorem getLast?_take_of_getElem? {xs : List Char} {c : Char} {n : Nat} (h : xs[n]? = some c) :
    (xs.take (n + 1)).getLast? = some c := by
  have hn := (List.getElem?_eq_some_iff.1 h).1
  rw [List.getLast?_eq_getElem?, List.length_take, Nat.min_eq_left (by omega),
    Nat.add_sub_cancel, List.getElem?_take_of_lt (Nat.lt_succ_self n), h]

/-- A leaf of a reading is sound. -/
theorem sound_leaf (hsource : source.length = source.chars.length) {c : Char} {cs : List Char}
    {len : Nat} {classifier : Classifier} {kind : TokenKind}
    (rest : source.chars.drop p = c :: cs)
    (found : d.ruleSet.match? c cs = some (.reads len classifier))
    (hkind : classifier.kind? d.language (String.ofList ((c :: cs).take len)) = some kind) :
    Sound d source
      (TokenTree.leaf ⟨kind, source.span p len, String.ofList ((c :: cs).take len)⟩) := by
  obtain ⟨-, hpos, hlen⟩ := RuleSet.match?_reads found
  have hleaf := isCompound_of_reads found hkind
  exact {
    placed := rfl
    nonempty := hpos
    text := slice?_of_drop hsource rest (drop_add_of_drop rest hpos hlen).2
    kind := by rintro (rfl : kind = .document); exact absurd hleaf (by decide)
    leaf := fun _ => rfl
    brackets := by rintro (rfl : kind = .block); exact absurd hleaf (by decide)
    ordered := .nil
    contained := by intro c hc; simp [TokenTree.leaf] at hc }

/-- A block of a reading is sound. -/
theorem sound_block (hsource : source.length = source.chars.length) {m : Nat} {c closing : Char}
    {cs : List Char} {inner : List TokenTree} (rest : source.chars.drop p = c :: cs)
    (found : d.ruleSet.match? c cs = some (.opens closing))
    (inside : Reads d.language d.ruleSet source (p + 1) m inner)
    (close : source.chars[m]? = some closing) :
    Sound d source (.node ⟨.block, source.span p (m + 1 - p),
      String.ofList ((c :: cs).take (m + 1 - p))⟩ inner) := by
  have hin := inside.le
  have hm := (List.getElem?_eq_some_iff.1 close).1
  obtain ⟨r, hr, hrec⟩ := RuleSet.match?_opens found
  have hend : p + (m + 1 - p) ≤ source.chars.length := by omega
  have hlen : m + 1 - p = (m - p) + 1 := by omega
  have hlast : (c :: cs)[m - p]? = some closing := by
    rw [← rest, List.getElem?_drop, ← close]
    congr 1
    omega
  exact {
    placed := rfl
    nonempty := by
      simp only [TokenTree.span, Rose.value_node, Source.span]
      omega
    text := slice?_of_drop hsource rest hend
    kind := by rintro (hdoc : TokenKind.block = .document); exact absurd hdoc (by decide)
    leaf := by intro hleaf; exact absurd rfl hleaf
    brackets := by
      intro _
      refine ⟨r, hr, c, closing, hrec, ?_, ?_⟩
      · rw [TokenTree.text, Rose.value_node, String.toList_ofList, hlen, List.take_succ_cons,
          List.head?_cons]
      · rw [TokenTree.text, Rose.value_node, String.toList_ofList, hlen]
        exact getLast?_take_of_getElem? hlast
    ordered := inside.ordered
    contained := by
      intro t ht
      obtain ⟨hlow, -, hhigh⟩ := inside.within (Rose.mem_subtreesAll_of_mem ht)
      simp only [TokenTree.span, Span.stop] at hlow hhigh
      refine Span.contains_iff.2 ⟨?_, ?_⟩
      · simp only [TokenTree.span, Rose.value_node, Source.span]
        omega
      · simp only [TokenTree.span, Rose.value_node, Source.span, Span.stop]
        omega }

/-- Every token of a reading is sound. -/
theorem sound (hsource : source.length = source.chars.length)
    (h : Reads d.language d.ruleSet source p q ts) {x : TokenTree} (hx : x ∈ subtreesAll ts) :
    Sound d source x := by
  induction h with
  | nil p => simp at hx
  | skip _ _ _ _ _ ih => exact ih hx
  | leaf rest _ found hkind _ ih =>
      simp only [Rose.subtreesAll_cons, TokenTree.leaf, Rose.subtrees_node, Rose.subtreesAll_nil,
        List.cons_append, List.nil_append, List.mem_cons] at hx
      rcases hx with rfl | hx
      · exact sound_leaf hsource rest found hkind
      · exact ih hx
  | block rest _ found inside close _ ihinside ih =>
      simp only [Rose.subtreesAll_cons, Rose.subtrees_node, List.cons_append, List.mem_cons,
        List.mem_append] at hx
      rcases hx with rfl | hx | hx
      · exact sound_block hsource rest found inside close
      · exact ihinside hx
      · exact ih hx

/-! ## Owners -/

/-- A reading owns nothing outside its stretch. -/
theorem owns_outside (h : Reads d.language d.ruleSet source p q ts) {i : Nat}
    (hi : i < p ∨ q ≤ i) {x : TokenTree} (hx : x ∈ subtreesAll ts) : x.value.owns i = false := by
  obtain ⟨hlow, hpos, hhigh⟩ := h.within hx
  refine Token.owns_eq_false hpos ?_
  simp only [TokenTree.span] at hlow hhigh
  omega

theorem countP_outside (h : Reads d.language d.ruleSet source p q ts) {i : Nat}
    (hi : i < p ∨ q ≤ i) : (subtreesAll ts).countP (fun x => x.value.owns i) = 0 := by
  rw [List.countP_eq_zero]
  intro x hx
  rw [h.owns_outside hi hx]
  exact Bool.false_ne_true

theorem exists_getElem?_of_lt_takeWhile {xs : List Char} {f : Char → Bool} {n : Nat}
    (h : n < (xs.takeWhile f).length) : ∃ c, xs[n]? = some c ∧ f c = true := by
  have hstart := List.takeWhile_prefix (l := xs) f
  refine ⟨(xs.takeWhile f)[n], ?_, List.mem_takeWhile_imp (List.getElem_mem h)⟩
  rw [hstart.getElem h, List.getElem?_eq_getElem]

/-- The characters that a discarding rule reads are blank or a directive. -/
theorem discarded_of_skip {c : Char} {cs : List Char} {len : Nat} {classifier : Classifier}
    (rest : source.chars.drop p = c :: cs)
    (found : d.ruleSet.match? c cs = some (.reads len classifier))
    (hkind : classifier.kind? d.language (String.ofList ((c :: cs).take len)) = none) {i : Nat}
    (hp : p ≤ i) (hi : i < p + len) {tokens : List TokenTree}
    (hfree : ∀ k, p ≤ k → k ≤ i → ∀ x ∈ tokens, x.value.owns k = false) :
    Discarded d.language source p tokens i := by
  obtain ⟨⟨r, hr, hscan, rfl⟩, -, -⟩ := RuleSet.match?_reads found
  have hdiscard : r.classifier = .discard := by
    cases hc : r.classifier with
    | discard => rfl
    | ofKind k => rw [hc] at hkind; simp [Classifier.kind?] at hkind
    | keywordOrIdentifier => rw [hc] at hkind; simp [Classifier.kind?] at hkind
  obtain ⟨hread, -⟩ := Option.filter_eq_some_iff.1 hscan
  have hchar : ∀ k, p ≤ k → source.chars[k]? = (c :: cs)[k - p]? := by
    intro k hk
    rw [← rest, List.getElem?_drop, Nat.add_sub_cancel' hk]
  rcases recognizer_of_discard hr hdiscard with hrec | ⟨hl, hrec⟩
  · left
    rw [hrec, Recognizer.read, Option.some.injEq] at hread
    rw [hchar i hp]
    exact exists_getElem?_of_lt_takeWhile (by omega)
  · right
    rw [hrec, Recognizer.read] at hread
    obtain ⟨hmark, hread⟩ := Option.ite_none_right_eq_some.1 hread
    rw [Option.some.injEq, Recognizer.restOfLine] at hread
    refine ⟨hl, p, le_rfl, hp, ?_, ?_⟩
    · rw [hchar p le_rfl, Nat.sub_self, ← List.head?_eq_getElem?]
      exact beq_iff_eq.1 hmark
    · intro k hpk hki
      have hbefore : k - p < ((c :: cs).takeWhile fun c => !Text.isLineEnd c).length := by omega
      obtain ⟨a, ha, hend⟩ := exists_getElem?_of_lt_takeWhile hbefore
      exact ⟨⟨a, by rw [hchar k hpk, ha], by simpa using hend⟩, hfree k hpk hki⟩

end Reads

theorem Discarded.extend {l : Language} {source : Source} {start start' i : Nat}
    {tokens tokens' : List TokenTree} (h : Discarded l source start' tokens' i)
    (hstart : start ≤ start')
    (hnew : ∀ k, start' ≤ k → k ≤ i → (∀ x ∈ tokens', x.value.owns k = false) →
      ∀ x ∈ tokens, x.value.owns k = false) : Discarded l source start tokens i := by
  rcases h with hblank | ⟨hl, j, hj, hji, hmark, hline⟩
  · exact Or.inl hblank
  · refine Or.inr ⟨hl, j, by omega, hji, hmark, ?_⟩
    intro k hjk hki
    obtain ⟨hend, hfree⟩ := hline k hjk hki
    exact ⟨hend, hnew k (by omega) hki hfree⟩

/-- The character at `i` belongs to exactly one of the tokens, or to none and is discarded. -/
def Covered (l : Language) (source : Source) (start : Nat) (tokens : List TokenTree) (i : Nat) :
    Prop :=
  tokens.countP (fun x => x.value.owns i) = 1 ∨
    tokens.countP (fun x => x.value.owns i) = 0 ∧ Discarded l source start tokens i

theorem countP_owns_eq_zero {xs : List TokenTree} {i : Nat}
    (h : ∀ x ∈ xs, x.value.owns i = false) : xs.countP (fun x => x.value.owns i) = 0 := by
  rw [List.countP_eq_zero]
  intro x hx
  rw [h x hx]
  exact Bool.false_ne_true

/-- What covers a character still does among more tokens, if none of them owns it or a character in
front of it. -/
theorem Covered.among {l : Language} {source : Source} {start start' i : Nat}
    {part : List TokenTree} (h : Covered l source start' part i) (front back : List TokenTree)
    (hstart : start ≤ start') (hi : start' ≤ i)
    (hfront : ∀ k, start' ≤ k → k ≤ i → ∀ x ∈ front, x.value.owns k = false)
    (hback : ∀ k, start' ≤ k → k ≤ i → ∀ x ∈ back, x.value.owns k = false) :
    Covered l source start (front ++ (part ++ back)) i := by
  have hcount : (front ++ (part ++ back)).countP (fun x => x.value.owns i) =
      part.countP (fun x => x.value.owns i) := by
    rw [List.countP_append, List.countP_append, countP_owns_eq_zero (hfront i hi le_rfl),
      countP_owns_eq_zero (hback i hi le_rfl), Nat.zero_add, Nat.add_zero]
  rcases h with hone | ⟨hzero, hdis⟩
  · exact Or.inl (hcount.trans hone)
  · refine Or.inr ⟨hcount.trans hzero, hdis.extend hstart fun k hk hki hpart x hx => ?_⟩
    rcases List.mem_append.1 hx with hx | hx
    · exact hfront k hk hki x hx
    · rcases List.mem_append.1 hx with hx | hx
      · exact hpart x hx
      · exact hback k hk hki x hx

namespace Reads

variable {d : Dialect} {source : Source} {p q : Nat} {ts : List TokenTree}

/-- Every character of the stretch that is read is covered. -/
theorem covered (h : Reads d.language d.ruleSet source p q ts) {i : Nat} (hp : p ≤ i)
    (hq : i < q) : Covered d.language source p (subtreesAll ts) i := by
  induction h with
  | nil p => omega
  | @skip p q len c cs classifier ts rest hopen found hkind tail ih =>
      by_cases hi : i < p + len
      · refine Or.inr ⟨tail.countP_outside (Or.inl hi), ?_⟩
        exact discarded_of_skip rest found hkind hp hi
          (fun k _ hk x hx => tail.owns_outside (Or.inl (by omega)) hx)
      · simpa using (ih (by omega) hq).among [] [] (Nat.le_add_right p len) (by omega)
          (by simp) (by simp)
  | @leaf p q len c cs classifier kind ts rest hopen found hkind tail ih =>
      obtain ⟨-, hpos, -⟩ := RuleSet.match?_reads found
      rw [Rose.subtreesAll_cons, TokenTree.leaf, Rose.subtrees_node, Rose.subtreesAll_nil]
      by_cases hi : i < p + len
      · left
        rw [List.countP_append, tail.countP_outside (Or.inl hi), List.countP_singleton,
          Rose.value_node, Token.owns_of_leaf (isCompound_of_reads found hkind)]
        exact if_pos (Bool.and_eq_true_iff.2 ⟨decide_eq_true hp, decide_eq_true hi⟩)
      · have hrest := (ih (by omega) hq).among
          [.node ⟨kind, source.span p len, String.ofList ((c :: cs).take len)⟩ []] []
          (Nat.le_add_right p len) (by omega) ?_ (by simp)
        · rwa [List.append_nil] at hrest
        · intro k hk _ x hx
          rw [List.mem_singleton.1 hx]
          exact Token.owns_eq_false hpos (Or.inr hk)
  | @block p m q c closing cs inner ts rest hopen found inside close tail ihinside ih =>
      have hin := inside.le
      have howns : ∀ i, Token.owns ⟨.block, source.span p (m + 1 - p),
          String.ofList ((c :: cs).take (m + 1 - p))⟩ i = (i == p || i == m) :=
        Token.owns_block (by omega)
      rw [Rose.subtreesAll_cons, Rose.subtrees_node]
      by_cases hedge : i = p ∨ i = m
      · -- a bracket of the block itself
        left
        rw [List.cons_append, List.countP_cons, List.countP_append, Rose.value_node, howns,
          inside.countP_outside (by omega), tail.countP_outside (by omega),
          if_pos (by rcases hedge with h | h <;> simp [h])]
      · by_cases hi : i < m
        · -- a character between the brackets
          refine (ihinside (by omega) hi).among [_] (subtreesAll ts) (Nat.le_succ p) (by omega)
            ?_ fun k _ hki x hx => tail.owns_outside (by omega) hx
          intro k hk hki x hx
          rw [List.mem_singleton.1 hx, Rose.value_node, howns, Bool.or_eq_false_iff,
            beq_eq_false_iff_ne, beq_eq_false_iff_ne]
          omega
        · -- a character behind the block
          have hfront : ∀ k, m + 1 ≤ k → k ≤ i →
              ∀ x ∈ .node ⟨.block, source.span p (m + 1 - p),
                  String.ofList ((c :: cs).take (m + 1 - p))⟩ inner :: subtreesAll inner,
                x.value.owns k = false := by
            intro k hk _ x hx
            rcases List.mem_cons.1 hx with rfl | hx
            · rw [Rose.value_node, howns, Bool.or_eq_false_iff, beq_eq_false_iff_ne,
                beq_eq_false_iff_ne]
              omega
            · exact inside.owns_outside (by omega) hx
          have hrest := (ih (by omega) hq).among _ [] (show p ≤ m + 1 by omega) (by omega) hfront
            (by simp)
          rwa [List.append_nil] at hrest

end Reads

end TokenTree

end Outline
