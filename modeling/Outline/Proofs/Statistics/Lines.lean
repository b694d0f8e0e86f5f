import Outline.Proofs.Text.Pieces
import Outline.Proofs.Token.Layout
import Outline.Statistics.Basic

/-!
# What the lines of a text hold

The tokens of a text tell what each of its lines holds: nothing but blanks, nothing but blanks and
comments, or code.  Blanks are what the reader of tokens skips, the byte order mark among them.
The counts of lines come from a scan of their own, which takes white space for blank but not the
byte order mark.

* `Line.ofText`, `Line.kind` — the lines of a text and what the tokens tell of them.
* `MarkedChar.lines_markFrom` — the scan finds the same lines, with the same comments.
* `Line.ofLine_eq_kind_iff` — it takes a line for what it is, unless the line is misread.
* `LineCounts.measure_eq_iff` — the counts are those of the tokens if and only if no line is
  misread.
-/

namespace Outline

/-! ## Lines -/

/-- A line of a text. -/
structure Line where
  /-- The offset of its first character. -/
  start : Nat
  /-- Its characters, without the line feed. -/
  chars : List Char

namespace Line

/-- The characters of a line with their offsets. -/
def places (line : Line) : List (Char × Nat) := line.chars.zipIdx line.start

/-- Leaves out the last piece of a text if it is empty. -/
def dropEmptyLast {α : Type} : List (List α) → List (List α)
  | [] => []
  | [p] => if p.isEmpty then [] else [p]
  | p :: q :: ps => p :: dropEmptyLast (q :: ps)

/-- The lines with the given characters, the first of which starts at the given offset. -/
def ofPieces (start : Nat) : List (List Char) → List Line
  | [] => []
  | p :: ps => ⟨start, p⟩ :: ofPieces (start + p.length + 1) ps

/-- The lines of a text, which is cut at line feeds.  A line feed at the end starts no line. -/
def ofText (cs : List Char) : List Line := ofPieces 0 (dropEmptyLast (Text.pieces '\n' cs))

end Line

/-- Whether the character at the offset `i` lies in a comment. -/
def TokenTree.isCommented (tree : TokenTree) (i : Nat) : Bool :=
  tree.subtrees.any fun x : TokenTree =>
    x.kind == .comment && (decide (x.span.offset ≤ i) && decide (i < x.span.stop))

namespace Line

/-- What the tokens tell of a line. -/
def kind (tree : TokenTree) (line : Line) : LineKind :=
  if line.chars.all Text.isBlank then .blank
  else if line.places.all fun c => Text.isBlank c.1 || tree.isCommented c.2 then .comment
  else .code

/-- A line without code that holds a byte order mark, either outside of comments or among nothing
but blanks. -/
def IsMisread (tree : TokenTree) (line : Line) : Prop :=
  (∀ c ∈ line.places, Text.isBlank c.1 = true ∨ tree.isCommented c.2 = true) ∧
    ∃ c ∈ line.places, c.1 = '\uFEFF' ∧
      (tree.isCommented c.2 = false ∨ ∀ b ∈ line.chars, Text.isBlank b = true)

instance (tree : TokenTree) (line : Line) : Decidable (line.IsMisread tree) :=
  decidable_of_iff
    ((∀ c ∈ line.places, Text.isBlank c.1 = true ∨ tree.isCommented c.2 = true) ∧
      ∃ c ∈ line.places, c.1 = '\uFEFF' ∧
        (tree.isCommented c.2 = false ∨ line.chars.all Text.isBlank = true))
    (by simp only [IsMisread, List.all_eq_true])

end Line

/-- The counts of a text with the given tokens. -/
def LineCounts.ofTokens (tree : TokenTree) (text : String) : LineCounts :=
  let kinds := (Line.ofText text.toList).map (Line.kind tree)
  { chars := text.toList.length, total := kinds.length, blank := kinds.count .blank,
    comment := kinds.count .comment }

/-! ## Comments in order -/

namespace Rose

variable {α : Type}

mutual

theorem map_snd_preorder (depth : Nat) (t : Rose α) :
    (t.preorder depth).map (·.2) = t.subtrees.map value := by
  cases t with
  | node a ts =>
      rw [preorder, subtrees_node, List.map_cons, List.map_cons,
        map_snd_preorderAll (depth + 1) ts]
      rfl

theorem map_snd_preorderAll (depth : Nat) (ts : List (Rose α)) :
    (preorderAll depth ts).map (·.2) = (subtreesAll ts).map value := by
  cases ts with
  | nil => simp [preorderAll]
  | cons t ts =>
      rw [preorderAll, subtreesAll_cons, List.map_append, List.map_append,
        map_snd_preorder depth t, map_snd_preorderAll depth ts]

end

theorem values_eq (t : Rose α) : t.values = t.subtrees.map value := map_snd_preorder 0 t

end Rose

namespace TokenTree

open Rose (subtreesAll)

/-- Whatever follows a token that is no block, it lies behind the token. -/
theorem Reads.leaves_ordered {d : Dialect} {source : Source} {p q : Nat} {ts : List TokenTree}
    (h : Reads d.language d.ruleSet source p q ts) :
    (subtreesAll ts).Pairwise fun a b : TokenTree =>
      a.kind ≠ .block → a.span.stop ≤ b.span.offset := by
  induction h with
  | nil p => simp
  | skip _ _ _ _ _ ih => exact ih
  | leaf _ _ _ _ tail ih =>
      rw [Rose.subtreesAll_cons, TokenTree.leaf, Rose.subtrees_node, Rose.subtreesAll_nil]
      exact .cons (fun b hb _ => (tail.within hb).1) ih
  | block _ _ _ inside _ tail ihinside ih =>
      rw [Rose.subtreesAll_cons, Rose.subtrees_node, List.cons_append]
      refine .cons (fun b _ hblock => absurd rfl hblock) (List.pairwise_append.2 ⟨ihinside, ih, ?_⟩)
      intro a ha b hb _
      have ha := (inside.within ha).2.2
      have hb := (tail.within hb).1
      omega

theorem commentSpans_eq (tree : TokenTree) :
    tree.commentSpans =
      (tree.subtrees.filter fun x : TokenTree => x.kind == .comment).map fun x => x.span := by
  rw [commentSpans, Rose.values_eq, List.filter_map, List.map_map]
  rfl

/-- Spans that are not empty and follow each other. -/
structure InOrder (spans : List Span) : Prop where
  /-- None of them is empty. -/
  nonempty : ∀ s ∈ spans, s.offset < s.stop
  /-- They follow each other. -/
  ordered : spans.Pairwise fun a b => a.stop ≤ b.offset

/-- The comments of a text follow each other. -/
theorem inOrder_commentSpans {d : Dialect} {text : String} {tree : TokenTree}
    (h : read d text = .ok tree) : InOrder tree.commentSpans := by
  obtain ⟨ts, rfl, hts⟩ := reads_of_read h
  have hspans : (document (Source.ofString text) ts).commentSpans =
      ((subtreesAll ts).filter fun x : TokenTree => x.kind == .comment).map fun x => x.span := by
    rw [commentSpans_eq, document, Rose.subtrees_node, List.filter_cons_of_neg Bool.false_ne_true]
  rw [hspans]
  constructor
  · intro s hs
    obtain ⟨x, hx, rfl⟩ := List.mem_map.1 hs
    have hlen := (hts.within (List.mem_filter.1 hx).1).2.1
    rw [Span.stop]
    omega
  · rw [List.pairwise_map, List.pairwise_filter]
    refine hts.leaves_ordered.imp fun {a b} hab ha _ => hab ?_
    rw [beq_iff_eq.1 ha]
    decide

end TokenTree

/-! ## The scan -/

namespace MarkedChar

open TokenTree (InOrder)

/-- Whether the offset `i` lies in one of the spans. -/
def covers (spans : List Span) (i : Nat) : Bool :=
  spans.any fun s => decide (s.offset ≤ i) && decide (i < s.stop)

variable {spans : List Span}

theorem covers_commentSpans (tree : TokenTree) (i : Nat) :
    covers tree.commentSpans i = tree.isCommented i := by
  rw [covers, TokenTree.commentSpans_eq, List.any_map, List.any_filter]
  rfl

theorem covers_eq_false_of_lt {i : Nat} (h : ∀ s ∈ spans, i < s.offset) :
    covers spans i = false := by
  rw [covers, List.any_eq_false]
  intro s hs
  have := h s hs
  simp only [Bool.and_eq_true, decide_eq_true_eq]
  omega

/-- Spans that have ended no longer count, and then only the first one may have begun. -/
theorem InOrder.dropWhile (h : InOrder spans) (i : Nat) :
    InOrder (spans.dropWhile (·.stop ≤ i)) ∧
      (spans.dropWhile (·.stop ≤ i)).head?.any (·.offset ≤ i) = covers spans i ∧
      ∀ k, i ≤ k → covers (spans.dropWhile (·.stop ≤ i)) k = covers spans k := by
  induction spans with
  | nil => exact ⟨h, rfl, fun _ _ => rfl⟩
  | cons s spans ih =>
      obtain ⟨hs, hspans⟩ := List.forall_mem_cons.1 h.nonempty
      obtain ⟨hbehind, hordered⟩ := List.pairwise_cons.1 h.ordered
      by_cases hstop : s.stop ≤ i
      · have hpast : ∀ k, i ≤ k → covers (s :: spans) k = covers spans k := by
          intro k hk
          have hnot : ¬ k < s.stop := by omega
          simp [covers, hnot]
        obtain ⟨hin, hhead, hrest⟩ := ih ⟨hspans, hordered⟩
        rw [List.dropWhile_cons_of_pos (by simpa using hstop)]
        exact ⟨hin, hhead.trans (hpast i le_rfl).symm,
          fun k hk => (hrest k hk).trans (hpast k hk).symm⟩
      · rw [List.dropWhile_cons_of_neg (by simpa using hstop)]
        refine ⟨h, ?_, fun _ _ => rfl⟩
        have hlater : covers spans i = false := covers_eq_false_of_lt fun t ht => by
          have := hbehind t ht
          omega
        have hi : i < s.stop := by omega
        rw [covers, List.any_cons, ← covers, hlater]
        simp [hi]

/-- The scan marks the characters that lie in one of the spans. -/
theorem markFrom_eq (h : InOrder spans) (i : Nat) (cs : List Char) :
    markFrom i spans cs = (cs.zipIdx i).map fun c => (c.1, covers spans c.2) := by
  induction cs generalizing i spans with
  | nil => rfl
  | cons c cs ih =>
      obtain ⟨hin, hhead, hrest⟩ := InOrder.dropWhile h i
      have htail : (cs.zipIdx (i + 1)).map (fun c => (c.1, covers (spans.dropWhile
          (·.stop ≤ i)) c.2)) = (cs.zipIdx (i + 1)).map fun c => (c.1, covers spans c.2) := by
        refine List.map_congr_left fun c hc => ?_
        have := List.le_snd_of_mem_zipIdx hc
        rw [hrest c.2 (by omega)]
      rw [markFrom, List.zipIdx_cons, List.map_cons, ih hin, htail]
      dsimp only
      rw [hhead]

/-- The pieces of a run of marked characters between the line feeds. -/
def pieces : List MarkedChar → List (List MarkedChar)
  | [] => [[]]
  | c :: cs => if c.1 == '\n' then [] :: pieces cs else (pieces cs).modifyHead (c :: ·)

theorem pieces_ne_nil (cs : List MarkedChar) : pieces cs ≠ [] := by
  induction cs with
  | nil => simp [pieces]
  | cons c cs ih =>
      rw [pieces]
      split
      · simp
      · simpa [List.modifyHead_eq_nil_iff] using ih

theorem linesFrom_eq (line cs : List MarkedChar) :
    linesFrom line cs = Line.dropEmptyLast ((pieces cs).modifyHead (line.reverse ++ ·)) := by
  induction cs generalizing line with
  | nil => simp [linesFrom, pieces, Line.dropEmptyLast]
  | cons c cs ih =>
      obtain ⟨p, ps, hps⟩ := List.exists_cons_of_ne_nil (pieces_ne_nil cs)
      rw [linesFrom, pieces, ih, ih, hps]
      split
      · simp [Line.dropEmptyLast]
      · simp

theorem lines_eq (cs : List MarkedChar) : lines cs = Line.dropEmptyLast (pieces cs) := by
  obtain ⟨p, ps, hps⟩ := List.exists_cons_of_ne_nil (pieces_ne_nil cs)
  rw [lines, linesFrom_eq, hps]
  rfl

end MarkedChar

namespace Line

open MarkedChar (covers)

theorem dropEmptyLast_ofPieces {α : Type} (f : Nat → List Char → List α)
    (hf : ∀ start p, (f start p).isEmpty = p.isEmpty) (start : Nat) (ps : List (List Char)) :
    dropEmptyLast ((ofPieces start ps).map fun line => f line.start line.chars) =
      (ofPieces start (dropEmptyLast ps)).map fun line => f line.start line.chars := by
  induction ps generalizing start with
  | nil => rfl
  | cons p ps ih =>
      cases ps with
      | nil =>
          simp only [ofPieces, List.map_cons, List.map_nil, dropEmptyLast, hf]
          split <;> rfl
      | cons q ps =>
          have ih := ih (start + p.length + 1)
          simp only [ofPieces, List.map_cons, dropEmptyLast] at ih ⊢
          rw [ih]

/-- The pieces of a marked text are those of the text. -/
theorem pieces_map_zipIdx (mark : Nat → Bool) (start : Nat) (cs : List Char) :
    MarkedChar.pieces ((cs.zipIdx start).map fun c => (c.1, mark c.2)) =
      (ofPieces start (Text.pieces '\n' cs)).map fun line =>
        line.places.map fun c => (c.1, mark c.2) := by
  induction cs generalizing start with
  | nil => rfl
  | cons c cs ih =>
      have ih := ih (start + 1)
      obtain ⟨p, ps, hps⟩ := List.exists_cons_of_ne_nil (Text.pieces_ne_nil '\n' cs)
      rw [hps] at ih
      rw [List.zipIdx_cons, List.map_cons, MarkedChar.pieces, Text.pieces, ih, hps]
      split
      · rfl
      · simp only [ofPieces, List.map_cons, List.modifyHead_cons, places, List.zipIdx_cons,
          List.length_cons]
        rw [show start + 1 + p.length + 1 = start + (p.length + 1) + 1 by omega]

end Line

/-- The scan finds the lines of a text, with the characters that lie in comments. -/
theorem MarkedChar.lines_markFrom {spans : List Span} (h : TokenTree.InOrder spans)
    (cs : List Char) :
    lines (markFrom 0 spans cs) =
      (Line.ofText cs).map fun line => line.places.map fun c => (c.1, covers spans c.2) := by
  rw [lines_eq, markFrom_eq h, Line.pieces_map_zipIdx]
  refine Line.dropEmptyLast_ofPieces
    (fun start p => (p.zipIdx start).map fun c => (c.1, covers spans c.2)) ?_ 0 _
  intro start p
  cases p <;> rfl

/-! ## Kinds of lines -/

namespace Text

theorem isBlank_iff {c : Char} : isBlank c = true ↔ isWhiteSpace c = true ∨ c = '\uFEFF' := by
  rw [isBlank, Bool.or_eq_true, beq_iff_eq]

/-- The byte order mark is no white space. -/
theorem isWhiteSpace_byteOrderMark : isWhiteSpace '\uFEFF' = false := by decide +kernel

end Text

namespace Line

variable {tree : TokenTree} {line : Line}

theorem forall_chars_iff {P : Char → Prop} :
    (∀ c ∈ line.chars, P c) ↔ ∀ c ∈ line.places, P c.1 := by
  have hmap : line.places.map (·.1) = line.chars := List.zipIdx_map_fst line.start line.chars
  rw [← hmap, List.forall_mem_map]

/-- What the scan makes of a line. -/
theorem ofLine_eq (tree : TokenTree) (line : Line) :
    LineKind.ofLine (line.places.map fun c => (c.1, tree.isCommented c.2)) =
      if ∀ c ∈ line.places, Text.isWhiteSpace c.1 = true then .blank
      else if ∀ c ∈ line.places, Text.isWhiteSpace c.1 = true ∨ tree.isCommented c.2 = true then
        .comment
      else .code := by
  have hblank : ((line.places.map fun c => (c.1, tree.isCommented c.2)).filter
      fun c => !Text.isWhiteSpace c.1).isEmpty = true ↔
        ∀ c ∈ line.places, Text.isWhiteSpace c.1 = true := by
    simp only [List.isEmpty_iff, List.filter_eq_nil_iff, List.forall_mem_map, Bool.not_eq_true',
      Bool.not_eq_false]
  have hcomment : ((line.places.map fun c => (c.1, tree.isCommented c.2)).filter
      fun c => !Text.isWhiteSpace c.1).all (·.2) = true ↔
        ∀ c ∈ line.places, Text.isWhiteSpace c.1 = true ∨ tree.isCommented c.2 = true := by
    simp only [List.all_filter, List.all_map, List.all_eq_true, Function.comp_apply,
      Bool.not_not, Bool.or_eq_true]
  simp only [LineKind.ofLine, hblank, hcomment]

theorem kind_eq (tree : TokenTree) (line : Line) :
    line.kind tree =
      if ∀ c ∈ line.places, Text.isBlank c.1 = true then .blank
      else if ∀ c ∈ line.places, Text.isBlank c.1 = true ∨ tree.isCommented c.2 = true then
        .comment
      else .code := by
  simp only [kind, List.all_eq_true, forall_chars_iff, Bool.or_eq_true]

/-- The scan takes a line for what it is, unless the line is misread. -/
theorem ofLine_eq_kind_iff (tree : TokenTree) (line : Line) :
    LineKind.ofLine (line.places.map fun c => (c.1, tree.isCommented c.2)) = line.kind tree ↔
      ¬ line.IsMisread tree := by
  have hmark {c : Char} (h : Text.isBlank c = true) (hc : Text.isWhiteSpace c ≠ true) :
      c = '\uFEFF' := (Text.isBlank_iff.1 h).resolve_left hc
  have hsolid : Text.isWhiteSpace '\uFEFF' ≠ true := by simp [Text.isWhiteSpace_byteOrderMark]
  rw [ofLine_eq, kind_eq, IsMisread, forall_chars_iff]
  by_cases hwhite : ∀ c ∈ line.places, Text.isWhiteSpace c.1 = true
  · -- nothing but white space, so that there is no byte order mark
    have hblank : ∀ c ∈ line.places, Text.isBlank c.1 = true := fun c hc =>
      Text.isBlank_iff.2 (.inl (hwhite c hc))
    rw [if_pos hwhite, if_pos hblank]
    refine iff_of_true rfl ?_
    rintro ⟨-, c, hc, heq, -⟩
    exact hsolid (heq ▸ hwhite c hc)
  rw [if_neg hwhite]
  by_cases hblank : ∀ c ∈ line.places, Text.isBlank c.1 = true
  · -- a byte order mark among blanks
    obtain ⟨c, hc, hnot⟩ : ∃ c ∈ line.places, Text.isWhiteSpace c.1 ≠ true := by
      simpa using hwhite
    rw [if_pos hblank]
    refine iff_of_false (by split <;> simp) (not_not_intro ?_)
    exact ⟨fun c hc => .inl (hblank c hc), c, hc, hmark (hblank c hc) hnot, .inr hblank⟩
  rw [if_neg hblank]
  by_cases hquiet : ∀ c ∈ line.places,
      Text.isWhiteSpace c.1 = true ∨ tree.isCommented c.2 = true
  · -- every byte order mark lies in a comment
    have hcovered : ∀ c ∈ line.places, Text.isBlank c.1 = true ∨ tree.isCommented c.2 = true :=
      fun c hc => (hquiet c hc).imp_left fun h => Text.isBlank_iff.2 (.inl h)
    rw [if_pos hquiet, if_pos hcovered]
    refine iff_of_true rfl ?_
    rintro ⟨-, c, hc, heq, hout | hall⟩
    · rcases hquiet c hc with h | h
      · exact hsolid (heq ▸ h)
      · rw [hout] at h
        exact Bool.false_ne_true h
    · exact hblank hall
  rw [if_neg hquiet]
  by_cases hcovered : ∀ c ∈ line.places,
      Text.isBlank c.1 = true ∨ tree.isCommented c.2 = true
  · -- a byte order mark outside of the comments
    obtain ⟨c, hc, hnot, hout⟩ : ∃ c ∈ line.places,
        Text.isWhiteSpace c.1 ≠ true ∧ tree.isCommented c.2 = false := by
      simpa [not_or] using hquiet
    have hb : Text.isBlank c.1 = true := (hcovered c hc).resolve_right (by simp [hout])
    rw [if_pos hcovered]
    exact iff_of_false (by simp) (not_not_intro ⟨hcovered, c, hc, hmark hb hnot, .inl hout⟩)
  · rw [if_neg hcovered]
    exact iff_of_true rfl fun h => hcovered h.1

/-- A line that is misread counts for more than it is: blanks count for a comment or for code, and
a comment counts for code. -/
theorem cases_of_isMisread (tree : TokenTree) (line : Line) :
    let found := LineKind.ofLine (line.places.map fun c => (c.1, tree.isCommented c.2))
    found = line.kind tree ∨ (line.kind tree = .blank ∧ found ≠ .blank) ∨
      line.kind tree = .comment ∧ found = .code := by
  have hblank (c : Char × Nat) (h : Text.isWhiteSpace c.1 = true) : Text.isBlank c.1 = true :=
    Text.isBlank_iff.2 (.inl h)
  dsimp only
  rw [ofLine_eq, kind_eq]
  by_cases hwhite : ∀ c ∈ line.places, Text.isWhiteSpace c.1 = true
  · rw [if_pos hwhite, if_pos fun c hc => hblank c (hwhite c hc)]
    exact .inl rfl
  rw [if_neg hwhite]
  by_cases hquiet : ∀ c ∈ line.places,
      Text.isWhiteSpace c.1 = true ∨ tree.isCommented c.2 = true
  · rw [if_pos hquiet, if_pos fun c hc => (hquiet c hc).imp_left (hblank c)]
    split <;> simp
  · rw [if_neg hquiet]
    split_ifs <;> simp

end Line

/-! ## Counts -/

namespace LineKind

variable {α : Type} {found judged : α → LineKind} {xs : List α}

/-- Kinds that only err towards code count at most as many blank lines, and at most as many lines
without code. -/
theorem count_le (h : ∀ x ∈ xs, found x = judged x ∨ (judged x = .blank ∧ found x ≠ .blank) ∨
      judged x = .comment ∧ found x = .code) :
    (xs.map found).count .blank ≤ (xs.map judged).count .blank ∧
      (xs.map found).count .blank + (xs.map found).count .comment ≤
        (xs.map judged).count .blank + (xs.map judged).count .comment := by
  induction xs with
  | nil => simp
  | cons x xs ih =>
      obtain ⟨hx, hxs⟩ := List.forall_mem_cons.1 h
      have ih := ih hxs
      simp only [List.map_cons, List.count_cons]
      cases hf : found x <;> cases hj : judged x <;> simp_all <;> omega

/-- They count the same only if none of them errs. -/
theorem count_eq_iff (h : ∀ x ∈ xs, found x = judged x ∨ (judged x = .blank ∧ found x ≠ .blank) ∨
      judged x = .comment ∧ found x = .code) :
    ((xs.map found).count .blank = (xs.map judged).count .blank ∧
        (xs.map found).count .comment = (xs.map judged).count .comment) ↔
      ∀ x ∈ xs, found x = judged x := by
  induction xs with
  | nil => simp
  | cons x xs ih =>
      obtain ⟨hx, hxs⟩ := List.forall_mem_cons.1 h
      have hle := count_le hxs
      rw [List.forall_mem_cons, ← ih hxs]
      simp only [List.map_cons, List.count_cons]
      cases hf : found x <;> cases hj : judged x <;> simp_all <;> omega

end LineKind

/-- The counts of a text are those of its tokens if and only if no line is misread.  Every line is
counted in any case. -/
theorem LineCounts.measure_eq_iff {l : Language} {text : String} {tree : TokenTree}
    (h : TokenTree.read { language := l } text = .ok tree) (sourceId : String) :
    (FileStats.measure sourceId text (some l)).counts.total = (Line.ofText text.toList).length ∧
      ((FileStats.measure sourceId text (some l)).counts = .ofTokens tree text ↔
        ∀ line ∈ Line.ofText text.toList, ¬ line.IsMisread tree) := by
  have hspans : commentSpans (some l) text = tree.commentSpans := by
    simp only [commentSpans, Option.map_some, h]
  have hlines : MarkedChar.lines (MarkedChar.markFrom 0 (commentSpans (some l) text) text.toList) =
      (Line.ofText text.toList).map fun line =>
        line.places.map fun c => (c.1, tree.isCommented c.2) := by
    rw [hspans, MarkedChar.lines_markFrom (TokenTree.inOrder_commentSpans h)]
    simp only [MarkedChar.covers_commentSpans]
  have hkinds := LineKind.count_eq_iff fun line (_ : line ∈ Line.ofText text.toList) =>
    Line.cases_of_isMisread tree line
  simp only [Line.ofLine_eq_kind_iff] at hkinds
  rw [← hkinds]
  simp only [FileStats.measure, ofText, ofTokens, hlines, List.map_map, LineCounts.mk.injEq,
    List.length_map, true_and]
  rfl

/-- Inside of a comment, and in front of code, a byte order mark does no harm. -/
theorem LineCounts.measure_eq_commented_mark :
    ∃ tree, TokenTree.read { language := .java } "// \uFEFF\n\uFEFFclass A {}\n\n" = .ok tree ∧
      (∀ line ∈ Line.ofText "// \uFEFF\n\uFEFFclass A {}\n\n".toList, ¬ line.IsMisread tree) ∧
      (FileStats.measure "A.java" "// \uFEFF\n\uFEFFclass A {}\n\n" (some .java)).counts =
        .ofTokens tree "// \uFEFF\n\uFEFFclass A {}\n\n" := by
  have hread : (TokenTree.read { language := .java }
      "// \uFEFF\n\uFEFFclass A {}\n\n").toOption.map (fun tree => decide
        (∀ line ∈ Line.ofText "// \uFEFF\n\uFEFFclass A {}\n\n".toList, ¬ line.IsMisread tree)) =
      some true := by decide +kernel
  obtain ⟨tree, htree, hlines⟩ := Option.map_eq_some_iff.1 hread
  have htree := eq_ok_of_toOption htree
  have hlines := of_decide_eq_true hlines
  exact ⟨tree, htree, hlines, (LineCounts.measure_eq_iff htree "A.java").2.2 hlines⟩

/-- A comment behind a byte order mark counts for code. -/
theorem LineCounts.not_measure_eq_leading_mark :
    ∃ tree, TokenTree.read { language := .csharp } "\uFEFF// header\nclass A {}\n" = .ok tree ∧
      (LineCounts.ofTokens tree "\uFEFF// header\nclass A {}\n").comment = 1 ∧
      (FileStats.measure "A.cs" "\uFEFF// header\nclass A {}\n" (some .csharp)).counts.comment =
        0 := by
  have hread : (TokenTree.read { language := .csharp }
      "\uFEFF// header\nclass A {}\n").toOption.map (fun tree =>
        (LineCounts.ofTokens tree "\uFEFF// header\nclass A {}\n").comment) = some 1 := by
    decide +kernel
  obtain ⟨tree, htree, hcomment⟩ := Option.map_eq_some_iff.1 hread
  exact ⟨tree, eq_ok_of_toOption htree, hcomment, by decide +kernel⟩

end Outline
