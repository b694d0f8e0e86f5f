import Outline.Proofs.Declaration.Malformed
import Outline.Proofs.Relayout.Declarations
import Outline.Proofs.Relayout.Squeezed
import Outline.Proofs.Token.Layout

/-!
# Documents in another layout

A text of a language that writes the type first, without line comments and directives, can be laid
out anew: where runs of blank characters outside string literals and comments are replaced by other
ones, the text still has a token tree, and the same declarations are found in it.  Only inside an
identifier, between the angle brackets of its type arguments, a run has to stay a run of spaces.

* `Freeform` — no line comments and no directives.
* `TokenTree.reads_relaid` — both texts are read in step.
* `Discovery.declarations_relaid` — the declarations are the same.
* `Discovery.not_declarations_relaid` — a line break between type arguments loses a field.
-/

namespace Outline

open Text (isBlank)
open Rose (subtreesAll)

variable {d : Dialect} {c : Char} {cs ds : List Char}

/-! ## Fronts of tokens -/

namespace Dialect

/-- Where a line comment starts, it is read. -/
theorem match?_lineComment (hd : d.language.memberOrder = .typeFirst)
    (h : ['/', '/'].isPrefixOf (c :: cs) = true) :
    ∃ n, 2 ≤ n ∧ d.ruleSet.match? c cs = some (.reads n (.ofKind .comment)) := by
  obtain ⟨rest, hrest⟩ := List.isPrefixOf_iff_prefix.1 h
  obtain ⟨rfl, rfl⟩ : c = '/' ∧ cs = '/' :: rest := by simpa [eq_comm] using hrest
  obtain ⟨after, hrules⟩ : ∃ after, (d.language.rules d.maxDepth).filter (·.mayStart '/') =
      ⟨.lineComment "//", .ofKind .comment⟩ :: after := by
    cases hl : d.language with
    | csharp => exact ⟨_, rfl⟩
    | java => exact ⟨_, rfl⟩
    | typescript => rw [hl] at hd; cases hd
  refine ⟨2 + Recognizer.restOfLine rest, Nat.le_add_right _ _, ?_⟩
  rw [match?_eq, hrules, List.findSome?_cons, Rule.match?_leaf (by simp), Recognizer.scan,
    Recognizer.read]
  have hprefix : "//".toList.isPrefixOf ('/' :: '/' :: rest) = true := by simp
  rw [if_pos hprefix, Option.filter_some]
  have hlen : "//".length = 2 := rfl
  simp [hlen]

/-- Where a number sign stands, no token starts. -/
theorem match?_numberSign (hd : d.language.memberOrder = .typeFirst) {m : RuleMatch}
    (h : d.ruleSet.match? '#' cs = some m) : ∃ n, m = .reads n .discard := by
  rw [match?_eq] at h
  cases hl : d.language with
  | csharp =>
      have hrules : (d.language.rules d.maxDepth).filter (·.mayStart '#') =
          [⟨.directive '#', .discard⟩] := by rw [hl]; rfl
      rw [hrules] at h
      obtain ⟨r, hr, hmatch⟩ := List.exists_of_findSome?_eq_some h
      obtain rfl := List.mem_singleton.1 hr
      rw [Rule.match?_leaf (by simp)] at hmatch
      obtain ⟨n, -, rfl⟩ := Option.map_eq_some_iff.1 hmatch
      exact ⟨n, rfl⟩
  | java =>
      have hrules : (d.language.rules d.maxDepth).filter (·.mayStart '#') = [] := by rw [hl]; rfl
      rw [hrules] at h
      cases h
  | typescript => rw [hl] at hd; cases hd

/-- Whether a rule that is about a bracket pair is about the brackets `(`, `[` or an opening brace,
with a closing bracket that is not blank. -/
def isBracketRule (r : Rule) : Bool :=
  match r.recognizer with
  | .block opening closing => ['(', '[', '\x7b'].contains opening && !isBlank closing
  | _ => true

/-- The brackets of a block. -/
theorem brackets_of_opens {closing : Char} (h : d.ruleSet.match? c cs = some (.opens closing)) :
    ['(', '[', '\x7b'].contains c = true ∧ isBlank closing = false := by
  obtain ⟨r, hr, hrec⟩ := RuleSet.match?_opens h
  have hall : (d.language.rules d.maxDepth).all isBracketRule = true := by
    cases d.language <;> rfl
  have hpair := List.all_eq_true.1 hall r hr
  rw [isBracketRule, hrec] at hpair
  simpa using hpair

/-- No blank character closes a block. -/
theorem isCloser_of_isBlank (hc : isBlank c = true) : d.ruleSet.isCloser c = false := by
  have hall : ((d.language.rules d.maxDepth).filterMap Rule.closer?).all (!isBlank ·) = true := by
    cases d.language <;> rfl
  refine Bool.eq_false_iff.2 fun hcloser => ?_
  have := List.all_eq_true.1 hall c (List.contains_iff_mem.1 hcloser)
  rw [hc] at this
  cases this

/-- Keywords hold no blank characters. -/
theorem solid_of_isKeyword (hd : d.language.memberOrder = .typeFirst) {w : String}
    (h : d.language.isKeyword w = true) : ∀ c ∈ w.toList, isBlank c = false := by
  have hall : (d.language.keywords.all fun entry => entry.1.toList.all (!isBlank ·)) = true := by
    cases hl : d.language with
    | csharp => decide +kernel
    | java => decide +kernel
    | typescript => rw [hl] at hd; cases hd
  obtain ⟨roles, hlookup⟩ := Option.isSome_iff_exists.1 h
  obtain ⟨before, after, heq, -⟩ := List.lookup_eq_some_iff.1 hlookup
  have hmem : (w, roles) ∈ d.language.keywords := by
    rw [heq]
    exact List.mem_append_right _ List.mem_cons_self
  exact Text.solid_of_all (List.all_eq_true.1 hall _ hmem)

end Dialect

/-! ## Texts that can be laid out anew -/

/-- Whether the character at the offset `i` belongs to a string literal or a comment. -/
def TokenTree.InLiteral (ts : List TokenTree) (i : Nat) : Prop :=
  ∃ t ∈ subtreesAll ts, t.value.kind.isTrivial = true ∧ t.value.owns i = true

theorem TokenTree.InLiteral.mono {ts us : List TokenTree} {i : Nat} (h : InLiteral ts i)
    (hsub : subtreesAll ts ⊆ subtreesAll us) : InLiteral us i := by
  obtain ⟨t, ht, htrivial, hown⟩ := h
  exact ⟨t, hsub ht, htrivial, hown⟩

/-- Whether the offset `i` lies inside characters that can be read as an identifier.  What is blank
there stands between the angle brackets of its type arguments. -/
def IdentifierStyle.Inside (style : IdentifierStyle) (cs : List Char) (i : Nat) : Prop :=
  ∃ p n, style.scan (cs.drop p) = some n ∧ p < i ∧ i < p + n

/-- There are no line comments among the trees, and no directives in the text that they are read
from, which starts at the offset `p` and ends at `q`: every number sign belongs to a string literal
or a comment. -/
structure Freeform (cs : List Char) (p q : Nat) (ts : List TokenTree) : Prop where
  /-- No line comment. -/
  noLineComment : ∀ t ∈ subtreesAll ts, t.value.kind = .comment →
    ['/', '/'].isPrefixOf t.value.text.toList = false
  /-- No directive. -/
  noDirective : ∀ i, p ≤ i → i < q → cs[i]? = some '#' → TokenTree.InLiteral ts i

/-- What lies outside identifiers, by evaluation. -/
theorem IdentifierStyle.not_inside_of_all {style : IdentifierStyle} {i : Nat}
    (h : ((List.range i).all fun p => (style.scan (cs.drop p)).all fun n =>
      decide (p + n ≤ i)) = true) : ¬ style.Inside cs i := by
  rintro ⟨p, n, hn, hp, hi⟩
  have := List.all_eq_true.1 h p (List.mem_range.2 hp)
  rw [hn, Option.all_some, decide_eq_true_eq] at this
  omega

namespace Freeform

open TokenTree

variable {source : Source} {p m q len : Nat} {t : TokenTree} {inner ts : List TokenTree}

/-- Without string literals, comments and number signs there is nothing to exclude. -/
theorem of_all (h : ((subtreesAll ts).all fun t => !t.value.kind.isTrivial) = true)
    (hmark : '#' ∉ cs) : Freeform cs p q ts ∧ ∀ i, ¬ InLiteral ts i := by
  have hkind : ∀ t ∈ subtreesAll ts, t.value.kind.isTrivial = false := fun t ht => by
    simpa using List.all_eq_true.1 h t ht
  refine ⟨⟨fun t ht hcomment => ?_, fun i _ _ hi => absurd (List.mem_of_getElem? hi) hmark⟩, ?_⟩
  · have := hkind t ht
    rw [hcomment] at this
    cases this
  · rintro i ⟨t, ht, htrivial, -⟩
    rw [hkind t ht] at htrivial
    cases htrivial

theorem skip (h : Freeform cs p q ts) : Freeform cs (p + len) q ts :=
  ⟨h.noLineComment, fun i hp => h.noDirective i (by omega)⟩

theorem leaf {token : Token} (h : Freeform cs p q (TokenTree.leaf token :: ts))
    (howns : ∀ i, p + len ≤ i → token.owns i = false) : Freeform cs (p + len) q ts := by
  have hsub : subtreesAll (TokenTree.leaf token :: ts) =
      TokenTree.leaf token :: subtreesAll ts := by
    rw [Rose.subtreesAll_cons, TokenTree.leaf, Rose.subtrees_node, Rose.subtreesAll_nil]
    rfl
  refine ⟨fun t ht => h.noLineComment t (hsub ▸ List.mem_cons_of_mem _ ht), fun i hp hq hi => ?_⟩
  obtain ⟨t, ht, htrivial, hown⟩ := h.noDirective i (by omega) hq hi
  rcases List.mem_cons.1 (hsub ▸ ht) with rfl | ht
  · exact absurd (howns i hp) (by rw [TokenTree.leaf, Rose.value_node] at hown; simp [hown])
  · exact ⟨t, ht, htrivial, hown⟩

theorem block {token : Token} (htoken : token.kind = .block)
    (h : Freeform cs p q (.node token inner :: ts))
    (hinner : Reads d.language d.ruleSet source (p + 1) m inner)
    (hts : Reads d.language d.ruleSet source (m + 1) q ts) :
    Freeform cs (p + 1) m inner ∧ Freeform cs (m + 1) q ts := by
  have hsub : subtreesAll (.node token inner :: ts) =
      .node token inner :: (subtreesAll inner ++ subtreesAll ts) := by
    rw [Rose.subtreesAll_cons, Rose.subtrees_node]
    rfl
  have hin := hinner.le
  have hout := hts.le
  have hliteral : ∀ i, p ≤ i → i < q → cs[i]? = some '#' →
      ∃ t ∈ subtreesAll inner ++ subtreesAll ts, t.value.kind.isTrivial = true ∧
        t.value.owns i = true := by
    intro i hp hq hi
    obtain ⟨t, ht, htrivial, hown⟩ := h.noDirective i hp hq hi
    rcases List.mem_cons.1 (hsub ▸ ht) with rfl | ht
    · rw [Rose.value_node, htoken] at htrivial
      cases htrivial
    · exact ⟨t, ht, htrivial, hown⟩
  have hcomment : ∀ t ∈ subtreesAll inner ++ subtreesAll ts, t.value.kind = .comment →
      ['/', '/'].isPrefixOf t.value.text.toList = false := fun t ht =>
    h.noLineComment t (hsub ▸ List.mem_cons_of_mem _ ht)
  refine ⟨⟨fun t ht => hcomment t (List.mem_append_left _ ht), fun i hp hm hi => ?_⟩,
    ⟨fun t ht => hcomment t (List.mem_append_right _ ht), fun i hm hq hi => ?_⟩⟩
  · obtain ⟨t, ht, htrivial, hown⟩ := hliteral i (by omega) (by omega) hi
    rcases List.mem_append.1 ht with ht | ht
    · exact ⟨t, ht, htrivial, hown⟩
    · rw [hts.owns_outside (.inl (by omega)) ht] at hown
      cases hown
  · obtain ⟨t, ht, htrivial, hown⟩ := hliteral i (by omega) hq hi
    rcases List.mem_append.1 ht with ht | ht
    · rw [hinner.owns_outside (.inr (by omega)) ht] at hown
      cases hown
    · exact ⟨t, ht, htrivial, hown⟩

/-- In such a text no token starts with what makes a line comment or a directive. -/
theorem front (hd : d.language.memberOrder = .typeFirst) {kind : TokenKind}
    {classifier : Classifier} (found : d.ruleSet.match? c cs = some (.reads len classifier))
    (hkind : classifier.kind? d.language (String.ofList ((c :: cs).take len)) = some kind)
    (hcomment : kind = .comment → ['/', '/'].isPrefixOf ((c :: cs).take len) = false) :
    Front c cs := by
  refine ⟨?_, ?_, ?_⟩
  · refine Bool.eq_false_iff.2 fun hblank => ?_
    rw [Dialect.match?_blank hd hblank] at found
    cases found
    cases hkind
  · refine Bool.eq_false_iff.2 fun hslashes => ?_
    obtain ⟨n, hn, hmatch⟩ := Dialect.match?_lineComment hd hslashes
    rw [hmatch] at found
    cases found
    cases hkind
    have := hcomment rfl
    rw [Bool.eq_false_iff] at this
    refine this (List.isPrefixOf_iff_prefix.2 ?_)
    exact List.prefix_take_iff.2 ⟨List.isPrefixOf_iff_prefix.1 hslashes, hn⟩
  · rintro rfl
    obtain ⟨n, hm⟩ := Dialect.match?_numberSign hd found
    cases hm
    cases hkind

end Freeform

/-! ## Two texts in step -/

/-- A condition on replaced runs under which the identifiers of two texts are spelled alike: inside
an identifier of one of them, only spaces are replaced by spaces. -/
structure Spelling.Tells (σ : Spelling) (d : Dialect)
    (allowed : Nat → List Char → Nat → List Char → Prop) (cs ds : List Char) : Prop where
  /-- Inside an identifier of the first text. -/
  old : ∀ {p b q b'}, allowed p b q b' → d.identifiers.Inside cs p → Spaced p b q b'
  /-- Inside an identifier of the second text. -/
  new : ∀ {p b q b'}, allowed p b q b' → d.identifiers.Inside ds q → Spaced p b q b'
  /-- The identifiers at the same place. -/
  word : ∀ {p q n m}, Relaid allowed p (cs.drop p) q (ds.drop q) →
    d.identifiers.scan (cs.drop p) = some n → d.identifiers.scan (ds.drop q) = some m →
    σ.word (String.ofList ((ds.drop q).take m)) = σ.word (String.ofList ((cs.drop p).take n))

namespace TokenTree

variable {σ : Spelling} {allowed : Nat → List Char → Nat → List Char → Prop}
  {source source' : Source} {p p' len : Nat}

/-- A word at the same place of both texts. -/
theorem word_relaid (hd : d.language.memberOrder = .typeFirst)
    (htells : σ.Tells d allowed source.chars source'.chars)
    (rest : source.chars.drop p = c :: cs) (rest' : source'.chars.drop p' = c :: ds)
    (h : Relaid allowed p (c :: cs) p' (c :: ds)) (hf : Front c cs) {kind : TokenKind}
    (found : d.ruleSet.match? c cs = some (.reads len .keywordOrIdentifier))
    (hkind : Classifier.keywordOrIdentifier.kind? d.language
      (String.ofList ((c :: cs).take len)) = some kind) :
    ∃ len', d.ruleSet.match? c ds = some (.reads len' .keywordOrIdentifier) ∧
      Classifier.keywordOrIdentifier.kind? d.language
        (String.ofList ((c :: ds).take len')) = some kind ∧
      Relaid allowed (p + len) ((c :: cs).drop len) (p' + len') ((c :: ds).drop len') ∧
      ∀ span span', σ.token ⟨kind, span', String.ofList ((c :: ds).take len')⟩ =
        σ.token ⟨kind, span, String.ofList ((c :: cs).take len)⟩ := by
  obtain ⟨hscan, len', hscan', hmatch⟩ := Dialect.match?_identifier_relaid hd hf h found
  have hword := htells.word (rest ▸ rest' ▸ h) (rest ▸ hscan) (rest' ▸ hscan')
  rw [rest, rest'] at hword
  have hrest := (IdentifierStyle.scan_relaid (Dialect.solidMarks hd) h hscan hscan'
    (fun i b j b' hp hlen hok => htells.old hok ⟨p, len, rest ▸ hscan, hp, hlen⟩)
    (fun i b j b' hp hlen hok => htells.new hok ⟨p', len', rest' ▸ hscan', hp, hlen⟩)).2
  -- the text of a keyword is its only spelling
  have hkeyword : ∀ {w w' : String}, σ.word w' = σ.word w → d.language.isKeyword w = true →
      w' = w := by
    intro w w' hw hkey
    have hsolid := Dialect.solid_of_isKeyword hd hkey
    exact (σ.word_eq_iff w' hsolid).1 (hw.trans ((σ.word_eq_iff w hsolid).2 rfl))
  refine ⟨len', hmatch, ?_, hrest, ?_⟩
  · generalize String.ofList ((c :: cs).take len) = text at *
    generalize String.ofList ((c :: ds).take len') = text' at *
    rw [← hkind, Classifier.kind?, Classifier.kind?]
    by_cases hkey : d.language.isKeyword text = true
    · rw [hkeyword hword hkey]
    · by_cases hkey' : d.language.isKeyword text' = true
      · rw [hkeyword hword.symm hkey']
      · rw [if_neg hkey, if_neg hkey']
  · intro span span'
    rw [Classifier.kind?, Option.some.injEq] at hkind
    split at hkind
    · rename_i hkey
      rw [hkeyword hword hkey]
      rfl
    · rw [← hkind]
      exact congrArg (Token.mk .identifier {}) hword

/-- A leaf at the same place of both texts. -/
theorem leaf_relaid (hd : d.language.memberOrder = .typeFirst)
    (htells : σ.Tells d allowed source.chars source'.chars)
    (rest : source.chars.drop p = c :: cs) (rest' : source'.chars.drop p' = c :: ds)
    (h : Relaid allowed p (c :: cs) p' (c :: ds)) (hf : Front c cs) {classifier : Classifier}
    {kind : TokenKind} (found : d.ruleSet.match? c cs = some (.reads len classifier))
    (hkind : classifier.kind? d.language (String.ofList ((c :: cs).take len)) = some kind)
    (hliteral : kind.isTrivial = true → ∀ i b j b', p ≤ i → i < p + len → ¬ allowed i b j b') :
    ∃ len', d.ruleSet.match? c ds = some (.reads len' classifier) ∧
      classifier.kind? d.language (String.ofList ((c :: ds).take len')) = some kind ∧
      Relaid allowed (p + len) ((c :: cs).drop len) (p' + len') ((c :: ds).drop len') ∧
      ∀ span span', σ.token ⟨kind, span', String.ofList ((c :: ds).take len')⟩ =
        σ.token ⟨kind, span, String.ofList ((c :: cs).take len)⟩ := by
  by_cases hclassifier : classifier = .keywordOrIdentifier
  · subst hclassifier
    exact word_relaid hd htells rest rest' h hf found hkind
  obtain ⟨-, -, hlen⟩ := RuleSet.match?_reads found
  obtain ⟨hmatch, hkept⟩ := Dialect.match?_other_relaid hd hf h found
    (fun n hn => hclassifier (by cases hn; rfl)) (fun n kind' hn htrivial => by
      cases hn
      cases hkind
      exact h.split hlen fun i b q' b' hi _ _ => hliteral htrivial _ b q' b' (by omega) (by omega))
  obtain ⟨htake, hdrop⟩ := hkept len classifier rfl
  exact ⟨len, hmatch, by rw [htake, hkind], hdrop, fun span span' => by rw [htake]; rfl⟩

/-- What a rule discards is blank, unless it is a directive. -/
theorem isBlank_of_skip {q : Nat} {ts : List TokenTree} {classifier : Classifier}
    (rest : source.chars.drop p = c :: cs)
    (found : d.ruleSet.match? c cs = some (.reads len classifier))
    (hkind : classifier.kind? d.language (String.ofList ((c :: cs).take len)) = none)
    (tail : Reads d.language d.ruleSet source (p + len) q ts)
    (hfree : Freeform source.chars p q ts) : isBlank c = true := by
  obtain ⟨⟨r, hr, hscan, rfl⟩, hpos, -⟩ := RuleSet.match?_reads found
  have hclassifier : r.classifier = .discard := by
    cases hc : r.classifier with
    | discard => rfl
    | _ =>
        rw [hc] at hkind
        cases hkind
  by_contra hblank
  rw [Bool.not_eq_true] at hblank
  rcases recognizer_of_discard hr hclassifier with hrec | ⟨-, hrec⟩
  · rw [hrec, Recognizer.scan_whitespace hblank] at hscan
    cases hscan
  · have hmark : c = '#' := by
      rw [hrec, Recognizer.scan, Recognizer.read] at hscan
      split at hscan
      · rename_i hhead
        simpa using hhead
      · cases hscan
    have hat : source.chars[p]? = some '#' := by rw [← hmark]; exact (drop_succ_of_drop rest).2.2
    have hle := tail.le
    -- the trees behind the directive own none of it
    obtain ⟨t, ht, -, hown⟩ := hfree.noDirective p le_rfl (by omega) hat
    rw [tail.owns_outside (.inl (by omega)) ht] at hown
    cases hown

/-- The trees `ts`, which one text has between the offsets `p` and `q`, are read from the other one
as well, from each offset where what is left of it is laid out like what is left of the first. -/
def ReadsAnew (σ : Spelling) (d : Dialect) (allowed : Nat → List Char → Nat → List Char → Prop)
    (source source' : Source) (p q : Nat) (ts : List TokenTree) : Prop :=
  ∀ p', Relaid allowed p (source.chars.drop p) p' (source'.chars.drop p') →
    ∃ q' ts', Reads d.language d.ruleSet source' p' q' ts' ∧
      Relaid allowed q (source.chars.drop q) q' (source'.chars.drop q') ∧
      ts'.map σ.tree = ts.map σ.tree

/-- A run of blank characters is left out of both texts. -/
theorem readsAnew_skip {q : Nat} {ts : List TokenTree} (hd : d.language.memberOrder = .typeFirst)
    (rest : source.chars.drop p = c :: cs) (hblank : isBlank c = true) {classifier : Classifier}
    (found : d.ruleSet.match? c cs = some (.reads len classifier))
    (ih : ReadsAnew σ d allowed source source' (p + len) q ts) :
    ReadsAnew σ d allowed source source' p q ts := by
  intro p' hrelaid
  obtain ⟨e, ds, rest', hblank'⟩ := Relaid.exists_blank hblank (rest ▸ hrelaid)
  have hdrop := hrelaid.dropBlanks
  rw [← drop_length_takeWhile, ← drop_length_takeWhile, List.drop_drop, List.drop_drop, rest,
    rest'] at hdrop
  rw [Dialect.match?_blank hd hblank, Option.some.injEq, RuleMatch.reads.injEq] at found
  obtain ⟨rfl, rfl⟩ := found
  obtain ⟨q', ts', hts', hend, htrees⟩ := ih _ hdrop
  exact ⟨q', ts', .skip rest' (Dialect.isCloser_of_isBlank hblank')
    (Dialect.match?_blank hd hblank') rfl hts', hend, htrees⟩

/-- A leaf stands at the same place of both texts. -/
theorem readsAnew_leaf {q : Nat} {ts : List TokenTree} (hd : d.language.memberOrder = .typeFirst)
    (htells : σ.Tells d allowed source.chars source'.chars)
    (rest : source.chars.drop p = c :: cs) (hopen : d.ruleSet.isCloser c = false)
    (hf : Front c cs) {classifier : Classifier} {kind : TokenKind}
    (found : d.ruleSet.match? c cs = some (.reads len classifier))
    (hkind : classifier.kind? d.language (String.ofList ((c :: cs).take len)) = some kind)
    (hliteral : kind.isTrivial = true → ∀ i b j b', p ≤ i → i < p + len → ¬ allowed i b j b')
    (ih : ReadsAnew σ d allowed source source' (p + len) q ts) :
    ReadsAnew σ d allowed source source' p q
      (TokenTree.leaf ⟨kind, source.span p len, String.ofList ((c :: cs).take len)⟩ :: ts) := by
  intro p' hrelaid
  rw [rest] at hrelaid
  obtain ⟨ds, rest', -⟩ := hrelaid.exists_cons hf.solid
  rw [rest'] at hrelaid
  obtain ⟨len', hmatch, hkind', hdrop, htoken⟩ :=
    leaf_relaid hd htells rest rest' hrelaid hf found hkind hliteral
  rw [← rest, ← rest', List.drop_drop, List.drop_drop] at hdrop
  obtain ⟨q', ts', hts', hend, htrees⟩ := ih _ hdrop
  refine ⟨q', _, .leaf rest' hopen hmatch hkind' hts', hend, ?_⟩
  rw [List.map_cons, List.map_cons, htrees, TokenTree.leaf, TokenTree.leaf, Spelling.tree,
    Spelling.tree, htoken]

/-- Of the text of a block only its opening bracket is told. -/
theorem token_block (hbracket : c = '(' ∨ c = '[' ∨ c = '\x7b') {p m p' m' : Nat} (hp : p ≤ m)
    (hp' : p' ≤ m') (span span' : Span) :
    σ.token ⟨.block, span', String.ofList ((c :: ds).take (m' + 1 - p'))⟩ =
      σ.token ⟨.block, span, String.ofList ((c :: cs).take (m + 1 - p))⟩ := by
  obtain ⟨k, hk⟩ : ∃ k, m + 1 - p = k + 1 := ⟨m - p, by omega⟩
  obtain ⟨k', hk'⟩ : ∃ k', m' + 1 - p' = k' + 1 := ⟨m' - p', by omega⟩
  rw [hk, hk']
  simp [Spelling.token, Spelling.bracket, TokenKind.isCompound, hbracket]

/-- A block stands at the same place of both texts, and so do the trees in it and those behind
it. -/
theorem readsAnew_block {m q : Nat} {closing : Char} {inner ts : List TokenTree}
    (hd : d.language.memberOrder = .typeFirst) (rest : source.chars.drop p = c :: cs)
    (hopen : d.ruleSet.isCloser c = false) (found : d.ruleSet.match? c cs = some (.opens closing))
    (close : source.chars[m]? = some closing) (hp : p ≤ m)
    (ihinside : ReadsAnew σ d allowed source source' (p + 1) m inner)
    (ih : ReadsAnew σ d allowed source source' (m + 1) q ts) :
    ReadsAnew σ d allowed source source' p q (.node ⟨.block, source.span p (m + 1 - p),
      String.ofList ((c :: cs).take (m + 1 - p))⟩ inner :: ts) := by
  intro p' hrelaid
  obtain ⟨hbracket, hclosing⟩ := Dialect.brackets_of_opens found
  have hc : c = '(' ∨ c = '[' ∨ c = '\x7b' := by simpa using hbracket
  have hf : Front c cs := by
    rcases hc with rfl | rfl | rfl <;> exact ⟨by decide, rfl, by decide⟩
  rw [rest] at hrelaid
  obtain ⟨ds, rest', htail⟩ := hrelaid.exists_cons hf.solid
  rw [rest'] at hrelaid
  have hmatch := (Dialect.match?_other_relaid hd hf hrelaid found (fun n h => by cases h)
    fun n kind h => by cases h).1
  rw [← (drop_succ_of_drop rest).1, ← (drop_succ_of_drop rest').1] at htail
  -- the text between the brackets
  obtain ⟨m', inner', hinner', hend, htrees⟩ := ihinside _ htail
  have hclose : source.chars.drop m = closing :: source.chars.drop (m + 1) := by
    obtain ⟨hm, hget⟩ := List.getElem?_eq_some_iff.1 close
    rw [List.drop_eq_getElem_cons hm, hget]
  rw [hclose] at hend
  obtain ⟨ds', hclose', hbehind⟩ := hend.exists_cons hclosing
  obtain ⟨hds', -, hget'⟩ := drop_succ_of_drop hclose'
  rw [← hds'] at hbehind
  -- the text behind the block
  obtain ⟨q', ts', hts', hend, htrees'⟩ := ih _ hbehind
  refine ⟨q', _, .block rest' hopen hmatch hinner' hget' hts', hend, ?_⟩
  rw [List.map_cons, List.map_cons, htrees', Spelling.tree, Spelling.tree, Spelling.trees_eq_map,
    Spelling.trees_eq_map, htrees,
    token_block hc hp (Nat.le_of_succ_le hinner'.le) (source.span p (m + 1 - p))]

/-- What lies in a literal of one of the trees of a block, or of one behind it, lies in a literal
of all of them. -/
theorem inLiteral_block {token : Token} {inner ts : List TokenTree} {i : Nat}
    (h : InLiteral inner i ∨ InLiteral ts i) : InLiteral (.node token inner :: ts) i := by
  rcases h with h | h
  · refine h.mono fun t ht => ?_
    rw [Rose.subtreesAll_cons, Rose.subtrees_node]
    exact List.mem_append_left _ (List.mem_cons_of_mem _ ht)
  · refine h.mono fun t ht => ?_
    rw [Rose.subtreesAll_cons]
    exact List.mem_append_right _ ht

/-- Both texts are read in step. -/
theorem reads_relaid (hd : d.language.memberOrder = .typeFirst)
    (htells : σ.Tells d allowed source.chars source'.chars) {q : Nat} {ts : List TokenTree}
    (h : Reads d.language d.ruleSet source p q ts) (hfree : Freeform source.chars p q ts)
    (hliteral : ∀ i b j b', allowed i b j b' → ¬ InLiteral ts i) :
    ReadsAnew σ d allowed source source' p q ts := by
  induction h with
  | nil p => exact fun p' hrelaid => ⟨p', [], .nil p', hrelaid, rfl⟩
  | skip rest hopen found hkind tail ih =>
      exact readsAnew_skip hd rest (isBlank_of_skip rest found hkind tail hfree) found
        (ih hfree.skip hliteral)
  | @leaf p q len c cs classifier kind ts rest hopen found hkind tail ih =>
      have hmem : TokenTree.leaf ⟨kind, source.span p len, String.ofList ((c :: cs).take len)⟩ ∈
          subtreesAll (TokenTree.leaf
            ⟨kind, source.span p len, String.ofList ((c :: cs).take len)⟩ :: ts) :=
        Rose.mem_subtreesAll_of_mem List.mem_cons_self
      have howns := Token.owns_of_leaf (t := ⟨kind, source.span p len,
        String.ofList ((c :: cs).take len)⟩) (isCompound_of_reads found hkind)
      have hf : Front c cs := Freeform.front hd found hkind fun hcomment => by
        have := hfree.noLineComment _ hmem hcomment
        rwa [TokenTree.leaf, Rose.value_node, String.toList_ofList] at this
      refine readsAnew_leaf hd htells rest hopen hf found hkind
        (fun htrivial i b j b' hi hlen hok => hliteral i b j b' hok ⟨_, hmem, htrivial,
          (howns i).trans (Bool.and_eq_true_iff.2 ⟨decide_eq_true hi, decide_eq_true hlen⟩)⟩)
        (ih (hfree.leaf fun i hi => ?_) fun i b j b' hok hin =>
          hliteral i b j b' hok (inLiteral_block (.inr hin)))
      rw [howns, Bool.and_eq_false_iff, decide_eq_false_iff_not, decide_eq_false_iff_not]
      simp only [Source.span, Span.stop]
      omega
  | block rest hopen found inside close tail ihinside ih =>
      obtain ⟨hfreein, hfreeout⟩ := hfree.block rfl inside tail
      exact readsAnew_block hd rest hopen found close (Nat.le_of_succ_le inside.le)
        (ihinside hfreein fun i b j b' hok hin => hliteral i b j b' hok (inLiteral_block (.inl hin)))
        (ih hfreeout fun i b j b' hok hin => hliteral i b j b' hok (inLiteral_block (.inr hin)))

/-- A text in another layout has a token tree, too, which differs in what the layout may
change. -/
theorem read_relaid (hd : d.language.memberOrder = .typeFirst) {text text' : String}
    (htells : σ.Tells d allowed text.toList text'.toList) {doc : TokenTree}
    (h : read d text = .ok doc) (hfree : Freeform text.toList 0 text.toList.length doc.children)
    (hliteral : ∀ i b j b', allowed i b j b' → ¬ InLiteral doc.children i)
    (hrelaid : Relaid allowed 0 text.toList 0 text'.toList) :
    ∃ doc', read d text' = .ok doc' ∧ σ.tree doc' = σ.tree doc := by
  obtain ⟨ts, rfl, hts⟩ := reads_of_read h
  obtain ⟨q', ts', hts', hend, htrees⟩ : ∃ q' ts', Reads d.language d.ruleSet
      (Source.ofString text') 0 q' ts' ∧
        Relaid allowed (Source.ofString text).length
          ((Source.ofString text).chars.drop (Source.ofString text).length) q'
          ((Source.ofString text').chars.drop q') ∧
        ts'.map σ.tree = ts.map σ.tree :=
    reads_relaid hd htells hts hfree hliteral 0 hrelaid
  have hdrop : (Source.ofString text).chars.drop (Source.ofString text).length = [] :=
    List.drop_length
  rw [hdrop] at hend
  have hq' : q' = (Source.ofString text').chars.length := by
    have hle := hts'.le_length (Nat.zero_le _)
    have hge := List.drop_eq_nil_iff.1 hend.eq_nil
    omega
  subst hq'
  refine ⟨_, read_of_reads hts', ?_⟩
  rw [document, document, Spelling.tree, Spelling.tree, Spelling.trees_eq_map,
    Spelling.trees_eq_map, htrees]
  rfl

end TokenTree

/-! ## Declarations -/

/-- A run of blank characters that may be replaced by any other one: it lies outside string
literals and comments, and it lies outside identifiers in the old and in the new text. -/
def Breakable (d : Dialect) (document : TokenTree) (cs ds : List Char) (p : Nat) (_ : List Char)
    (q : Nat) (_ : List Char) : Prop :=
  ¬ TokenTree.InLiteral document.children p ∧ ¬ d.identifiers.Inside cs p ∧
    ¬ d.identifiers.Inside ds q

/-- A run of blank characters that may be replaced: as before, or spaces by spaces, also inside
identifiers. -/
def Replaceable (d : Dialect) (document : TokenTree) (cs ds : List Char) (p : Nat) (b : List Char)
    (q : Nat) (b' : List Char) : Prop :=
  ¬ TokenTree.InLiteral document.children p ∧
    (Spaced p b q b' ∨ ¬ d.identifiers.Inside cs p ∧ ¬ d.identifiers.Inside ds q)

namespace Spelling

variable {document : TokenTree}

/-- Where no run inside an identifier is replaced, identifiers are the same. -/
theorem exact_tells (hd : d.language.memberOrder = .typeFirst) :
    exact.Tells d (Breakable d document cs ds) cs ds where
  old h hinside := absurd hinside h.2.1
  new h hinside := absurd hinside h.2.2
  word := by
    intro p q n m h hn hm
    have hlocal := IdentifierStyle.local_scan d.identifiers
    have hbounded : Bounded d.identifiers.scan := d.identifiers.bounded_scan
    -- no run lies in front of an identifier
    have hfront : ∀ {xs : List Char} {n : Nat}, d.identifiers.scan xs = some n →
        ∀ {b : List Char}, b <+: xs → ¬ BlankRun b := by
      intro xs n hn b hb hrun
      obtain ⟨c, rest, rfl, hc, -⟩ := hrun.exists_cons
      obtain ⟨tail, rfl⟩ := hb
      have hmatch := Dialect.match?_name hd hn
      rw [List.append_eq, Dialect.match?_blank hd hc] at hmatch
      cases hmatch
    have hold := (h.split (hbounded _ n hn) fun i b q' b' hi hb hrun hok => by
      rcases Nat.eq_zero_or_pos i with rfl | hpos
      · exact hfront hn hb hrun
      · exact hok.2.1 ⟨p, n, hn, by omega, by omega⟩).1
    have hnew := (h.symm.split (hbounded _ m hm) fun i b q' b' hi hb hrun hok => by
      rcases Nat.eq_zero_or_pos i with rfl | hpos
      · exact hfront hm hb hrun
      · exact hok.2.2 ⟨q, m, hm, by omega, by omega⟩).1
    -- the front that is read as an identifier in one text is so in the other one
    have hcut : ∀ {xs ys : List Char} {n m : Nat}, d.identifiers.scan xs = some n →
        d.identifiers.scan ys = some m → xs.take m = ys.take m → n ≤ m → n = m := by
      intro xs ys n m hn hm htake hle
      have hfirst := hlocal.take hm (hbounded ys m hm)
      rw [← htake] at hfirst
      rw [← List.take_append_drop m xs] at hn
      have hlen : n ≤ (xs.take m).length := by
        have := hbounded _ n hn
        rw [List.take_append_drop] at this
        rw [List.length_take]
        omega
      have hsecond := hlocal _ _ n hn hlen
      exact Option.some.inj (hsecond.symm.trans hfirst)
    rcases Nat.le_total n m with hle | hle
    · obtain rfl := hcut hn hm hnew hle
      rw [hold]
    · obtain rfl := hcut hm hn hold hle
      rw [hold]

/-- Identifiers are spelled alike where only spaces are replaced inside them. -/
theorem squeezed_tells (hd : d.language.memberOrder = .typeFirst) :
    squeezed.Tells d (Replaceable d document cs ds) cs ds where
  old h hinside := h.2.resolve_right fun hout => hout.1 hinside
  new h hinside := h.2.resolve_right fun hout => hout.2 hinside
  word := by
    intro p q n m h hn hm
    have hrespaced := (IdentifierStyle.scan_relaid (Dialect.solidMarks hd) h hn hm
      (fun i b j b' hp hlen hok => hok.2.resolve_right fun hout => hout.1 ⟨p, n, hn, hp, hlen⟩)
      (fun i b j b' hp hlen hok => hok.2.resolve_right fun hout => hout.2 ⟨q, m, hm, hp, hlen⟩)).1
    have hword : ∀ {xs : List Char} {n : Nat}, d.identifiers.scan xs = some n →
        squeezed.word (String.ofList (xs.take n)) = String.ofList (squeeze (xs.take n)) := by
      intro xs n hn
      obtain ⟨t, ht⟩ := IdentifierStyle.exists_spells hn
      have htame := d.tame_identifiers
      have hunmarked := Dialect.unmarked_identifiers hd
      have hparse := IdentifierStyle.parse_of_spells htame ht (hunmarked _)
      have hsqueezed := IdentifierStyle.parse_of_spells htame (ht.squeeze htame.toSolidMarks)
        (hunmarked _)
      simp only [squeezed, String.toList_ofList, hparse, hsqueezed, if_true]
    rw [hword hn, hword hm, hrespaced.squeeze_eq]

end Spelling

namespace Discovery

/-- In C# and Java the layout of a text without line comments and directives is free.  Where runs
of blank characters outside string literals, comments and identifiers are replaced by other ones,
the text has a token tree again, and the same declarations with the same members are found in it.
Inside an identifier, between its angle brackets, runs of spaces may still be replaced by runs of
spaces; what is found then is the same up to the spaces in names. -/
theorem declarations_relaid (hd : d.language = .csharp ∨ d.language = .java) {text : String}
    {document : TokenTree} (h : TokenTree.read d text = .ok document)
    (hfree : Freeform text.toList 0 text.toList.length document.children) :
    (∀ text' : String, Relaid (Breakable d document text.toList text'.toList) 0 text.toList
        0 text'.toList →
      ∃ document', TokenTree.read d text' = .ok document' ∧
        Spelling.exact.declarations (ofDocument d.language document') =
          Spelling.exact.declarations (ofDocument d.language document)) ∧
      ∀ text' : String, Relaid (Replaceable d document text.toList text'.toList) 0 text.toList
          0 text'.toList →
        ∃ document', TokenTree.read d text' = .ok document' ∧
          Spelling.squeezed.declarations (ofDocument d.language document') =
            Spelling.squeezed.declarations (ofDocument d.language document) := by
  have horder : d.language.memberOrder = .typeFirst := by
    rcases hd with h | h <;> rw [h] <;> rfl
  constructor
  · intro text' hrelaid
    obtain ⟨document', hread, htree⟩ := TokenTree.read_relaid horder (Spelling.exact_tells horder) h
      hfree (fun _ _ _ _ hok => hok.1) hrelaid
    exact ⟨document', hread, Spelling.declarations_ofDocument _ horder htree⟩
  · intro text' hrelaid
    obtain ⟨document', hread, htree⟩ := TokenTree.read_relaid horder
      (Spelling.squeezed_tells horder) h hfree (fun _ _ _ _ hok => hok.1) hrelaid
    exact ⟨document', hread, Spelling.declarations_ofDocument _ horder htree⟩

/-- The opening brace on a line of its own. -/
theorem declarations_relaid_java :
    ∃ document, (Language.java = .csharp ∨ Language.java = .java) ∧
      TokenTree.read ⟨.java, 3⟩ "class A \x7b List<A> m; \x7d" = .ok document ∧
      Freeform "class A \x7b List<A> m; \x7d".toList 0 "class A \x7b List<A> m; \x7d".toList.length
        document.children ∧
      ∃ document', TokenTree.read ⟨.java, 3⟩ "class A\n\x7b List<A> m; \x7d" = .ok document' ∧
        Spelling.exact.declarations (ofDocument .java document') =
          Spelling.exact.declarations (ofDocument .java document) := by
  obtain ⟨document, hread, hplain⟩ := TokenTree.exists_read_of_any ⟨.java, 3⟩
    "class A \x7b List<A> m; \x7d"
    (fun document => (subtreesAll document.children).all fun t => !t.value.kind.isTrivial)
    (by decide +kernel)
  obtain ⟨hfree, hliteral⟩ : Freeform "class A \x7b List<A> m; \x7d".toList 0
      "class A \x7b List<A> m; \x7d".toList.length document.children ∧
      ∀ i, ¬ TokenTree.InLiteral document.children i :=
    Freeform.of_all hplain (by decide +kernel)
  refine ⟨document, .inr rfl, hread, hfree, ?_⟩
  refine (declarations_relaid (d := ⟨.java, 3⟩) (.inr rfl) hread hfree).1
    "class A\n\x7b List<A> m; \x7d" ?_
  have hold : "class A \x7b List<A> m; \x7d".toList = "class A".toList ++
      ([' '] ++ "\x7b List<A> m; \x7d".toList) := by decide +kernel
  have hnew : "class A\n\x7b List<A> m; \x7d".toList = "class A".toList ++
      (['\n'] ++ "\x7b List<A> m; \x7d".toList) := by decide +kernel
  have hoff : Breakable ⟨.java, 3⟩ document "class A \x7b List<A> m; \x7d".toList
      "class A\n\x7b List<A> m; \x7d".toList 7 [' '] 7 ['\n'] :=
    ⟨hliteral 7, IdentifierStyle.not_inside_of_all (by decide +kernel),
      IdentifierStyle.not_inside_of_all (by decide +kernel)⟩
  generalize hallowed : Breakable ⟨.java, 3⟩ document "class A \x7b List<A> m; \x7d".toList
      "class A\n\x7b List<A> m; \x7d".toList = allowed at hoff ⊢
  rw [hold, hnew]
  exact .append_left _ (.replace (.single rfl) (.single rfl) hoff (.refl _ _ _))

/-- A line break between type arguments is no part of an identifier, so that a field is lost. -/
theorem not_declarations_relaid :
    ¬ ∀ (text text' : String) (document : TokenTree),
      TokenTree.read ⟨.java, 3⟩ text = .ok document →
        Freeform text.toList 0 text.toList.length document.children →
        Relaid (fun p _ _ _ => ¬ TokenTree.InLiteral document.children p) 0 text.toList
          0 text'.toList →
        ∃ document', TokenTree.read ⟨.java, 3⟩ text' = .ok document' ∧
          Spelling.exact.declarations (ofDocument .java document') =
            Spelling.exact.declarations (ofDocument .java document) := by
  intro h
  let names (document : TokenTree) : List (List String) :=
    (ofDocument .java document).declarations.map (·.declaration.fields.map (·.name))
  obtain ⟨document, hread, hcheck⟩ := TokenTree.exists_read_of_any ⟨.java, 3⟩
    "class A \x7b Map<A, A> m; \x7d"
    (fun document => ((subtreesAll document.children).all fun t =>
      !t.value.kind.isTrivial) && names document == [["m"]]) (by decide +kernel)
  obtain ⟨other, hother, hlost⟩ := TokenTree.exists_read_of_any ⟨.java, 3⟩
    "class A \x7b Map<A,\nA> m; \x7d" (fun document => names document == [[]])
    (by decide +kernel)
  obtain ⟨hplain, hkept⟩ := Bool.and_eq_true_iff.1 hcheck
  obtain ⟨hfree, hliteral⟩ : Freeform "class A \x7b Map<A, A> m; \x7d".toList 0
      "class A \x7b Map<A, A> m; \x7d".toList.length document.children ∧
      ∀ i, ¬ TokenTree.InLiteral document.children i :=
    Freeform.of_all hplain (by decide +kernel)
  have hold : "class A \x7b Map<A, A> m; \x7d".toList = "class A \x7b Map<A,".toList ++
      ([' '] ++ "A> m; \x7d".toList) := by decide +kernel
  have hnew : "class A \x7b Map<A,\nA> m; \x7d".toList = "class A \x7b Map<A,".toList ++
      (['\n'] ++ "A> m; \x7d".toList) := by decide +kernel
  obtain ⟨document', hread', hsame⟩ := h "class A \x7b Map<A, A> m; \x7d"
    "class A \x7b Map<A,\nA> m; \x7d" document hread hfree (by
      rw [hold, hnew]
      exact .append_left _ (.replace (.single rfl) (.single rfl) (hliteral _)
        (.refl _ _ _)))
  obtain rfl : other = document' := Except.ok.inj (hother.symm.trans hread')
  have hnames : names other = names document := by
    have := congrArg (List.map fun d : Declaration TypeRef => d.fields.map (·.name)) hsame
    simpa [Spelling.declarations, Spelling.declaration, Spelling.field, Spelling.exact,
      Function.comp_def, names] using this
  rw [beq_iff_eq.1 hkept, beq_iff_eq.1 hlost] at hnames
  cases hnames

end Discovery

end Outline
