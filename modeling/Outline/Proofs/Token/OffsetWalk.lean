import Outline.Proofs.Token.Growth
import Outline.Proofs.Token.Offsets

/-!
# The walk over a text by offsets

`TokenTree.growFrom` drops what it has read of a text.  Here the same walk keeps an offset into the
text, has one step for each turn, and cuts out the texts of tokens between two offsets.

* `Recognizer.scanAt_eq` — every recognizer scans inside the text.
* `TokenTree.growAt_eq` — a walk with one step for every character left has no fault, and grows the
  same tree as the walk that drops what it has read.
* `TokenTree.scans_within_text` — both, with the bounds of every match.
-/

namespace Outline

open Text (isBlank isLineEnd)
open TokenTree (drop_succ_of_drop)

variable {cs rest : List Char} {i pos : Nat}

/-! ## Recognizers -/

namespace Recognizer

/-- The offset behind the first occurrence of `closing` from the offset `i` on. -/
def throughAt (closing cs : List Char) (i : Nat) : Except Fault (Option Nat) := do
  if i < cs.length then
    if ← wordAt cs closing i then return some (i + closing.length)
    else throughAt closing cs (i + 1)
  else return none
termination_by cs.length - i

/-- Those of the words that stand at the offset `pos`. -/
def standingAt (cs : List Char) (pos : Nat) : List String → Except Fault (List String)
  | [] => return []
  | w :: words => do
    if ← wordAt cs w.toList pos then return w :: (← standingAt cs pos words)
    else standingAt cs pos words

/-- The offset behind the longest of the words that stand at the offset `pos`. -/
def longestAt (words : List String) (cs : List Char) (pos : Nat) :
    Except Fault (Option Nat) := do
  return ((← standingAt cs pos words).map (·.length)).max?.map (pos + ·)

/-- The offset behind what the recognizer reads at the offset `pos`, possibly nothing. -/
def stopAt (r : Recognizer) (cs : List Char) (pos : Nat) : Except Fault (Option Nat) := do
  match r with
  | whitespace => return some (← runAt isBlank cs pos)
  | lineComment opening =>
    if ← wordAt cs opening.toList pos then
      return some (← runAt (fun c => !isLineEnd c) cs (pos + opening.length))
    else return none
  | blockComment opening closing =>
    if ← wordAt cs opening.toList pos then throughAt closing.toList cs (pos + opening.length)
    else return none
  | string style => style.stopAt cs pos
  | block _ _ => return none
  | identifier style => style.stopAt cs pos
  | operators words | separators words => longestAt words cs pos
  | number => NumberLiteral.stopAt cs pos
  | directive mark =>
    if (← lookAt cs pos) == some mark then return some (← runAt (fun c => !isLineEnd c) cs pos)
    else return none

/-- The number of characters of the match at the offset `pos`. -/
def scanAt (r : Recognizer) (cs : List Char) (pos : Nat) : Except Fault (Option Nat) := do
  return (← r.stopAt cs pos).bind fun stop => if pos < stop then some (stop - pos) else none

theorem throughAt_eq (closing : List Char) (h : cs.drop i = rest) :
    throughAt closing cs i = pure ((scanThrough closing rest).map (i + ·)) := by
  induction rest generalizing i with
  | nil => rw [throughAt, if_neg (not_lt_length_of_drop h)]; rfl
  | cons c rest ih =>
      rw [throughAt, if_pos (lt_length_of_drop h), wordAt_eq, pure_bind, h, scanThrough]
      split
      · rfl
      · rw [ih (drop_succ_of_drop h).1, map_add_map]

theorem standingAt_eq (cs : List Char) (pos : Nat) (words : List String) :
    standingAt cs pos words = pure (words.filter fun w => w.toList.isPrefixOf (cs.drop pos)) := by
  induction words with
  | nil => rfl
  | cons w words ih =>
      rw [standingAt, wordAt_eq, pure_bind, ih, List.filter_cons]
      split <;> rfl

theorem longestAt_eq (words : List String) (cs : List Char) :
    ScansAs cs (longestAt words cs) (longestWord words) := by
  intro pos
  rw [longestAt, standingAt_eq, pure_bind, longestWord]

theorem stopAt_eq (r : Recognizer) (cs : List Char) : ScansAs cs (r.stopAt cs) r.read := by
  intro pos
  cases r with
  | whitespace => rw [stopAt, runAt_eq _ rfl]; rfl
  | lineComment opening =>
      rw [stopAt, read, wordAt_eq, pure_bind, runAt_eq _ (drop_add_eq rfl _)]
      split
      · rw [pure_bind, Option.map_some, restOfLine, Nat.add_assoc]
      · rfl
  | blockComment opening closing =>
      rw [stopAt, read, wordAt_eq, pure_bind, throughAt_eq _ (drop_add_eq rfl _)]
      split
      · rw [map_add_map_left]
      · rfl
  | string style => exact style.stopAt_eq cs pos
  | block opening closing => rfl
  | identifier style => exact style.stopAt_eq cs pos
  | operators words => exact longestAt_eq words cs pos
  | separators words => exact longestAt_eq words cs pos
  | number => exact NumberLiteral.stopAt_eq cs pos
  | directive mark =>
      rw [stopAt, read, lookAt_eq, pure_bind, List.head?_drop, runAt_eq _ rfl]
      split <;> rfl

/-- Scanning at an offset answers what scanning the text from there answers. -/
theorem scanAt_eq (r : Recognizer) (cs : List Char) (pos : Nat) :
    r.scanAt cs pos = pure (r.scan (cs.drop pos)) := by
  rw [scanAt, stopAt_eq r cs pos, pure_bind, scan]
  cases r.read (cs.drop pos) with
  | none => rfl
  | some n =>
      simp only [Option.map_some, Option.bind_some, Option.filter_some, Nat.lt_add_right_iff_pos,
        Nat.add_sub_cancel_left, decide_eq_true_eq]

end Recognizer

/-! ## Rules -/

namespace Rule

/-- The match of a rule at the offset `pos`. -/
def matchAt (r : Rule) (cs : List Char) (pos : Nat) : Except Fault (Option RuleMatch) := do
  match r.recognizer with
  | .block opening closing =>
    return if (← lookAt cs pos) == some opening then some (.opens closing) else none
  | leaf => return (← leaf.scanAt cs pos).map (.reads · r.classifier)

theorem matchAt_eq (r : Rule) (h : cs.drop pos = rest) :
    r.matchAt cs pos = pure (r.match? rest) := by
  rw [matchAt]
  split
  · rename_i hblock
    rw [lookAt_eq, pure_bind, match?, hblock, ← h, List.head?_drop]
  · rename_i hleaf
    rw [match?_leaf hleaf, Recognizer.scanAt_eq, h, pure_bind]

end Rule

namespace RuleSet

/-- The match of the first rule that matches at the offset `pos`, where the character `c`
stands. -/
def matchAt (s : RuleSet) (c : Char) (cs : List Char) (pos : Nat) :
    Except Fault (Option RuleMatch) :=
  (s.candidateRules c).findSomeM? fun r => r.matchAt cs pos

theorem matchAt_eq (s : RuleSet) {c : Char} (h : cs.drop pos = c :: rest) :
    s.matchAt c cs pos = pure (s.match? c rest) := by
  rw [matchAt, match?, ← List.findSomeM?_pure]
  congr 1
  funext r
  exact r.matchAt_eq h

end RuleSet

/-! ## The walk -/

namespace TokenTree

/-- Adds a block below the root and moves the tokens inside it below the block. -/
def enclose (t : Tree Token) (block : Token) : Tree Token :=
  ((t.push 0 block).adopt 0 t.nextName fun inner => block.span.contains inner.span).1

/-- The result at the end of the text. -/
def ended (source : Source) (t : Tree Token) : List OpenBracket → Except TokenError (Tree Token)
  | [] => .ok t
  | b :: _ => .error (.unclosed b.opening (source.position b.start))

/-- Reads the text from the offset `pos` on into the tree `t`, in at most `steps` turns. -/
def growAt (l : Language) (rules : RuleSet) (source : Source) (steps : Nat)
    (outer : List OpenBracket) (t : Tree Token) (pos : Nat) :
    Except Fault (Except TokenError (Tree Token)) := do
  if pos < source.chars.length then
    match steps with
    | 0 => throw .steps
    | steps + 1 =>
      let c ← charAt source.chars pos
      match outer, outer.head?.any (·.closing == c) with
      | b :: outer, true =>
        let text ← pieceAt source.chars b.start (pos + 1)
        let block := ⟨.block, source.span b.start (pos + 1 - b.start), String.ofList text⟩
        growAt l rules source steps outer (enclose t block) (pos + 1)
      | outer, _ =>
        if rules.isCloser c then return .error (.unexpectedClose c (source.position pos))
        else match ← rules.matchAt c source.chars pos with
          | none => return .error (.unrecognized c (source.position pos))
          | some (.opens closing) =>
            growAt l rules source steps (⟨c, closing, pos⟩ :: outer) t (pos + 1)
          | some (.reads len classifier) =>
            let text := String.ofList (← pieceAt source.chars pos (pos + len))
            let grown := match classifier.kind? l text with
              | some kind => t.push 0 ⟨kind, source.span pos len, text⟩
              | none => t
            growAt l rules source steps outer grown (pos + len)
  else return ended source t outer

variable {l : Language} {rules : RuleSet} {source : Source}

theorem growAt_end (steps : Nat) (outer : List OpenBracket) (t : Tree Token)
    (h : source.chars.drop pos = []) :
    growAt l rules source steps outer t pos = pure (growFrom l rules source outer t pos []) := by
  unfold growAt
  rw [if_neg (not_lt_length_of_drop h)]
  cases outer <;> (rw [growFrom]; rfl)

/-- A bracket that ends the innermost open block.  The piece of the block lies in the text. -/
theorem growAt_close {b : OpenBracket} (steps : Nat) (outer : List OpenBracket) (t : Tree Token)
    (h : source.chars.drop pos = b.closing :: rest) (hb : b.start ≤ pos) :
    growAt l rules source (steps + 1) (b :: outer) t pos =
      growAt l rules source steps outer (growBlock source t b.start (pos + 1)) (pos + 1) := by
  have hlt := lt_length_of_drop h
  rw [growAt.eq_def, if_pos hlt]
  simp only [charAt_of_drop h, pure_bind, List.head?_cons, Option.any_some, beq_self_eq_true,
    pieceAt_eq (Nat.le_succ_of_le hb) hlt]
  rfl

/-- Any other character.  The piece that a rule reads lies in the text. -/
theorem growAt_other {outer : List OpenBracket} {c : Char} (steps : Nat) (t : Tree Token)
    (h : source.chars.drop pos = c :: rest) (hc : outer.head?.any (·.closing == c) = false) :
    growAt l rules source (steps + 1) outer t pos =
      if rules.isCloser c then pure (.error (.unexpectedClose c (source.position pos)))
      else match rules.match? c rest with
        | none => pure (.error (.unrecognized c (source.position pos)))
        | some (.opens closing) =>
          growAt l rules source steps (⟨c, closing, pos⟩ :: outer) t (pos + 1)
        | some (.reads len classifier) =>
          growAt l rules source steps outer
            (match classifier.kind? l (String.ofList ((c :: rest).take len)) with
              | some kind =>
                t.push 0 ⟨kind, source.span pos len, String.ofList ((c :: rest).take len)⟩
              | none => t) (pos + len) := by
  rw [growAt.eq_def, if_pos (lt_length_of_drop h)]
  simp only [charAt_of_drop h, pure_bind, hc, rules.matchAt_eq h]
  congr 1
  cases hfound : rules.match? c rest with
  | none => rfl
  | some m =>
      cases m with
      | opens closing => rfl
      | reads len classifier =>
          obtain ⟨-, hlenpos, hlen⟩ := RuleSet.match?_reads hfound
          obtain ⟨-, hstop⟩ := drop_add_of_drop h hlenpos hlen
          dsimp only
          rw [pieceAt_eq (Nat.le_add_right pos len) hstop, h, Nat.add_sub_cancel_left, pure_bind]

/-- A walk with one step for every character left, in which every open block starts behind what
has been read, ends without a fault and answers what the walk over the rest answers. -/
theorem growAt_eq {steps : Nat} {outer : List OpenBracket} (t : Tree Token)
    (hsteps : source.chars.length ≤ pos + steps) (houter : ∀ b ∈ outer, b.start ≤ pos)
    (h : source.chars.drop pos = rest) :
    growAt l rules source steps outer t pos = pure (growFrom l rules source outer t pos rest) := by
  induction steps generalizing outer t pos rest with
  | zero =>
      obtain rfl : rest = [] := by rw [← h, List.drop_eq_nil_iff]; omega
      exact growAt_end 0 outer t h
  | succ steps ih =>
      cases rest with
      | nil => exact growAt_end (steps + 1) outer t h
      | cons c rest =>
          obtain ⟨htail, -, -⟩ := drop_succ_of_drop h
          have hpast : ∀ b ∈ outer, b.start ≤ pos + 1 :=
            fun b hb => Nat.le_succ_of_le (houter b hb)
          by_cases hc : outer.head?.any (·.closing == c) = true
          · obtain ⟨b, outer, rfl⟩ : ∃ b rest, outer = b :: rest := by
              cases outer with
              | nil => simp at hc
              | cons b rest => exact ⟨b, rest, rfl⟩
            obtain rfl : b.closing = c := by simpa using hc
            rw [growAt_close steps outer t h (houter b (List.mem_cons_self ..)), growFrom_close]
            exact ih _ (by omega) (fun b hb => hpast b (List.mem_cons_of_mem _ hb)) htail
          · rw [Bool.not_eq_true] at hc
            rw [growAt_other steps t h hc, growFrom_other t pos rest hc]
            cases rules.isCloser c with
            | true => rfl
            | false =>
                simp only [Bool.false_eq_true, if_false]
                cases hfound : rules.match? c rest with
                | none => rfl
                | some m =>
                    cases m with
                    | opens closing =>
                        exact ih t (by omega)
                          (List.forall_mem_cons.2 ⟨Nat.le_succ pos, hpast⟩) htail
                    | reads len classifier =>
                        -- the rest is shorter by at least one character
                        obtain ⟨-, hlenpos, hlen⟩ := RuleSet.match?_reads hfound
                        obtain ⟨hafter, -⟩ := drop_add_of_drop h hlenpos hlen
                        exact ih _ (by omega) (fun b hb => (houter b hb).trans (by omega)) hafter

/-- Every scan of every recognizer at every place of a text reads inside the text, and what it
matches is not empty and ends in the text.  So a walk over a text, whatever the rules, ends after
at most one turn for each character, and every piece that it cuts out lies in the text; what it
grows is the token tree of the text, if there is a name for each token. -/
theorem scans_within_text :
    (∀ (r : Recognizer) (cs : List Char) (pos : Nat),
      r.scanAt cs pos = .ok (r.scan (cs.drop pos)) ∧
        ∀ n, r.scan (cs.drop pos) = some n → 1 ≤ n ∧ pos + n ≤ cs.length) ∧
    (∀ (l : Language) (rules : RuleSet) (source : Source) (t : Tree Token),
      growAt l rules source source.chars.length [] t 0 =
        .ok (growFrom l rules source [] t 0 source.chars)) ∧
    ∀ (d : Dialect) (text : String),
      (∀ e, read d text = .error e → grow d text = .error e) ∧
      ∀ doc, read d text = .ok doc → ∃ t, grow d text = .ok t ∧ t.size = doc.size ∧
        (doc.size ≤ Tree.width → t.toRose? = some doc ∧ t.Linked) := by
  refine ⟨fun r cs pos => ⟨r.scanAt_eq cs pos, fun n hscan => ?_⟩, fun l rules source t => ?_,
    fun d text => ⟨fun e => grow_of_error, fun doc => exists_grow_of_read⟩⟩
  · obtain ⟨hpos, hlen⟩ := Recognizer.scan_bounds hscan
    rw [List.length_drop] at hlen
    omega
  · exact growAt_eq t (Nat.le_add_left _ _) (fun _ hb => absurd hb (List.not_mem_nil)) rfl

/-- A number with an exponent and a suffix at the end of a text. -/
theorem scans_within_text_number :
    Recognizer.number.scanAt "x=1.5e-3f".toList 2 = .ok (some 7) ∧ 1 ≤ 7 ∧
      2 + 7 ≤ "x=1.5e-3f".toList.length := by
  obtain ⟨hscan, hbounds⟩ := scans_within_text.1 .number "x=1.5e-3f".toList 2
  have hseven : Recognizer.number.scan ("x=1.5e-3f".toList.drop 2) = some 7 := by decide
  exact ⟨hscan.trans (congrArg Except.ok hseven), hbounds 7 hseven⟩

end TokenTree

end Outline
