import Outline.Language.Basic
import Outline.Text.Quoted

/-!
# Reading token trees

`TokenTree.read` turns a text into its token tree.  It walks over the text once: at each
character the innermost open block may end, a block may begin, or the first rule that matches
reads a leaf.

The reading fails at a character that no rule accepts, at a closing bracket that does not close
the innermost open block, and at the end of a text with an open block.
-/

namespace Outline

/-! ## Errors -/

/-- Why a text has no token tree. -/
inductive TokenError where
  /-- No rule accepts the character. -/
  | unrecognized (c : Char) (position : Position)
  /-- The block with the given opening bracket never ends. -/
  | unclosed (opening : Char) (position : Position)
  /-- The closing bracket does not close the innermost open block. -/
  | unexpectedClose (c : Char) (position : Position)
  deriving DecidableEq, Repr

namespace TokenError

/-- How the error reads. -/
def message : TokenError → String
  | unrecognized c p => "Unrecognized character " ++ Text.quotedChar c ++ " at " ++ p.text
  | unclosed c p => "Block opened with " ++ Text.quotedChar c ++ " at " ++ p.text ++
      " is never closed"
  | unexpectedClose c p => "Unexpected " ++ Text.quotedChar c ++ " at " ++ p.text

end TokenError

/-! ## Matches -/

/-- What a rule makes of the front of a text. -/
inductive RuleMatch where
  /-- A block begins that ends with the given bracket. -/
  | opens (closing : Char)
  /-- So many characters are read, to be used as the classifier says. -/
  | reads (length : Nat) (classifier : Classifier)
  deriving DecidableEq, Repr

namespace Rule

/-- The match of a rule at the front of a text. -/
def match? (r : Rule) (cs : List Char) : Option RuleMatch :=
  match r.recognizer with
  | .block opening closing => if cs.head? == some opening then some (.opens closing) else none
  | leaf => (leaf.scan cs).map (.reads · r.classifier)

end Rule

namespace RuleSet

/-- The match of the first rule that matches at the front of the text `c :: cs`. -/
def match? (s : RuleSet) (c : Char) (cs : List Char) : Option RuleMatch :=
  (s.candidateRules c).findSome? (·.match? (c :: cs))

end RuleSet

namespace Classifier

/-- The kind of the token with the given text, if it is one. -/
def kind? (l : Language) (text : String) : Classifier → Option TokenKind
  | ofKind kind => some kind
  | keywordOrIdentifier => some (if l.isKeyword text then .keyword else .identifier)
  | discard => none

end Classifier

/-! ## The walk -/

/-- A block whose end has not been reached. -/
structure OpenBlock where
  /-- Its opening bracket. -/
  opening : Char
  /-- The bracket that ends it. -/
  closing : Char
  /-- The offset of the opening bracket. -/
  start : Nat
  /-- The text from the opening bracket on. -/
  rest : List Char
  /-- The trees before the block on its level, the last one first. -/
  before : List TokenTree

namespace OpenBlock

/-- The tree of the block with the given inner trees, the last one first, which ends before
the offset `stop`. -/
def tree (b : OpenBlock) (source : Source) (inner : List TokenTree) (stop : Nat) : TokenTree :=
  let len := stop - b.start
  .node ⟨.block, source.span b.start len, String.ofList (b.rest.take len)⟩ inner.reverse

end OpenBlock

namespace TokenTree

/-- Reads the text that is left at the offset `pos`.  The trees of the level that is being read
are in `done`, the last one first, and the blocks around it in `outer`, the innermost first. -/
def readFrom (l : Language) (rules : RuleSet) (source : Source) (outer : List OpenBlock)
    (done : List TokenTree) (pos : Nat) : List Char → Except TokenError (List TokenTree)
  | [] =>
    match outer with
    | [] => .ok done.reverse
    | b :: _ => .error (.unclosed b.opening (source.position b.start))
  | c :: cs =>
    match outer, outer.head?.any (·.closing == c) with
    | b :: outer, true =>
      readFrom l rules source outer (b.tree source done (pos + 1) :: b.before) (pos + 1) cs
    | outer, _ =>
      if rules.isCloser c then .error (.unexpectedClose c (source.position pos))
      else match rules.match? c cs with
        | none => .error (.unrecognized c (source.position pos))
        | some (.opens closing) =>
          readFrom l rules source (⟨c, closing, pos, c :: cs, done⟩ :: outer) [] (pos + 1) cs
        | some (.reads len classifier) =>
          let text := String.ofList ((c :: cs).take len)
          let done := match classifier.kind? l text with
            | some kind => leaf ⟨kind, source.span pos len, text⟩ :: done
            | none => done
          readFrom l rules source outer done (pos + len) (cs.drop (len - 1))
termination_by cs => cs.length
decreasing_by
  all_goals simp only [List.length_cons, List.length_drop]
  all_goals omega

/-- The document that owns the given trees. -/
def document (source : Source) (trees : List TokenTree) : TokenTree :=
  .node ⟨.document, source.span 0 source.length, ""⟩ trees

/-- The token tree of a text. -/
def read (d : Dialect) (text : String) : Except TokenError TokenTree :=
  let source := Source.ofString text
  (readFrom d.language d.ruleSet source [] [] 0 source.chars).map (document source)

/-- The number of tokens of a tree without the one at the top. -/
def tokenCount (t : TokenTree) : Nat := t.size - 1

end TokenTree

end Outline
