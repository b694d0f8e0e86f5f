import Outline.Source
import Outline.Tree.Rose

/-!
# Tokens and token trees

A token is a classified piece of source text.  The tokens of a text form a tree: a block, which
is the text between a bracket and its partner, owns the tokens inside it, and the document owns
everything.  All other tokens are leaves.
-/

namespace Outline

/-! ## Kinds of tokens -/

/-- What a token is. -/
inductive TokenKind where
  | document
  | comment
  | string
  | number
  | identifier
  | keyword
  | operator
  | separator
  | block
  deriving DecidableEq, Repr, Inhabited

namespace TokenKind

/-- Every kind. -/
def all : List TokenKind :=
  [document, comment, string, number, identifier, keyword, operator, separator, block]

/-- The name of the kind in output. -/
def text : TokenKind → String
  | document => "DOCUMENT"
  | comment => "COMMENT"
  | string => "STRING"
  | number => "NUMBER"
  | identifier => "IDENTIFIER"
  | keyword => "KEYWORD"
  | operator => "OPERATOR"
  | separator => "SEPARATOR"
  | block => "BLOCK"

/-- The kind with the given name. -/
def ofText? (s : String) : Option TokenKind := all.find? (·.text == s)

/-- Whether tokens of this kind own other tokens. -/
def isCompound : TokenKind → Bool
  | document | block => true
  | _ => false

/-- Comments and string literals, which most look-ups among siblings pass over. -/
def isTrivial : TokenKind → Bool
  | comment | string => true
  | _ => false

end TokenKind

/-! ## Tokens -/

/-- A classified piece of source text. -/
structure Token where
  /-- What the token is. -/
  kind : TokenKind
  /-- Where it stands in the source. -/
  span : Span
  /-- The text at that place; the document has none. -/
  text : String
  deriving DecidableEq, Repr, Inhabited

namespace Token

/-- Whether the token is a block opened by `bracket`. -/
def isBlock (t : Token) (bracket : Char) : Bool :=
  t.kind == .block && t.text.toList.head? == some bracket

/-- Whether the token is the keyword `word`. -/
def isKeyword (t : Token) (word : String) : Bool := t.kind == .keyword && t.text == word

/-- Whether the token is the operator `op`. -/
def isOperator (t : Token) (op : String) : Bool := t.kind == .operator && t.text == op

/-- Whether the token is the separator `sep`. -/
def isSeparator (t : Token) (sep : String) : Bool := t.kind == .separator && t.text == sep

/-- The text of a leaf, and of a compound token only its opening bracket. -/
def label (t : Token) : String :=
  if t.kind.isCompound then String.ofList (t.text.toList.take 1) else t.text

end Token

/-! ## Token trees -/

/-- A token with the tokens that it owns. -/
abbrev TokenTree := Rose Token

namespace TokenTree

/-- The kind of the token at the top. -/
abbrev kind (t : TokenTree) : TokenKind := t.value.kind

/-- The text of the token at the top. -/
abbrev text (t : TokenTree) : String := t.value.text

/-- The location of the token at the top. -/
abbrev span (t : TokenTree) : Span := t.value.span

/-- A token that owns no others. -/
def leaf (t : Token) : TokenTree := .node t []

/-- The nearest sibling after the one at `index` that satisfies `p`, with its index. -/
def next? (p : Token → Bool) (siblings : List TokenTree) (index : Nat) :
    Option (Nat × TokenTree) :=
  ((siblings.zipIdx.drop (index + 1)).find? (fun s => p s.1.value)).map Prod.swap

/-- The nearest sibling before the one at `index` that satisfies `p`, with its index. -/
def previous? (p : Token → Bool) (siblings : List TokenTree) (index : Nat) :
    Option (Nat × TokenTree) :=
  ((siblings.zipIdx.take index).reverse.find? (fun s => p s.1.value)).map Prod.swap

/-- The text of a leaf on one line: line ends are written as escapes. -/
def oneLine (s : String) : String :=
  String.ofList (s.toList.flatMap fun c =>
    if c == '\n' then ['\\', 'n'] else if c == '\r' then ['\\', 'r'] else [c])

/-- One line of the dump of a tree: the token at depth `depth`. -/
def dumpLine (depth : Nat) (t : Token) : String :=
  "".pushn ' ' (2 * depth) ++ t.kind.text ++ " " ++ toString (t.span.start.line + 1) ++ ":" ++
    toString (t.span.start.column + 1) ++ " " ++
    (if t.kind.isCompound then t.label else oneLine t.text) ++ "\n"

/-- The indented dump of a tree, one token per line. -/
def dump (t : TokenTree) : String :=
  String.join ((t.preorder 0).map fun (depth, token) => dumpLine depth token)

end TokenTree

end Outline
