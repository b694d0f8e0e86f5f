import Outline.Language.Basic
import Outline.TypeRef.Parse

/-!
# Recognizing a type

The machine that reads the type of a member from the tokens of a declaration.  A type is a type
keyword or an identifier, after which a question mark or `...` may stand.  Where the name comes
first, a type may also be an object type, a literal, a function type, or a union, in which only
the first alternative and the alternatives `null` and `undefined` count.

The machine usually knows that the type has ended only at the token after it, which it leaves
for others.
-/

namespace Outline

/-- A text in the place of a type that is none. -/
structure MalformedType where
  /-- The text. -/
  text : String
  /-- Why it is no type. -/
  error : TypeError
  deriving DecidableEq, Repr

/-- What a machine makes of a token. -/
structure Step (σ : Type) where
  /-- The state after the token. -/
  state : σ
  /-- Whether the token is used up. -/
  taken : Bool
  /-- The texts in the place of a type that are none. -/
  malformed : List MalformedType := []
  deriving Repr

namespace Step

variable {σ τ : Type}

/-- The step to a state that uses the token up. -/
def take (state : σ) : Step σ := ⟨state, true, []⟩

/-- The step to a state that leaves the token for others. -/
def leave (state : σ) : Step σ := ⟨state, false, []⟩

/-- The same step of another machine. -/
def map (f : σ → τ) (s : Step σ) : Step τ := ⟨f s.state, s.taken, s.malformed⟩

/-- Notes malformed types before those of the step. -/
def after (malformed : List MalformedType) (s : Step σ) : Step σ :=
  { s with malformed := malformed ++ s.malformed }

end Step

/-- The state of the machine that reads a type. -/
inductive TypeMachine where
  /-- Nothing is read. -/
  | idle
  /-- A type is read and marks may follow. -/
  | found (type : TypeRef)
  /-- The mark of a union is read. -/
  | union (type : TypeRef)
  /-- The parameters of a function type are read. -/
  | functionParams
  /-- The arrow of a function type is read. -/
  | functionArrow
  /-- The type has ended. -/
  | complete (type : TypeRef)
  /-- There is no type. -/
  | failed
  deriving DecidableEq, Repr

namespace TypeMachine

/-- Whether nothing is read. -/
def isIdle : TypeMachine → Bool
  | idle => true
  | _ => false

/-- Whether the type has ended. -/
def isComplete : TypeMachine → Bool
  | complete _ => true
  | _ => false

/-- Whether there is no type. -/
def isFailed : TypeMachine → Bool
  | failed => true
  | _ => false

/-- The type that has ended. -/
def type? : TypeMachine → Option TypeRef
  | complete t => some t
  | _ => none

/-- Whether a token may start a type; `void` counts as one if `allowVoid`. -/
def starts (l : Language) (allowVoid : Bool) (t : Token) : Bool :=
  match t.kind with
  | .identifier => true
  | .keyword => l.has .type t.text || (allowVoid && t.text == "void")
  | .block => l.memberOrder == .nameFirst && (t.isBlock '\x7b' || t.isBlock '(')
  | .string | .number => l.memberOrder == .nameFirst
  | _ => false

/-- The step of finding a type with the given text. -/
def find (text : String) : Step TypeMachine :=
  match TypeRef.parse text with
  | .ok t => .take (found t)
  | .error e => ⟨failed, true, [⟨text, e⟩]⟩

/-- The text of the type that a token starts. -/
def startText (t : Token) : String :=
  match t.kind with
  | .block => "object"
  | .string => "string"
  | .number => "number"
  | _ => t.text

/-- Offers a token to the machine. -/
def accept (l : Language) (allowVoid : Bool) (m : TypeMachine) (t : Token) : Step TypeMachine :=
  match m with
  | idle =>
    if !starts l allowVoid t then .leave failed
    else if t.isBlock '(' then .take functionParams
    else find (startText t)
  | found type =>
    if l.memberOrder == .typeFirst && t.isOperator "?" then
      .take (complete { type with nullable := true })
    else if t.isOperator "..." then
      .take (complete { type with dimensions := type.dimensions + 1 })
    else if l.memberOrder == .nameFirst && t.isOperator "|" then .take (union type)
    else .leave (complete type)
  | union type =>
    if t.isKeyword "null" || t.isKeyword "undefined" then
      .take (found { type with nullable := true })
    else if !starts l allowVoid t || t.isBlock '(' then .leave failed
    else .take (found type)
  | functionParams => if t.isOperator "=>" then .take functionArrow else .leave failed
  | functionArrow =>
    if starts l allowVoid t || t.isKeyword "void" then find "Function" else .leave failed
  | complete type => .leave (complete type)
  | failed => .leave failed

/-- The end of the tokens: a type that is read has ended. -/
def finish : TypeMachine → TypeMachine
  | found t | complete t => complete t
  | _ => failed

/-- Reads a type from the front of a list of tokens.  Answers the state at its end, the tokens
that are left, and the malformed types. -/
def readFrom (l : Language) (allowVoid : Bool) (m : TypeMachine) :
    List TokenTree → TypeMachine × List TokenTree × List MalformedType
  | [] => (m, [], [])
  | t :: ts =>
    let s := m.accept l allowVoid t.value
    if !s.taken then (s.state, t :: ts, s.malformed)
    else if s.state.isComplete || s.state.isFailed then (s.state, ts, s.malformed)
    else
      let (m, rest, malformed) := readFrom l allowVoid s.state ts
      (m, rest, s.malformed ++ malformed)

/-- Reads the type at the front of a list of tokens, with the tokens after it. -/
def read (l : Language) (ts : List TokenTree) :
    Option (TypeRef × List TokenTree) × List MalformedType :=
  let (m, rest, malformed) := readFrom l false idle ts
  (m.finish.type?.map (·, rest), malformed)

end TypeMachine

end Outline
