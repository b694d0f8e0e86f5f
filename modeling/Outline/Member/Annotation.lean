import Outline.Declaration.Basic
import Outline.Language.Basic
import Outline.Text.Literal
import Outline.Token.Group

/-!
# Annotations

The arguments of an annotation, the annotations inside square brackets, and the skipping of
annotations in front of a member.
-/

namespace Outline

namespace Annotation

/-- The value of an argument: the text of a lone string literal without its quotes, or the text
of all tokens. -/
def argumentValue : List TokenTree → String
  | [t] => if t.kind == .string then Text.unquote t.text else t.text
  | ts => TokenTree.joined ts

/-- The name of an argument that is written with one, and its value. -/
def namedArgument? : List TokenTree → Option AnnotationArgument
  | name :: mark :: v :: vs =>
    if name.kind == .identifier && (mark.value.isOperator "=" || mark.value.isOperator ":") then
      some ⟨name.text, argumentValue (v :: vs)⟩
    else none
  | _ => none

/-- The arguments of the given groups, where `count` arguments without a name come before. -/
def argumentsFrom (count : Nat) : List (List TokenTree) → List AnnotationArgument
  | [] => []
  | group :: groups =>
    match namedArgument? group with
    | some a => a :: argumentsFrom count groups
    | none =>
      ⟨"arg" ++ toString (count + 1), argumentValue group⟩ :: argumentsFrom (count + 1) groups

/-- The arguments inside a block in parentheses. -/
def argumentsOf (block : TokenTree) : List AnnotationArgument :=
  argumentsFrom 0 (TokenTree.commaGroups block.children)

/-- The arguments in the block that may follow the name of an annotation. -/
def argumentsAfter : List TokenTree → List AnnotationArgument
  | t :: _ => if t.value.isBlock '(' then argumentsOf t else []
  | [] => []

/-- The annotation of one group inside square brackets, whose name may follow a target and a
colon. -/
def ofGroup? (group : List TokenTree) : Option Annotation :=
  let hasTarget := match group with
    | _ :: mark :: _ => mark.value.isOperator ":"
    | _ => false
  match group.drop (if hasTarget then 2 else 0) with
  | name :: rest =>
    if name.kind == .identifier then some ⟨name.text, argumentsAfter rest⟩ else none
  | [] => none

/-- The annotations inside a block in square brackets.  There are none if any of its groups is
no annotation, as in a list of parameters. -/
def ofBrackets (block : TokenTree) : List Annotation :=
  ((TokenTree.commaGroups block.children).mapM ofGroup?).getD []

end Annotation

/-- The place inside an annotation in front of a member that the reader of the member passes
over. -/
inductive AnnotationSkip where
  /-- The at sign is read and the name comes next. -/
  | name
  /-- The name is read and arguments may follow. -/
  | arguments
  deriving DecidableEq, Repr

namespace AnnotationSkip

/-- Passes over a token.  Answers the new place, and whether the token belongs to an
annotation. -/
def step (l : Language) (skip : Option AnnotationSkip) (t : Token) :
    Option AnnotationSkip × Bool :=
  match l.annotationStyle, skip with
  | .bracketed, skip => (skip, t.isBlock '[')
  | .atSign, none => if t.isSeparator "@" then (some name, true) else (none, false)
  | .atSign, some name => if t.kind == .identifier then (some arguments, true) else (none, false)
  | .atSign, some arguments => (none, t.isBlock '(')

end AnnotationSkip

end Outline
