import Outline.Member.Annotation
import Outline.Member.Owner
import Outline.Member.TypeMachine

/-!
# Recognizing the constants of an enumeration

The machine that reads constants.  A constant is a name, after which a value may stand behind an
equals sign, or arguments in parentheses and bodies in braces.  A comma ends the constant, a
semicolon ends the list of constants, and so does the end of the body.
-/

namespace Outline

/-- What is known of the constant that is being read. -/
structure EnumMemberDraft where
  /-- The name. -/
  name : String
  /-- The block of its arguments. -/
  arguments? : Option TokenTree := none
  /-- The tokens of its value. -/
  value : List TokenTree := []
  deriving Repr

namespace EnumMemberDraft

/-- The constant that has been read.  Its value is the text behind the equals sign or else that
of the arguments. -/
def enumMember (d : EnumMemberDraft) (o : Owner) (annotations : List Annotation)
    (comments : List String) : EnumMember where
  name := d.name
  fullName := o.memberName d.name
  value? :=
    if d.value.isEmpty then d.arguments?.map (fun block => TokenTree.joined block.children)
    else some (TokenTree.joined d.value)
  annotations := annotations
  comments := comments

end EnumMemberDraft

/-- How much of a constant is read. -/
inductive EnumMemberStage where
  /-- The annotations are read. -/
  | head (skip : Option AnnotationSkip)
  /-- The name is read. -/
  | afterName (draft : EnumMemberDraft)
  /-- The value is being read. -/
  | value (draft : EnumMemberDraft)
  /-- The constant has ended. -/
  | complete (draft : EnumMemberDraft)
  /-- There is no constant. -/
  | failed
  deriving Repr

/-- The state of the machine that reads a constant. -/
structure EnumMemberMachine where
  /-- How much of the constant is read. -/
  stage : EnumMemberStage := .head none
  /-- Whether the list of constants has ended. -/
  listEnded : Bool := false
  deriving Repr

namespace EnumMemberMachine

/-- Whether nothing is read. -/
def isIdle (m : EnumMemberMachine) : Bool :=
  match m.stage with
  | .head none => true
  | _ => false

/-- Whether the constant has ended. -/
def isComplete (m : EnumMemberMachine) : Bool :=
  match m.stage with
  | .complete _ => true
  | _ => false

/-- Whether there is no constant. -/
def isFailed (m : EnumMemberMachine) : Bool :=
  match m.stage with
  | .failed => true
  | _ => false

/-- The state in which nothing is read.  The end of the list of constants is not forgotten. -/
def reset (m : EnumMemberMachine) : EnumMemberMachine := { m with stage := .head none }

/-- Whether a token names a constant. -/
def isConstantName (t : Token) : Bool :=
  t.kind == .identifier && !t.text.toList.any (['.', '<'].contains ·)

/-- Offers a token to the machine.  Comments are left for others, and so is everything after the
end of the list. -/
def accept (o : Owner) (m : EnumMemberMachine) (t : TokenTree) : Step EnumMemberMachine :=
  if m.listEnded || t.kind == .comment then .leave m
  else match m.stage with
    | .head skip =>
      match AnnotationSkip.step o.language skip t.value with
      | (skip, true) => .take { m with stage := .head skip }
      | (skip, false) =>
        if isConstantName t.value then .take { m with stage := .afterName { name := t.text } }
        else if t.value.isSeparator ";" then .take { stage := .head skip, listEnded := true }
        else .leave { m with stage := .head skip }
    | .afterName d =>
      if t.value.isSeparator "," then .take { m with stage := .complete d }
      else if t.value.isSeparator ";" then .take { stage := .complete d, listEnded := true }
      else if t.value.isOperator "=" then .take { m with stage := .value d }
      else if t.value.isBlock '(' && d.arguments?.isNone then
        .take { m with stage := .afterName { d with arguments? := some t } }
      else if t.value.isBlock '\x7b' then .take m
      else .leave { m with stage := .failed }
    | .value d =>
      if t.value.isSeparator "," then .take { m with stage := .complete d }
      else if t.value.isSeparator ";" then .take { stage := .complete d, listEnded := true }
      else .take { m with stage := .value { d with value := d.value ++ [t] } }
    | .complete _ | .failed => .leave m

/-- The end of the body, which also ends a constant. -/
def bodyEnd (m : EnumMemberMachine) : EnumMemberMachine :=
  match m.stage with
  | .afterName d | .value d => { m with stage := .complete d }
  | _ => m

end EnumMemberMachine

end Outline
