import Outline.Member.Annotation
import Outline.Member.TypeMachine

/-!
# Parameters

The parameters inside the parentheses after the name of a method.  A list in which one parameter
has not the expected shape is no list of parameters.
-/

namespace Outline

/-- A reading that notes the malformed types it meets, also when it fails. -/
abbrev Noted (α : Type) := Option α × List MalformedType

namespace Parameter

/-! ## Parts of a parameter -/

/-- The annotations and modifiers in front of a parameter, and the tokens after them. -/
structure Lead where
  /-- The annotations. -/
  annotations : List Annotation := []
  /-- The modifiers. -/
  modifiers : List String := []
  /-- The tokens after them. -/
  rest : List TokenTree

/-- Takes the block of arguments that may follow the name of an annotation. -/
def dropArguments : List TokenTree → List TokenTree
  | t :: ts => if t.value.isBlock '(' then ts else t :: ts
  | [] => []

theorem length_dropArguments_le (ts : List TokenTree) :
    (dropArguments ts).length ≤ ts.length := by
  unfold dropArguments
  split
  · split <;> simp
  · simp

/-- Reads the annotations and modifiers in front of the parameter at the given place of its list.
Square brackets hold annotations only if a type and a name can still follow. -/
def lead (l : Language) (place : Nat) : List TokenTree → Lead
  | [] => { rest := [] }
  | t :: ts =>
    if t.value.isBlock '[' && l.memberOrder == .typeFirst && 2 ≤ ts.length then
      let after := lead l place ts
      { after with annotations := Annotation.ofBrackets t ++ after.annotations }
    else if t.value.isSeparator "@" then
      match ts with
      | [] => { rest := [t] }
      | name :: ts =>
        let after := lead l place (dropArguments ts)
        let a : Annotation := ⟨name.text, Annotation.argumentsAfter ts⟩
        { after with annotations := a :: after.annotations }
    else if t.kind == .keyword && l.isParameterModifier t.text place then
      let after := lead l place ts
      { after with modifiers := t.text :: after.modifiers }
    else { rest := t :: ts }
termination_by ts => ts.length
decreasing_by
  · simp
  · have := length_dropArguments_le ts
    simp only [List.length_cons]
    omega
  · simp

/-- The text of the default value that the tokens start with. -/
def defaultValue? : List TokenTree → Option String
  | mark :: value => if mark.value.isOperator "=" then some (TokenTree.joined value) else none
  | [] => none

/-! ## Parameters -/

/-- Reads a parameter whose type comes first. -/
def readTypeFirst (l : Language) (place : Nat) (group : List TokenTree) :
    Noted (Parameter TypeRef) :=
  let lead := lead l place group
  match TypeMachine.read l lead.rest with
  | (some (type, name :: rest), malformed) =>
    if name.kind == .identifier then
      let default? := defaultValue? rest
      (some {
        name := name.text, type, modifiers := lead.modifiers, annotations := lead.annotations,
        isOptional := default?.isSome, default? }, malformed)
    else (none, malformed)
  | (_, malformed) => (none, malformed)

/-- The type of a parameter that is written without one. -/
def anyType : TypeRef := .simple "any"

/-- Reads the type after a colon, if there is one, with the tokens after it. -/
def readAnnotatedType (l : Language) : List TokenTree → Noted (TypeRef × List TokenTree)
  | mark :: ts =>
    if mark.value.isOperator ":" then TypeMachine.read l ts else (some (anyType, mark :: ts), [])
  | [] => (some (anyType, []), [])

/-- Takes the operator `op` from the front of a list of tokens. -/
def takeOperator (op : String) : List TokenTree → Bool × List TokenTree
  | t :: ts => if t.value.isOperator op then (true, ts) else (false, t :: ts)
  | [] => (false, [])

/-- Whether a token may be the name of a parameter whose name comes first; a block takes a value
apart. -/
def isName (t : TokenTree) : Bool :=
  t.kind == .identifier || t.kind == .keyword || t.kind == .block

/-- The type of a parameter that takes the rest of the arguments. -/
def restType (t : TypeRef) : TypeRef :=
  if t.dimensions == 0 && t.name == "any" then { t with dimensions := 1 } else t

/-- Reads a parameter whose name comes first. -/
def readNameFirst (l : Language) (place : Nat) (group : List TokenTree) :
    Noted (Parameter TypeRef) :=
  let lead := lead l place group
  let (takesRest, ts) := takeOperator "..." lead.rest
  match ts with
  | [] => (none, [])
  | name :: ts =>
    if !isName name then (none, [])
    else
      let (marked, ts) := takeOperator "?" ts
      match readAnnotatedType l ts with
      | (none, malformed) => (none, malformed)
      | (some (type, ts), malformed) =>
        let default? := defaultValue? ts
        (some {
          name := name.text, type := if takesRest then restType type else type,
          modifiers := lead.modifiers, annotations := lead.annotations,
          isOptional := marked || default?.isSome, default? }, malformed)

/-- Reads the parameter of a group at the given place. -/
def read (l : Language) (place : Nat) (group : List TokenTree) : Noted (Parameter TypeRef) :=
  match l.memberOrder with
  | .typeFirst => readTypeFirst l place group
  | .nameFirst => readNameFirst l place group

/-- Reads the parameters of groups, the first of which is at the given place, up to the first one
that is none. -/
def readGroups (l : Language) (place : Nat) :
    List (List TokenTree) → Noted (List (Parameter TypeRef))
  | [] => (some [], [])
  | group :: groups =>
    match read l place group with
    | (none, malformed) => (none, malformed)
    | (some p, malformed) =>
      let (ps?, later) := readGroups l (place + 1) groups
      (ps?.map (p :: ·), malformed ++ later)

/-- Reads the parameters inside a block in parentheses. -/
def ofParens (l : Language) (block : TokenTree) : Noted (List (Parameter TypeRef)) :=
  readGroups l 0 (TokenTree.commaGroups block.children)

end Parameter

end Outline
