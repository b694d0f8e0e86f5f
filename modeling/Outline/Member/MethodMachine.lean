import Outline.Member.Owner
import Outline.Member.Parameter

/-!
# Recognizing methods

The machine that reads methods and constructors.  Where the type comes first, a method is written

    modifiers type name ( parameters ) ;

with type parameters in angle brackets in front of the type, and with a body in braces, an
expression after an arrow, or a clause before the end.  A constructor lacks the name and has the
name of its declaration in the place of the type.  Where the name comes first, it is written

    modifiers name ? ( parameters ) : type ;

with the mark and the type left out, a body in braces, or a line end for the semicolon.
-/

namespace Outline

/-- What is known of the method that is being read. -/
structure MethodDraft where
  /-- The modifiers. -/
  modifiers : List String
  /-- The type parameters. -/
  typeParams : List TypeRef := []
  /-- The type of the result, if it is known. -/
  returnType? : Option TypeRef := none
  /-- The name. -/
  name : String := ""
  /-- The parameters. -/
  params : List (Parameter TypeRef) := []
  /-- The line of the end of the last token of the method. -/
  line : Nat := 0
  deriving Repr

namespace MethodDraft

/-- The type of the result of a method that is written without one: a constructor makes the
declaration that it stands in. -/
def defaultReturnType (d : MethodDraft) (o : Owner) : TypeRef :=
  match o.name?, d.name == "constructor" with
  | some owner, true => .simple owner
  | _, _ => .simple "any"

/-- The method that has been read. -/
def method (d : MethodDraft) (o : Owner) (annotations : List Annotation)
    (comments : List String) : Method TypeRef where
  name := d.name
  fullName := o.memberName d.name
  returnType := d.returnType?.getD (d.defaultReturnType o)
  typeParams := d.typeParams
  params := d.params
  modifiers := d.modifiers
  annotations := annotations
  comments := comments

/-- Whether a token stands on a later line than the method and does not continue it. -/
def endsBefore (d : MethodDraft) (t : Token) : Bool :=
  d.line < t.span.start.line && t.kind != .operator

end MethodDraft

/-- The type parameters of a list in angle brackets that is being read.  The first identifier of
each part of the list is a type parameter. -/
structure TypeParamList where
  /-- The type parameters so far. -/
  params : List TypeRef := []
  /-- Whether the name of a parameter may come next. -/
  expecting : Bool := true
  /-- The number of angle brackets that are open. -/
  depth : Int := 1
  deriving Repr

namespace TypeParamList

/-- Whether an operator consists of angle brackets. -/
def isAngles (t : Token) : Bool :=
  t.kind == .operator && t.text.toList.all (fun c => c == '<' || c == '>')

/-- The number of angle brackets that an operator opens, less those that it closes. -/
def opened (t : Token) : Int :=
  t.text.toList.foldl (fun depth c => if c == '<' then depth + 1 else depth - 1) 0

/-- Reads a token of the list. -/
def read (p : TypeParamList) (t : Token) : TypeParamList :=
  if isAngles t then { p with depth := p.depth + opened t }
  else if p.depth == 1 && t.isSeparator "," then { p with expecting := true }
  else if p.depth == 1 && p.expecting && t.kind == .identifier then
    { p with params := p.params ++ [.simple t.text], expecting := false }
  else p

/-- Whether the list has ended. -/
def isClosed (p : TypeParamList) : Bool := p.depth ≤ 0

end TypeParamList

/-- The state of the machine that reads a method. -/
inductive MethodMachine where
  /-- The annotations, modifiers and type parameters are read; `started` tells whether there are
  any of the last two. -/
  | head (started : Bool) (skip : Option AnnotationSkip) (modifiers : List String)
      (typeParams : List TypeRef)
  /-- The type parameters are being read. -/
  | typeParamList (modifiers : List String) (list : TypeParamList)
  /-- The type in front of the name is being read. -/
  | type (draft : MethodDraft) (machine : TypeMachine)
  /-- The type is read, the name comes next. -/
  | name (draft : MethodDraft)
  /-- The name is read. -/
  | afterName (draft : MethodDraft)
  /-- The parameters are read. -/
  | afterParams (draft : MethodDraft)
  /-- The type after the parameters is being read. -/
  | returnType (draft : MethodDraft) (machine : TypeMachine)
  /-- The parameters and the type after them are read. -/
  | afterReturn (draft : MethodDraft)
  /-- A clause in front of the body is being read. -/
  | clause (draft : MethodDraft)
  /-- The expression after an arrow is being read. -/
  | expression (draft : MethodDraft)
  /-- The method has ended. -/
  | complete (draft : MethodDraft)
  /-- There is no method. -/
  | failed
  deriving Repr

namespace MethodMachine

/-- The state in which nothing is read. -/
def idle : MethodMachine := head false none [] []

/-- Whether nothing is read. -/
def isIdle : MethodMachine → Bool
  | head false none _ _ => true
  | _ => false

/-- Whether the method has ended. -/
def isComplete : MethodMachine → Bool
  | complete _ => true
  | _ => false

/-- Whether there is no method. -/
def isFailed : MethodMachine → Bool
  | failed => true
  | _ => false

/-- Changes what is known of the method. -/
def mapDraft (f : MethodDraft → MethodDraft) : MethodMachine → MethodMachine
  | type d m => type (f d) m
  | name d => name (f d)
  | afterName d => afterName (f d)
  | afterParams d => afterParams (f d)
  | returnType d m => returnType (f d) m
  | afterReturn d => afterReturn (f d)
  | clause d => clause (f d)
  | expression d => expression (f d)
  | complete d => complete (f d)
  | m => m

/-- Reads the name of a method, which may be qualified and may carry type parameters. -/
def acceptName (d : MethodDraft) (text : String) : Step MethodMachine :=
  match TypeRef.parse text with
  | .ok t =>
    .take (afterName { d with
      name := Text.lastPart t.name, typeParams := d.typeParams ++ t.params })
  | .error e => ⟨failed, true, [⟨text, e⟩]⟩

/-- Reads the parameters in a block. -/
def acceptParams (l : Language) (d : MethodDraft) (t : TokenTree) : Step MethodMachine :=
  match Parameter.ofParens l t with
  | (some params, malformed) => ⟨afterParams { d with params }, true, malformed⟩
  | (none, malformed) => ⟨failed, true, malformed⟩

/-- Reads a token of the type of the result.  When the type ends before the token, `next` reads
it. -/
def acceptType (l : Language) (d : MethodDraft) (m : TypeMachine) (t : Token)
    (within : MethodDraft → TypeMachine → MethodMachine) (next : MethodDraft → MethodMachine)
    (accept : MethodDraft → Step MethodMachine) : Step MethodMachine :=
  let s := m.accept l true t
  match s.state with
  | .failed => ⟨failed, s.taken, s.malformed⟩
  | .complete found =>
    let d := { d with returnType? := some found }
    if s.taken then ⟨next d, true, s.malformed⟩ else (accept d).after s.malformed
  | m => ⟨within d m, s.taken, s.malformed⟩

/-- Leaves a token that cannot stand in the head of a method. -/
def leaveHead (started : Bool) (skip : Option AnnotationSkip) (typeParams : List TypeRef) :
    Step MethodMachine :=
  .leave (if started then failed else head false skip [] typeParams)

/-! ## The type first -/

/-- Whether a block in parentheses after the type makes it a constructor. -/
def isConstructor (o : Owner) (d : MethodDraft) (t : Token) : Bool :=
  t.isBlock '(' && d.returnType?.any (fun r => !r.isGeneric && some r.name == o.name?)

/-- Reads the token after the type. -/
def acceptAfterType (o : Owner) (d : MethodDraft) (t : TokenTree) : Step MethodMachine :=
  if t.kind == .identifier then acceptName d t.text
  else if isConstructor o d t.value then
    acceptParams o.language { d with name := o.name?.getD "" } t
  else .leave failed

/-- Whether a token starts a clause between the parameters and the body. -/
def startsClause (t : Token) : Bool :=
  t.isKeyword "throws" || t.isKeyword "default" || t.isOperator ":" ||
    (t.kind == .identifier && t.text == "where")

/-- Whether a token is the body of a method or stands for it. -/
def isBody (t : Token) : Bool := t.isSeparator ";" || t.isBlock '\x7b'

/-- Reads a token where the type comes first. -/
def acceptTypeFirst (o : Owner) (m : MethodMachine) (t : TokenTree) : Step MethodMachine :=
  match m with
  | head started skip modifiers typeParams =>
    match AnnotationSkip.step o.language skip t.value with
    | (skip, true) => .take (head started skip modifiers typeParams)
    | (skip, false) =>
      if o.language.marks .methodModifier t.value then
        .take (head true skip (modifiers ++ [t.text]) typeParams)
      else if t.value.isOperator "<" && typeParams.isEmpty then
        .take (typeParamList modifiers {})
      else if TypeMachine.starts o.language true t.value then
        acceptType o.language { modifiers, typeParams } .idle t.value type name
          (acceptAfterType o · t)
      else leaveHead started skip typeParams
  | typeParamList modifiers list =>
    let list := list.read t.value
    .take (if list.isClosed then head true none modifiers list.params
      else typeParamList modifiers list)
  | type d machine => acceptType o.language d machine t.value type name (acceptAfterType o · t)
  | name d => acceptAfterType o d t
  | afterName d =>
    if t.value.isBlock '(' then acceptParams o.language d t else .leave failed
  | afterParams d =>
    if isBody t.value then .take (complete d)
    else if t.value.isOperator "=>" then .take (expression d)
    else if startsClause t.value then .take (clause d)
    else .leave failed
  | clause d => .take (if isBody t.value then complete d else clause d)
  | expression d => .take (if t.value.isSeparator ";" then complete d else expression d)
  | m => .leave m

/-! ## The name first -/

/-- Reads the token after the parameters, or after the type behind them. -/
def acceptTail (d : MethodDraft) (t : Token) : Step MethodMachine :=
  if isBody t then .take (complete d)
  else if d.endsBefore t then .leave (complete d)
  else .leave failed

/-- Reads a token where the name comes first. -/
def acceptNameFirst (o : Owner) (m : MethodMachine) (t : TokenTree) : Step MethodMachine :=
  match m with
  | head started skip modifiers typeParams =>
    match AnnotationSkip.step o.language skip t.value with
    | (skip, true) => .take (head started skip modifiers typeParams)
    | (skip, false) =>
      if o.language.marks .methodModifier t.value then
        .take (head true skip (modifiers ++ [t.text]) typeParams)
      else if t.kind == .identifier then acceptName { modifiers, typeParams } t.text
      else if t.kind == .string then
        .take (afterName { modifiers, typeParams, name := Text.unquote t.text })
      else leaveHead started skip typeParams
  | afterName d =>
    if t.value.isOperator "?" then .take (afterName d)
    else if t.value.isBlock '(' then acceptParams o.language d t
    else .leave failed
  | afterParams d =>
    if t.value.isOperator ":" then .take (returnType d .idle) else acceptTail d t.value
  | returnType d machine =>
    acceptType o.language d machine t.value returnType afterReturn (acceptTail · t.value)
  | afterReturn d => acceptTail d t.value
  | m => .leave m

/-! ## The machine -/

/-- Offers a token to the machine.  Comments are left for others. -/
def accept (o : Owner) (m : MethodMachine) (t : TokenTree) : Step MethodMachine :=
  if t.kind == .comment then .leave m
  else
    let s := match o.language.memberOrder with
      | .typeFirst => acceptTypeFirst o m t
      | .nameFirst => acceptNameFirst o m t
    if s.taken then s.map (mapDraft fun d => { d with line := t.span.last.line }) else s

/-- The end of the body, where the last method may lack its end if the name comes first. -/
def bodyEnd (o : Owner) (m : MethodMachine) : MethodMachine :=
  match o.language.memberOrder, m with
  | .nameFirst, afterParams d | .nameFirst, afterReturn d => complete d
  | .nameFirst, returnType d machine =>
    match machine.finish with
    | .complete found => complete { d with returnType? := some found }
    | _ => m
  | _, _ => m

end MethodMachine

end Outline
