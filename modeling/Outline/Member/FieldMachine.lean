import Outline.Member.Annotation
import Outline.Member.Owner
import Outline.Member.TypeMachine

/-!
# Recognizing fields

The machine that reads fields and properties.  Where the type comes first, a field is written

    modifiers type name ;      modifiers type name = initializer ;

and a property has a block in braces in place of the semicolon.  Where the name comes first, it
is written

    modifiers name ;           modifiers name ?: type = initializer ;

with any of the parts after the name left out; a comma may stand for the semicolon, and a line
end for both.
-/

namespace Outline

/-- What is known of the field that is being read. -/
structure FieldDraft where
  /-- The modifiers. -/
  modifiers : List String
  /-- The name. -/
  name : String := ""
  /-- The type, if it is known. -/
  type? : Option TypeRef := none
  /-- Whether a question mark follows the name. -/
  isOptional : Bool := false
  /-- The line of the end of the last token of the field. -/
  line : Nat := 0
  deriving Repr

namespace FieldDraft

/-- The field that has been read.  A field without a type has the type `any`. -/
def field (d : FieldDraft) (o : Owner) (annotations : List Annotation) (comments : List String) :
    Field TypeRef :=
  let type := d.type?.getD (.simple "any")
  { name := d.name, fullName := o.memberName d.name,
    type := { type with nullable := type.nullable || d.isOptional },
    modifiers := d.modifiers, annotations, comments }

/-- Whether a token stands on a later line than the field and does not continue it. -/
def endsBefore (d : FieldDraft) (t : Token) : Bool :=
  d.line < t.span.start.line && t.kind != .operator

end FieldDraft

/-- The state of the machine that reads a field. -/
inductive FieldMachine where
  /-- The annotations and modifiers are read. -/
  | head (skip : Option AnnotationSkip) (modifiers : List String)
  /-- The type is being read. -/
  | type (draft : FieldDraft) (machine : TypeMachine)
  /-- The type is read, the name comes next. -/
  | name (draft : FieldDraft)
  /-- The name is read. -/
  | afterName (draft : FieldDraft)
  /-- The name and the mark after it are read. -/
  | afterMark (draft : FieldDraft)
  /-- The name and the type after it are read. -/
  | afterType (draft : FieldDraft)
  /-- The initializer is being read. -/
  | initializer (draft : FieldDraft)
  /-- The field has ended. -/
  | complete (draft : FieldDraft)
  /-- There is no field. -/
  | failed
  deriving Repr

namespace FieldMachine

/-- The state in which nothing is read. -/
def idle : FieldMachine := head none []

/-- Whether nothing is read. -/
def isIdle : FieldMachine → Bool
  | head none [] => true
  | _ => false

/-- Whether the field has ended. -/
def isComplete : FieldMachine → Bool
  | complete _ => true
  | _ => false

/-- Whether there is no field. -/
def isFailed : FieldMachine → Bool
  | failed => true
  | _ => false

/-- Changes what is known of the field. -/
def mapDraft (f : FieldDraft → FieldDraft) : FieldMachine → FieldMachine
  | type d m => type (f d) m
  | name d => name (f d)
  | afterName d => afterName (f d)
  | afterMark d => afterMark (f d)
  | afterType d => afterType (f d)
  | initializer d => initializer (f d)
  | complete d => complete (f d)
  | head skip modifiers => head skip modifiers
  | failed => failed

/-- Whether a token ends a field. -/
def isEnd (t : Token) : Bool := t.isSeparator ";" || t.isSeparator ","

/-- Whether a name is a single word. -/
def isPlain (s : String) : Bool := !s.toList.any (['.', '<', '['].contains ·)

/-- Reads a token of the type.  When the type ends before the token, `next` reads it. -/
def acceptType (l : Language) (d : FieldDraft) (m : TypeMachine) (t : Token)
    (next : FieldDraft → FieldMachine) (accept : FieldDraft → Step FieldMachine) :
    Step FieldMachine :=
  let s := m.accept l false t
  match s.state with
  | .failed => ⟨failed, s.taken, s.malformed⟩
  | .complete found =>
    let d := { d with type? := some found }
    if s.taken then ⟨next d, true, s.malformed⟩ else (accept d).after s.malformed
  | m => ⟨type d m, s.taken, s.malformed⟩

/-- Reads a token in front of the type or the name.  The token that starts it is read by
`start`. -/
def acceptHead (l : Language) (skip : Option AnnotationSkip) (modifiers : List String) (t : Token)
    (start : Option (Step FieldMachine)) : Step FieldMachine :=
  match AnnotationSkip.step l skip t with
  | (skip, true) => .take (head skip modifiers)
  | (skip, false) =>
    if l.marks .fieldModifier t then .take (head skip (modifiers ++ [t.text]))
    else match start with
      | some step => step
      | none => .leave (if modifiers.isEmpty then head skip [] else failed)

/-! ## The type first -/

/-- Reads the name after the type. -/
def acceptName (d : FieldDraft) (t : Token) : Step FieldMachine :=
  if t.kind == .identifier && isPlain t.text then .take (afterName { d with name := t.text })
  else .leave failed

/-- Reads a token where the type comes first. -/
def acceptTypeFirst (l : Language) (m : FieldMachine) (t : Token) : Step FieldMachine :=
  match m with
  | head skip modifiers =>
    acceptHead l skip modifiers t
      (if TypeMachine.starts l false t then
        let d : FieldDraft := { modifiers }
        some (acceptType l d .idle t name (acceptName · t))
      else none)
  | type d machine => acceptType l d machine t name (acceptName · t)
  | name d => acceptName d t
  | afterName d =>
    if isEnd t then .take (complete d)
    else if t.isOperator "=" || t.isOperator "=>" then .take (initializer d)
    else if t.isBlock '\x7b' && l.hasPropertyBlocks then .take (complete d)
    else .leave failed
  | initializer d => .take (if t.isSeparator ";" then complete d else initializer d)
  | m => .leave m

/-! ## The name first -/

/-- Reads the token after the name and its mark, or after the type. -/
def acceptTail (d : FieldDraft) (t : Token) : Step FieldMachine :=
  if t.isOperator "=" then .take (initializer d)
  else if isEnd t then .take (complete d)
  else if d.endsBefore t then .leave (complete d)
  else .leave failed

/-- Whether a token names a field. -/
def isFieldName (t : Token) : Bool :=
  (t.kind == .identifier || t.kind == .string) && !t.text.toList.any (['.', '<'].contains ·)

/-- Reads a token where the name comes first. -/
def acceptNameFirst (l : Language) (m : FieldMachine) (t : Token) : Step FieldMachine :=
  match m with
  | head skip modifiers =>
    acceptHead l skip modifiers t
      (if isFieldName t then
        some (.take (afterName { modifiers, name := Text.unquote t.text }))
      else none)
  | afterName d =>
    if t.isOperator ":" then .take (type d .idle)
    else if t.isOperator "?" then .take (afterMark { d with isOptional := true })
    else if t.isOperator "!" then .take (afterMark d)
    else acceptTail d t
  | afterMark d => if t.isOperator ":" then .take (type d .idle) else acceptTail d t
  | type d machine => acceptType l d machine t afterType (acceptTail · t)
  | afterType d => acceptTail d t
  | initializer d =>
    if t.isSeparator ";" then .take (complete d)
    else if d.endsBefore t then .leave (complete d)
    else .take (initializer d)
  | m => .leave m

/-! ## The machine -/

/-- Offers a token to the machine.  Comments are left for others. -/
def accept (o : Owner) (m : FieldMachine) (t : Token) : Step FieldMachine :=
  if t.kind == .comment then .leave m
  else
    let s := match o.language.memberOrder with
      | .typeFirst => acceptTypeFirst o.language m t
      | .nameFirst => acceptNameFirst o.language m t
    if s.taken then s.map (mapDraft fun d => { d with line := t.span.last.line }) else s

/-- The end of the body, where the last field may lack its end if the name comes first. -/
def bodyEnd (o : Owner) (m : FieldMachine) : FieldMachine :=
  match o.language.memberOrder, m with
  | .nameFirst, afterName d | .nameFirst, afterMark d | .nameFirst, afterType d
  | .nameFirst, initializer d => complete d
  | .nameFirst, type d machine =>
    match machine.finish with
    | .complete found => complete { d with type? := some found }
    | _ => m
  | _, _ => m

end FieldMachine

end Outline
