import Outline.Proofs.Written.Grammar
import Outline.Proofs.Written.MethodSteps

/-!
# What machines keep of annotations

Behind an annotation without arguments the machines that read fields and methods wait for a block
in parentheses.  An at sign in its place is lost on them, so that they read the name of the next
annotation as a type.  What they keep of the annotations in front of a declaration decides how
they read the declaration.

* `Remnant` — what is kept, as far as it matters.
* `Written.readField?`, `Written.readMethod?` — how a declaration is read behind it.
* `Declared.IsRead` — whether the declaration is read as it is written.
-/

namespace Outline

/-- What the machine that reads methods keeps of the annotations in front of a declaration. -/
inductive Remnant where
  /-- Nothing. -/
  | nothing
  /-- The name of an annotation, behind which arguments may follow. -/
  | arguments
  /-- The name of an annotation, read as a type. -/
  | type (r : TypeRef)
  /-- The name and the arguments of an annotation, read as those of a constructor. -/
  | parameters (r : TypeRef) (params : List (Parameter TypeRef))

namespace Remnant

variable (o : Owner)

/-- What is kept of an annotation whose at sign is lost. -/
def ofName (name : TokenTree) (arguments? : Option TokenTree) : Remnant :=
  match TypeRef.parse name.text, arguments? with
  | .error _, _ => nothing
  | .ok r, none => type r
  | .ok r, some block =>
    if Extractor.namesOwner o r then
      match (Parameter.ofParens o.language block).1 with
      | some params => parameters r params
      | none => nothing
    else nothing

/-- What is kept behind a comment or an annotation. -/
def after (x : Remnant) : WrittenLead o.language → Remnant
  | .comment _ _ | .mark (.brackets _ _ _ _) => x
  | .mark (.sign _ name arguments? _ _ _ _) =>
    match x with
    | arguments => ofName o name arguments?
    | nothing | type _ | parameters _ _ => if arguments?.isSome then nothing else arguments

/-- What is kept behind comments and annotations. -/
def ofLeads (leads : List (WrittenLead o.language)) : Remnant := leads.foldl (after o) nothing

end Remnant

namespace Written

variable {o : Owner}

/-- The first token. -/
def first : Written o → TokenTree
  | field f => f.modifiers.headD f.type.word
  | method m => m.modifiers.headD (m.result?.elim m.name (·.word))
  | nested n => n.modifiers.headD n.word

/-- The field that is read.  Behind a name that has been read as a type, the type is read as the
name. -/
def readField? (w : Written o) : Remnant → Option (Field TypeRef)
  | .type _ =>
    if w.first.kind == .identifier && FieldMachine.isPlain w.first.text then none else w.field?
  | .nothing | .arguments | .parameters _ _ => w.field?

/-- The method that is read if it starts with an identifier and the name of an annotation has
been read as the type `r`.  The name of a constructor is read as it should be, and the type of a
method is read as its name, so that only the name with the parameters is left, as in a
constructor. -/
def readBehindType? (w : Written o) (r : TypeRef) : Option (Method TypeRef) :=
  match w with
  | method m =>
    if m.result?.isNone then some { m.method with returnType := r }
    else if o.name? == some m.name.text then
      some { m.method with returnType := .simple m.name.text }
    else none
  | field _ | nested _ => none

/-- The method that is read.  Behind the arguments of an annotation that have been read as the
parameters of a constructor, a first token that may start a clause makes the declaration the rest
of that constructor. -/
def readMethod? (w : Written o) : Remnant → Option (Method TypeRef)
  | .type r => if w.first.kind == .identifier then w.readBehindType? r else w.method?
  | .parameters r params =>
    if MethodMachine.startsClause w.first.value then
      some {
        name := r.name, fullName := o.memberName r.name, returnType := r, typeParams := [], params,
        modifiers := [], annotations := [], comments := [] }
    else w.method?
  | .nothing | .arguments => w.method?

end Written

namespace Declared

variable {o : Owner}

/-- What is kept of what stands in front of the declaration. -/
def remnant (d : Declared o) : Remnant := Remnant.ofLeads o d.leads

/-- The field that is read, without annotations and comments. -/
def readField? (d : Declared o) : Option (Field TypeRef) := d.body.readField? d.remnant

/-- The method that is read, without annotations and comments. -/
def readMethod? (d : Declared o) : Option (Method TypeRef) := d.body.readMethod? d.remnant

/-- The declaration is read as it is written. -/
def IsRead (d : Declared o) : Prop :=
  d.readField? = d.body.field? ∧ d.readMethod? = d.body.method?

end Declared

end Outline
