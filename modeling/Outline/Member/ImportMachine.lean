import Outline.Declaration.Basic
import Outline.Language.Basic
import Outline.Member.TypeMachine
import Outline.Text.Literal
import Outline.Token.Group

/-!
# Recognizing imports

The machine that reads the statements which bring names into scope.  They are written

* in C#: `using [static] A.B;` and `using Alias = A.B;`
* in Java: `import [static] a.b.C;` and `import [static] a.b.*;`
* in TypeScript: `import "module";` and `import clause from "module";`

where the clause lists default imports, names in braces and `* as Alias` with commas between
them, and the semicolon may be left out.
-/

namespace Outline

/-- What is known of the import that is being read. -/
structure ImportDraft where
  /-- Whether the members of a class are imported. -/
  isStatic : Bool := false
  /-- The text of the dotted name that is imported. -/
  target? : Option String := none
  /-- The name under which the target is imported. -/
  alias? : Option String := none
  /-- Whether all members of the target are imported. -/
  hasWildcard : Bool := false
  /-- The names that are listed. -/
  names : List String := []
  /-- The file of the module. -/
  module? : Option String := none
  deriving Repr

namespace ImportDraft

/-- The path and the listed names of a dotted target.  A target that stands for a member has the
member as its last part. -/
def splitTarget (namesMember : Bool) (target : String) : List String × List String :=
  let parts := Text.dottedParts target
  if namesMember && 1 < parts.length then (parts.dropLast, parts.getLast?.toList) else (parts, [])

/-- The import that has been read.  An alias and, in Java, a name without a wildcard stand for a
member. -/
def import? (d : ImportDraft) (l : Language) : Option Import :=
  match d.module?, d.target? with
  | some file, _ =>
    some { path := [], names := d.names, alias? := d.alias?, module? := some file }
  | none, some target =>
    let namesMember := d.alias?.isSome || (l == .java && !d.hasWildcard)
    let (path, names) := splitTarget namesMember target
    some { path, names, alias? := d.alias?, isStatic := d.isStatic }
  | none, none => none

end ImportDraft

/-- The state of the machine that reads an import. -/
inductive ImportMachine where
  /-- Nothing is read. -/
  | idle
  /-- The keyword is read, the target comes next. -/
  | keyword (draft : ImportDraft)
  /-- The target is read. -/
  | afterTarget (draft : ImportDraft)
  /-- The alias and the equals sign are read, the target comes next. -/
  | aliasTarget (draft : ImportDraft)
  /-- The dot after the target is read, the wildcard comes next. -/
  | wildcard (draft : ImportDraft)
  /-- A part of the clause of a module import comes next. -/
  | clause (draft : ImportDraft)
  /-- The asterisk of a module import is read, the alias comes next. -/
  | moduleAlias (draft : ImportDraft)
  /-- A part of the clause of a module import is read. -/
  | afterClause (draft : ImportDraft)
  /-- The file of the module comes next. -/
  | file (draft : ImportDraft)
  /-- The file of the module is read, a semicolon may follow. -/
  | ending (draft : ImportDraft)
  /-- The import has ended. -/
  | complete (draft : ImportDraft)
  /-- There is no import. -/
  | failed
  deriving Repr

namespace ImportMachine

/-- Whether nothing is read. -/
def isIdle : ImportMachine → Bool
  | idle => true
  | _ => false

/-- Whether the import has ended. -/
def isComplete : ImportMachine → Bool
  | complete _ => true
  | _ => false

/-- Whether there is no import. -/
def isFailed : ImportMachine → Bool
  | failed => true
  | _ => false

/-! ## Imports of namespaces -/

/-- The keyword of the statements that import from namespaces. -/
def namespaceKeyword : Language → String
  | .csharp => "using"
  | .java | .typescript => "import"

/-- Reads a token of an import from a namespace. -/
def acceptNamespace (l : Language) (m : ImportMachine) (t : Token) : Step ImportMachine :=
  match m with
  | idle => if t.isKeyword (namespaceKeyword l) then .take (keyword {}) else .leave idle
  | keyword d =>
    if t.isKeyword "static" && !d.isStatic then .take (keyword { d with isStatic := true })
    else if t.kind == .identifier then .take (afterTarget { d with target? := some t.text })
    else .leave failed
  | afterTarget d =>
    if t.isSeparator ";" then .take (complete d)
    else if l == .csharp && t.isOperator "=" && d.alias?.isNone then
      .take (aliasTarget { d with alias? := d.target?, target? := none })
    else if l == .java && t.isOperator "." && !d.hasWildcard then .take (wildcard d)
    else .leave failed
  | aliasTarget d =>
    if t.kind == .identifier then .take (afterTarget { d with target? := some t.text })
    else .leave failed
  | wildcard d =>
    if t.isOperator "*" then .take (afterTarget { d with hasWildcard := true })
    else .leave failed
  | m => .leave m

/-! ## Imports of modules -/

/-- The names in braces.  A name with an alias keeps the name that the module gives it. -/
def listedNames (block : TokenTree) : List String :=
  (TokenTree.commaGroups block.children).filterMap fun group =>
    (group.find? (fun t => t.kind == .identifier && t.text != "type")).map (·.text)

/-- Reads a token of an import of a module. -/
def acceptModule (m : ImportMachine) (t : TokenTree) : Step ImportMachine :=
  match m with
  | idle => if t.value.isKeyword "import" then .take (clause {}) else .leave idle
  | clause d =>
    if t.value.isBlock '\x7b' then
      .take (afterClause { d with names := d.names ++ listedNames t })
    else if t.value.isOperator "*" then .take (moduleAlias d)
    else if t.kind == .string then .take (ending { d with module? := some (Text.unquote t.text) })
    else if t.kind == .identifier && t.text == "type" then .take (clause d)
    else if t.kind == .identifier then
      .take (afterClause { d with names := d.names ++ [t.text] })
    else .leave failed
  | moduleAlias d =>
    if t.value.isKeyword "as" then .take (moduleAlias d)
    else if t.kind == .identifier then .take (afterClause { d with alias? := some t.text })
    else .leave failed
  | afterClause d =>
    if t.value.isSeparator "," then .take (clause d)
    else if t.kind == .identifier && t.text == "from" then .take (file d)
    else .leave failed
  | file d =>
    if t.kind == .string then .take (ending { d with module? := some (Text.unquote t.text) })
    else .leave failed
  | ending d => ⟨complete d, t.value.isSeparator ";", []⟩
  | m => .leave m

/-! ## The machine -/

/-- Offers a token to the machine.  Comments are left for others. -/
def accept (l : Language) (m : ImportMachine) (t : TokenTree) : Step ImportMachine :=
  if t.kind == .comment then .leave m
  else match l with
    | .typescript => acceptModule m t
    | .csharp | .java => acceptNamespace l m t.value

/-- The end of the tokens, which also ends an import whose module is read. -/
def bodyEnd : ImportMachine → ImportMachine
  | ending d => complete d
  | m => m

end ImportMachine

end Outline
