import Outline.Proofs.Written.Marks

/-!
# Written constants

The constants of an enumeration as they are written, each behind comments and annotations: a name,
behind which there may be a value or, in Java, arguments and a body.  A body is a list of them with
commas between them, behind which Java may have a semicolon and other members.

* `WrittenConstant.tokens`, `WrittenConstant.constant` — the tokens of a constant, and the constant.
* `WrittenConstant.IsRead` — whether its annotations and comments are left to it.
* `EnumBody` — the bodies in which given constants are written.
-/

namespace Outline

/-! ## Constants -/

/-- A token that may stand in the value of a constant. -/
structure InValue (t : TokenTree) : Prop extends Extractor.Silent t where
  /-- It is no comma. -/
  notComma : t.value.isSeparator "," = false
  /-- It is no semicolon. -/
  notSemicolon : t.value.isSeparator ";" = false

/-- What stands behind the name of a constant. -/
inductive ConstantTail (l : Language) where
  /-- An equals sign and a value, or nothing. -/
  | value (assigned? : Option (TokenTree × List TokenTree)) (style : l ≠ .java)
      (isEquals : ∀ a ∈ assigned?, a.1.value.isOperator "=" = true)
      (isValue : ∀ a ∈ assigned?, a.2 ≠ [] ∧ ∀ t ∈ a.2, InValue t)
  /-- Arguments and a body, or one of them, or nothing. -/
  | parts (arguments? body? : Option TokenTree) (style : l = .java)
      (isArguments : ∀ b ∈ arguments?, b.value.isBlock '(' = true)
      (isBody : ∀ b ∈ body?, b.value.isBlock '\x7b' = true)

namespace ConstantTail

variable {l : Language}

/-- The tokens. -/
def tokens : ConstantTail l → List TokenTree
  | value assigned? _ _ _ => assigned?.elim [] fun a => a.1 :: a.2
  | parts arguments? body? _ _ _ => arguments?.toList ++ body?.toList

/-- The block of the arguments. -/
def arguments? : ConstantTail l → Option TokenTree
  | value _ _ _ _ => none
  | parts arguments? _ _ _ _ => arguments?

/-- The tokens of the value. -/
def assigned : ConstantTail l → List TokenTree
  | value assigned? _ _ _ => assigned?.elim [] (·.2)
  | parts _ _ _ _ _ => []

/-- The text of the value or of the arguments. -/
def value? : ConstantTail l → Option String
  | value assigned? _ _ _ => assigned?.map fun a => TokenTree.joined a.2
  | parts arguments? _ _ _ _ => arguments?.map fun b => TokenTree.joined b.children

/-- What stands behind the name makes the machines that read fields and methods give up the name:
a body behind the name of a field, and behind that of a method a block that is no list of
parameters. -/
def GivesUp : ConstantTail l → Prop
  | value _ _ _ _ => True
  | parts none body? _ _ _ => body?.isSome = true
  | parts (some block) _ _ _ _ => (Parameter.ofParens l block).1 = none

end ConstantTail

/-- A constant with what stands in front of it. -/
structure WrittenConstant (o : Owner) where
  /-- The comments and annotations in front. -/
  leads : List (WrittenLead o.language) := []
  /-- The name. -/
  name : TokenTree
  /-- What stands behind the name. -/
  tail : ConstantTail o.language
  /-- The name is a word. -/
  isName : IsName name
  /-- In Java, where it could start a constructor, it is not that of the enumeration. -/
  notOwner : o.language = .java → o.name? ≠ some name.text

namespace WrittenConstant

variable {o : Owner}

/-- The tokens up to the name. -/
def named (c : WrittenConstant o) : List TokenTree := c.leads.flatMap (·.tokens) ++ [c.name]

/-- The tokens. -/
def tokens (c : WrittenConstant o) : List TokenTree := c.named ++ c.tail.tokens

/-- The annotations. -/
def annotations (c : WrittenConstant o) : List Annotation := c.leads.flatMap (·.annotations)

/-- The comments. -/
def comments (c : WrittenConstant o) : List String := c.leads.flatMap (·.comments)

/-- The constant. -/
def constant (c : WrittenConstant o) : EnumMember where
  name := c.name.text
  fullName := o.memberName c.name.text
  value? := c.tail.value?
  annotations := c.annotations
  comments := c.comments

/-- What the machine that reads constants knows of it in the end. -/
def draft (c : WrittenConstant o) : EnumMemberDraft where
  name := c.name.text
  arguments? := c.tail.arguments?
  value := c.tail.assigned

theorem enumMember_draft (c : WrittenConstant o) (annotations : List Annotation)
    (comments : List String) :
    c.draft.enumMember o annotations comments =
      { c.constant with annotations, comments } := by
  unfold draft constant EnumMemberDraft.enumMember
  cases c.tail with
  | value assigned? style isEquals isValue =>
      cases assigned? with
      | none => rfl
      | some a =>
          have hne : a.2.isEmpty = false :=
            List.isEmpty_eq_false_iff.2 (isValue a rfl).1
          simp [ConstantTail.assigned, ConstantTail.value?, hne]
  | parts arguments? body? style isArguments isBody => rfl

/-- What the machines that read fields and methods keep of what stands in front of it. -/
def remnant (c : WrittenConstant o) : Remnant := Remnant.ofLeads o c.leads

/-- The annotations and comments are left to the constant.  In Java the machines that read fields
and methods may end a member with its name, which takes them. -/
structure IsRead (c : WrittenConstant o) : Prop where
  /-- The name of an annotation that has been read as a type gets no member. -/
  behindType : ∀ r, c.remnant = .type r → c.tail.GivesUp
  /-- Neither do the arguments of one that have been read as parameters. -/
  behindParameters : o.language = .java →
    ∀ r ps, c.remnant = .parameters r ps → c.name.text ≠ "where"

end WrittenConstant

/-! ## Bodies -/

/-- Constants with commas between them, and perhaps one behind the last of them. -/
inductive ConstantList (o : Owner) : List (WrittenConstant o) → List TokenTree → Prop where
  /-- There is no constant. -/
  | nil : ConstantList o [] []
  /-- The last constant. -/
  | last (c : WrittenConstant o) : ConstantList o [c] c.tokens
  /-- A constant in front of a comma. -/
  | cons (c : WrittenConstant o) {comma : TokenTree} {cs : List (WrittenConstant o)}
      {ts : List TokenTree} (hcomma : comma.value.isSeparator "," = true)
      (hrest : ConstantList o cs ts) : ConstantList o (c :: cs) (c.tokens ++ comma :: ts)

/-- The bodies in which constants are written. -/
inductive EnumBody (o : Owner) (cs : List (WrittenConstant o)) : List TokenTree → Prop where
  /-- There is nothing but the constants. -/
  | constants {ts : List TokenTree} (h : ConstantList o cs ts) : EnumBody o cs ts
  /-- In Java, a semicolon and any tokens behind them. -/
  | members {ts rest : List TokenTree} {stop : TokenTree} (hl : o.language = .java)
      (h : ConstantList o cs ts) (hstop : stop.value.isSeparator ";" = true) :
      EnumBody o cs (ts ++ stop :: rest)

end Outline
