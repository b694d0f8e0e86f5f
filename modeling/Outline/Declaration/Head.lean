import Outline.Member.Extractor

/-!
# Heads of declarations

The head of a declaration is what stands in front of its body: annotations, comments and
modifiers, the keyword, the name with its type parameters, and the base types.  It is read from
the sibling tokens before the body, which are searched backwards for the keyword.

A head that turns out to be none may still hold texts in the place of a type that are none; they
are noted all the same.
-/

namespace Outline

/-- The head of a declaration. -/
structure Head where
  /-- What is declared. -/
  kind : DeclarationKind
  /-- The keyword. -/
  keyword : String
  /-- The parts of the name. -/
  name : List String
  /-- The type parameters. -/
  typeParams : List TypeRef
  /-- The class that it extends. -/
  extended? : Option TypeRef
  /-- The other base types. -/
  implemented : List TypeRef
  /-- The modifiers, in order. -/
  modifiers : List String := []
  /-- The annotations, in order. -/
  annotations : List Annotation := []
  /-- The comments, in order. -/
  comments : List String := []
  /-- The position of the keyword. -/
  position : Position
  deriving Repr

namespace Head

/-! ## Names and type parameters -/

/-- Reads the name of a declaration: a dotted name for a namespace, and else a type without
marks, whose arguments are the type parameters. -/
def readName (kind : DeclarationKind) (t : TokenTree) : Noted (List String × List TypeRef) :=
  match t.kind, kind with
  | .identifier, .package => (some (Text.dottedParts t.text, []), [])
  | .identifier, _ =>
    match TypeRef.parse t.text with
    | .ok type =>
      if !type.nullable && type.dimensions == 0 then (some (type.parts, type.params), [])
      else (none, [])
    | .error e => (none, [⟨t.text, e⟩])
  | .string, .package => (some ([Text.unquote t.text], []), [])
  | _, _ => (none, [])

/-- Reads the rest of a list of type parameters in angle brackets, with the tokens after it. -/
def readTypeParams (list : TypeParamList) : List TokenTree → Option (List TypeRef × List TokenTree)
  | [] => if list.isClosed then some (list.params, []) else none
  | t :: ts =>
    if list.isClosed then some (list.params, t :: ts) else readTypeParams (list.read t.value) ts

/-- Reads the list of type parameters that may follow a name, with the tokens after it.  The type
parameters that come with the name are in `params`. -/
def readTypeParamsAfter (params : List TypeRef) :
    List TokenTree → Option (List TypeRef × List TokenTree)
  | t :: ts =>
    if t.value.isOperator "<" then readTypeParams { params } ts else some (params, t :: ts)
  | [] => some (params, [])

/-- Drops the parameters that may follow the name of a class. -/
def dropParens (kind : DeclarationKind) : List TokenTree → List TokenTree
  | t :: ts => if kind == .classLike && t.value.isBlock '(' then ts else t :: ts
  | [] => []

/-! ## Base types -/

/-- A list of base types with the token that introduces it. -/
abbrev BaseGroup := String × List TypeRef

/-- Adds a base type to the last group. -/
def addBase (type : TypeRef) : List BaseGroup → List BaseGroup
  | [] => []
  | [(mark, types)] => [(mark, types ++ [type])]
  | g :: gs => g :: addBase type gs

/-- Reads the groups of base types, where those in `groups` come before.  There is no head if
some token cannot stand among base types. -/
def readBases (l : Language) (groups : List BaseGroup) : List TokenTree → Noted (List BaseGroup)
  | [] => (some groups, [])
  | t :: ts =>
    if l.isInheritance t.value then readBases l (groups ++ [(t.text, [])]) ts
    else if t.value.isSeparator "," && !groups.isEmpty then readBases l groups ts
    else if t.kind == .identifier && l.baseListEnd? == some t.text then (some groups, [])
    else if t.kind == .identifier || l.has .type t.text then
      if groups.isEmpty then (none, [])
      else match TypeRef.parse t.text with
        | .ok type => readBases l (addBase type groups) ts
        | .error e =>
          let (groups?, malformed) := readBases l groups ts
          (groups?, ⟨t.text, e⟩ :: malformed)
    else (none, [])

/-- Whether a name is that of an interface by the convention of C#: a capital I and another
capital. -/
def isInterfaceName (name : String) : Bool :=
  match (Text.lastPart name).toList with
  | 'I' :: c :: _ => Text.isUppercase c
  | _ => false

/-- Splits base types after the convention of C#, where only the first one can be a class. -/
def splitByName (kind : DeclarationKind) (keyword : String) (bases : List TypeRef) :
    Option TypeRef × List TypeRef :=
  match kind, bases with
  | .enumLike, _ | .package, _ => (none, [])
  | .classLike, base :: rest =>
    if keyword != "struct" && !isInterfaceName base.name then (some base, rest) else (none, bases)
  | _, _ => (none, bases)

/-- Splits base types after the tokens that introduce them.  Interfaces extend by implementing,
and of the classes that are extended the first one counts. -/
def splitByMark (kind : DeclarationKind) :
    List BaseGroup → Option TypeRef × List TypeRef
  | [] => (none, [])
  | (mark, types) :: groups =>
    let (extended?, implemented) := splitByMark kind groups
    if mark == "extends" && kind != .interfaceLike then
      (types.head?.or extended?, types.tail ++ implemented)
    else (extended?, types ++ implemented)

/-- Splits base types into the class that is extended and the others. -/
def splitBases (l : Language) (kind : DeclarationKind) (keyword : String)
    (groups : List BaseGroup) : Option TypeRef × List TypeRef :=
  match l with
  | .csharp => splitByName kind keyword (groups.flatMap (·.2))
  | .java | .typescript => splitByMark kind groups

/-! ## In front of the keyword -/

/-- The annotation that ends with the token `t`, where the tokens before it are in `before`, the
last one first, with the tokens before the annotation. -/
def annotationBefore? (l : Language) (t : TokenTree) (before : List TokenTree) :
    Option (List Annotation × List TokenTree) :=
  match l.annotationStyle with
  | .bracketed =>
    let found := if t.value.isBlock '[' then Annotation.ofBrackets t else []
    if found.isEmpty then none else some (found, before)
  | .atSign =>
    let hasList := t.value.isBlock '('
    let arguments := if hasList then Annotation.argumentsOf t else []
    match if hasList then before else t :: before with
    | name :: mark :: rest =>
      if name.kind == .identifier && mark.value.isSeparator "@" then
        some ([⟨name.text, arguments⟩], rest)
      else none
    | _ => none

theorem length_of_annotationBefore? {l : Language} {t : TokenTree}
    {before rest : List TokenTree} {found : List Annotation}
    (h : annotationBefore? l t before = some (found, rest)) : rest.length ≤ before.length := by
  cases hl : l.annotationStyle <;> by_cases ht : t.value.isBlock '(' = true <;>
    simp only [annotationBefore?, hl, ht] at h
  · split at h <;> simp_all
  · split at h <;> simp_all
  · split at h
    · split at h <;> simp_all
      omega
    · cases h
  · split at h
    · split at h <;> simp_all
    · cases h

/-- Reads the annotations, comments and modifiers in front of a head backwards, where the tokens
before it are in `before`, the last one first. -/
def readLead (l : Language) (h : Head) (before : List TokenTree) : Head :=
  match before with
  | [] => h
  | t :: before =>
    if l.marks .classModifier t.value then
      readLead l { h with modifiers := t.text :: h.modifiers } before
    else if t.kind == .comment then
      readLead l { h with comments := Text.commentText t.text :: h.comments } before
    else match _h : annotationBefore? l t before with
      | some (found, rest) => readLead l { h with annotations := found ++ h.annotations } rest
      | none => h
termination_by before.length
decreasing_by
  · simp
  · simp
  · have := length_of_annotationBefore? _h
    simp only [List.length_cons]
    omega

/-! ## Heads -/

/-- Reads the head with the keyword `keyword`, where `between` holds the tokens between the
keyword and the body and `before` those before the keyword, the last one first. -/
def readAt (l : Language) (kind : DeclarationKind) (keyword : TokenTree)
    (between before : List TokenTree) : Noted Head :=
  match between.filter (·.kind != .comment) with
  | [] => (none, [])
  | name :: rest =>
    match readName kind name with
    | (none, malformed) => (none, malformed)
    | (some (name, params), malformed) =>
      match readTypeParamsAfter params rest with
      | none => (none, malformed)
      | some (typeParams, rest) =>
        match readBases l [] (dropParens kind rest) with
        | (none, later) => (none, malformed ++ later)
        | (some groups, later) =>
          let (extended?, implemented) := splitBases l kind keyword.text groups
          let head : Head := {
            kind, keyword := keyword.text, name, typeParams, extended?, implemented,
            position := keyword.span.start }
          (some (readLead l head before), malformed ++ later)

/-- Whether a token ends the search for a keyword. -/
def isBarrier (t : Token) : Bool := t.isSeparator ";" || t.isBlock '\x7b'

/-- The kind of declaration that a token introduces. -/
def kind? (l : Language) (t : Token) : Option DeclarationKind :=
  if l.marks .block t then DeclarationKind.ofKeyword? t.text else none

/-- Searches the tokens before a body, the last one first, for the keyword of a head.  The tokens
between them and the body are in `between`. -/
def search (l : Language) (between : List TokenTree) : List TokenTree → Noted Head
  | [] => (none, [])
  | t :: before =>
    if isBarrier t.value then (none, [])
    else match kind? l t.value with
      | none => search l (t :: between) before
      | some kind =>
        match readAt l kind t between before with
        | (some head, malformed) => (some head, malformed)
        | (none, malformed) =>
          let (head?, later) := search l (t :: between) before
          (head?, malformed ++ later)

end Head

end Outline
