import Outline.Declaration.Head

/-!
# Discovering declarations

`Discovery.ofDocument` finds the declarations of a document.  Every block in braces whose
preceding siblings hold the head of a declaration is the body of one; every other block is
searched for declarations as well.

The full name of a declaration is made of the package statements before it, the names of the
declarations around it and its own name.  The imports that are visible inside it are those of the
document and those inside the namespaces around it.
-/

namespace Outline

/-- A declaration with its body. -/
structure Discovered where
  /-- The declaration. -/
  declaration : Declaration TypeRef
  /-- The block that is its body. -/
  body : TokenTree
  deriving Repr

/-- What is found in a run of tokens. -/
structure Discovery where
  /-- The declarations, in the order of their bodies; each comes before those inside it. -/
  declarations : List Discovered := []
  /-- The imports of the document and of namespaces. -/
  imports : List Import := []
  /-- The full names of the namespaces and packages. -/
  packages : List (List String) := []
  /-- The texts in the place of a type that are none. -/
  malformed : List MalformedType := []
  /-- The work done. -/
  metrics : Metrics := {}
  deriving Repr

namespace Discovery

/-- What is found in one run of tokens and then in another one. -/
def append (a b : Discovery) : Discovery where
  declarations := a.declarations ++ b.declarations
  imports := a.imports ++ b.imports
  packages := a.packages ++ b.packages
  malformed := a.malformed ++ b.malformed
  metrics := a.metrics + b.metrics

instance : Append Discovery := ⟨append⟩

/-- What is around a run of sibling tokens. -/
structure Surroundings where
  /-- The language. -/
  language : Language
  /-- Whether the tokens are those of the document itself. -/
  isTop : Bool
  /-- The kind of the innermost declaration around the tokens. -/
  parent? : Option DeclarationKind
  /-- The imports that are visible. -/
  imports : List Import

/-- The surroundings of the tokens inside a block that is no body of a declaration. -/
def Surroundings.inside (s : Surroundings) : Surroundings := { s with isTop := false }

/-- The surroundings of the tokens inside the body of a declaration of the given kind, with the
imports that are found there. -/
def Surroundings.body (s : Surroundings) (kind : DeclarationKind) (imports : List Import) :
    Surroundings :=
  { s with isTop := false, parent? := some kind, imports := s.imports ++ imports }

/-- The parts of the name in a package statement that starts with the keyword `t`, where the
tokens after it are in `after`. -/
def packageName? (l : Language) (t : TokenTree) (after : List TokenTree) : Option (List String) :=
  if t.kind == .keyword && l.packageStatement? == some t.text then
    match after.filter (!·.kind.isTrivial) with
    | name :: stop :: _ =>
      if name.kind == .identifier && stop.value.isSeparator ";" then
        some (Text.dottedParts name.text)
      else none
    | _ => none
  else none

/-- The imports of namespaces that are found inside the body of a declaration. -/
def bodyImports (l : Language) (kind : DeclarationKind) (body : TokenTree) : List Import :=
  if kind.hasMembers then [] else Import.ofTokens l body.children

/-- What is found in the head and the body of a declaration, apart from the declarations inside
it. -/
def ofHead (s : Surroundings) (head : Head) (fullName : List String) (body : TokenTree) :
    Discovery :=
  let bare : Declaration TypeRef := {
    fullName, kind := head.kind, keyword := head.keyword,
    access := s.language.access head.modifiers head.kind s.parent?,
    modifiers := head.modifiers, typeParams := head.typeParams, extended? := head.extended?,
    implemented := head.implemented, annotations := head.annotations, comments := head.comments,
    imports := s.imports, position := head.position }
  if head.kind.hasMembers then
    let h := Members.ofBody ⟨s.language, fullName⟩ head.kind body.children
    { declarations := [⟨{ bare with
        fields := h.members.fields, methods := h.members.methods,
        enumMembers := h.members.enumMembers }, body⟩],
      malformed := h.malformed,
      metrics := { h.metrics with blocks := 1 } }
  else
    let imports := bodyImports s.language head.kind body
    { declarations := [⟨{ bare with imports := s.imports ++ imports }, body⟩],
      imports, packages := [fullName] }

/-- Searches a run of sibling tokens, where the siblings before it are in `before`, the last one
first, and `scope` holds the parts of the full name of what is around it. -/
def ofSiblings (s : Surroundings) (scope : List String) (before : List TokenTree) :
    List TokenTree → Discovery
  | [] => {}
  | .node token children :: after =>
    let t : TokenTree := .node token children
    if token.kind != .block then
      match if s.isTop then packageName? s.language t after else none with
      | some name =>
        { packages := [scope ++ name] } ++ ofSiblings s (scope ++ name) (t :: before) after
      | none => ofSiblings s scope (t :: before) after
    else
      let (head?, malformed) :=
        if token.isBlock '\x7b' then Head.search s.language [] before else (none, [])
      let found := match head? with
        | some head =>
          let imports := bodyImports s.language head.kind t
          ofHead s head (scope ++ head.name) t ++
            ofSiblings (s.body head.kind imports) (scope ++ head.name) [] children
        | none => ofSiblings s.inside scope [] children
      { malformed } ++ found ++ ofSiblings s scope (t :: before) after
termination_by ts => sizeOf ts
decreasing_by
  all_goals simp only [List.cons.sizeOf_spec, Rose.node.sizeOf_spec]
  all_goals omega

/-- Searches a document. -/
def ofDocument (l : Language) (document : TokenTree) : Discovery :=
  let imports := Import.ofTokens l document.children
  { imports } ++
    ofSiblings { language := l, isTop := true, parent? := none, imports } [] []
      document.children

end Discovery

end Outline
