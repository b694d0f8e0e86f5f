import Outline.Text.Split

/-!
# Paths

A path is kept as the text that a user writes.  It names a sequence of components: the pieces
between slashes without the empty ones and without the dots that stand inside.  Two paths with
the same components are the same path, and paths are ordered by their components.
-/

namespace Outline

/-- A step of a path. -/
inductive PathComponent where
  /-- The top of all directories. -/
  | root
  /-- The current directory. -/
  | current
  /-- The directory above. -/
  | parent
  /-- An entry of a directory. -/
  | name (s : String)
  deriving DecidableEq, Repr

namespace PathComponent

/-- How the component is written. -/
def text : PathComponent → String
  | root => "/"
  | current => "."
  | parent => ".."
  | name s => s

/-- The place of the component's sort in the order of components. -/
def rank : PathComponent → Nat
  | root => 0
  | current => 1
  | parent => 2
  | name _ => 3

/-- The order of components; names are ordered as texts. -/
def compare (a b : PathComponent) : Ordering :=
  (Ord.compare a.rank b.rank).then (Ord.compare a.text b.text)

end PathComponent

/-- A path as it is written. -/
structure Path where
  /-- The text. -/
  text : String
  deriving DecidableEq, Repr, Inhabited

namespace Path

/-! ## Components -/

/-- The component that a piece between slashes stands for, if it is not the first piece. -/
def innerComponent? (piece : String) : Option PathComponent :=
  if piece == "" || piece == "." then none
  else if piece == ".." then some .parent
  else some (.name piece)

/-- The pieces between slashes with the components that they stand for. -/
def markedPieces (p : Path) : List (String × Option PathComponent) :=
  match Text.splitAt '/' p.text with
  | [] => []
  | first :: rest =>
    let first? :=
      if first == "" then (if rest.isEmpty then none else some .root)
      else if first == "." then some .current
      else innerComponent? first
    (first, first?) :: rest.map fun piece => (piece, innerComponent? piece)

/-- The components. -/
def components (p : Path) : List PathComponent := p.markedPieces.filterMap (·.2)

/-- The text of leading pieces of a path. -/
def ofPieces (pieces : List String) : Path :=
  ⟨if pieces == [""] then "/" else "/".intercalate pieces⟩

/-- The path without what stands behind its last component. -/
def trimmed (p : Path) : Path :=
  ofPieces ((p.markedPieces.reverse.dropWhile (·.2.isNone)).reverse.map (·.1))

/-- The path without its last component, if it has one that is not the top. -/
def parent? (p : Path) : Option Path :=
  match p.markedPieces.reverse.dropWhile (·.2.isNone) with
  | [] => none
  | (_, some .root) :: _ => none
  | _ :: before => some (ofPieces ((before.dropWhile (·.2.isNone)).reverse.map (·.1)))

/-! ## Names -/

/-- The last component, if it is a name. -/
def fileName? (p : Path) : Option String :=
  match p.components.getLast? with
  | some (.name s) => some s
  | _ => none

/-- The part of the name behind its last dot.  A dot at the start of the name does not count. -/
def extension? (p : Path) : Option String :=
  p.fileName?.bind fun name =>
    let parts := Text.dottedParts name
    if 2 ≤ parts.length && Text.dotted parts.dropLast != "" then parts.getLast? else none

/-- Appends an extension to the name of the file; a path without a name is left alone. -/
def addExtension (p : Path) (extension : String) : Path :=
  if p.fileName?.isSome then ⟨p.trimmed.text ++ "." ++ extension⟩ else p

/-- The path of an entry of a directory. -/
def child (p : Path) (name : String) : Path :=
  if p.text == "" then ⟨name⟩
  else if p.text.endsWith "/" then ⟨p.text ++ name⟩
  else ⟨p.text ++ "/" ++ name⟩

/-! ## Relations -/

/-- Whether two paths have the same components. -/
def same (p q : Path) : Bool := p.components == q.components

/-- The order of lists of components. -/
def compareComponents : (as bs : List PathComponent) → Ordering
  | [], [] => .eq
  | [], _ :: _ => .lt
  | _ :: _, [] => .gt
  | a :: as, b :: bs => (a.compare b).then (compareComponents as bs)

/-- The order of paths. -/
def compare (p q : Path) : Ordering := compareComponents p.components q.components

/-- The components below a directory, and all components of a path that is not below it. -/
def relativeTo (p directory : Path) : List PathComponent :=
  let all := p.components
  let above := directory.components
  if above.isPrefixOf all then all.drop above.length else all

end Path

end Outline
