import Outline.FileTree.Path
import Outline.Project.Basic
import Outline.Text.Blank

/-!
# Destinations

A destination is a file with the namespaces whose declarations go into it.  It is written
`path=[A.B,C]`; a path alone takes every declaration.
-/

namespace Outline

/-! ## Errors -/

/-- Why a text is no destination. -/
inductive DestinationErrorCause where
  /-- There is no path. -/
  | missingPath
  /-- The namespaces are not between square brackets. -/
  | missingBrackets
  /-- A part of a dotted namespace is empty. -/
  | emptySegment
  deriving DecidableEq, Repr

/-- A text that is no destination. -/
structure DestinationError where
  /-- Why it is none. -/
  cause : DestinationErrorCause
  /-- The text. -/
  value : String
  deriving DecidableEq, Repr

namespace DestinationErrorCause

/-- How the cause reads. -/
def message : DestinationErrorCause → String
  | missingPath => "missing output path"
  | missingBrackets => "namespaces must be written as [Namespace,...]"
  | emptySegment => "namespace has an empty segment"

end DestinationErrorCause

namespace DestinationError

/-- How the error reads. -/
def message (e : DestinationError) : String :=
  "Invalid destination '" ++ e.value ++ "': " ++ e.cause.message

end DestinationError

/-! ## Destinations -/

/-- A file with the namespaces whose declarations go into it. -/
structure Destination where
  /-- The file. -/
  path : Path
  /-- The parts of the namespaces; with none, every declaration is taken. -/
  namespaces : List (List String)
  deriving DecidableEq, Repr

namespace Destination

/-- Reads the text between the commas of a list of namespaces; nothing is read from a blank
text. -/
def readNamespace (cs : List Char) : Except DestinationErrorCause (List (List String)) :=
  let cs := Text.trim cs
  if cs.isEmpty then .ok []
  else
    let parts := (Text.pieces '.' cs).map Text.trim
    if parts.any (·.isEmpty) then .error .emptySegment
    else .ok [parts.map String.ofList]

/-- Reads a list of namespaces between square brackets. -/
def readNamespaces (cs : List Char) : Except DestinationErrorCause (List (List String)) :=
  match cs, cs.getLast? with
  | '[' :: rest, some ']' =>
    ((Text.pieces ',' rest.dropLast).mapM readNamespace).map List.flatten
  | _, _ => .error .missingBrackets

/-- Reads the characters of a destination. -/
def readChars (cs : List Char) : Except DestinationErrorCause Destination :=
  let path := Text.trim (cs.takeWhile (· != '='))
  if path.isEmpty then .error .missingPath
  else do
    let namespaces ← match cs.dropWhile (· != '=') with
      | [] => pure []
      | _ :: list => readNamespaces (Text.trim list)
    pure ⟨⟨String.ofList path⟩, namespaces⟩

/-- Reads a destination. -/
def parse (value : String) : Except DestinationError Destination :=
  (readChars value.toList).mapError (⟨·, value⟩)

/-- Whether a declaration with the given full name goes to the destination. -/
def selects (d : Destination) (fullName : List String) : Bool :=
  d.namespaces.isEmpty || d.namespaces.any (·.isPrefixOf fullName)

end Destination

end Outline
