/-!
# Output documents

What is written to a file or to the screen is first built as a tree of lists and records.  The
fields of a record keep their order.
-/

namespace Outline

/-- A tree of values that can be written in several formats. -/
inductive Data where
  /-- No value. -/
  | null
  /-- A truth value. -/
  | bool (b : Bool)
  /-- A number. -/
  | number (n : Nat)
  /-- A text. -/
  | text (s : String)
  /-- A list of values. -/
  | list (items : List Data)
  /-- Values with names, in order. -/
  | record (fields : List (String × Data))
  deriving Repr, Inhabited

namespace Data

/-- The list of the given texts. -/
def texts (ss : List String) : Data := list (ss.map text)

/-- A text, or no value. -/
def textOrNull (s? : Option String) : Data := (s?.map text).getD null

/-- A field that is left out if the text is absent. -/
def optionalText (name : String) (s? : Option String) : List (String × Data) :=
  s?.toList.map fun s => (name, text s)

/-- A field that is left out if the list is empty. -/
def optionalList (name : String) (items : List Data) : List (String × Data) :=
  if items.isEmpty then [] else [(name, list items)]

end Data

end Outline
