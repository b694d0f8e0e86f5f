/-!
# Keywords

A keyword table lists the reserved words of a language, each with the roles that the word may
play in a declaration.
-/

namespace Outline

/-- A role that a keyword may play. -/
inductive Capability where
  /-- The name of a type that is part of the language. -/
  | type
  /-- A modifier of a declaration with a body of members. -/
  | classModifier
  /-- A modifier of a field. -/
  | fieldModifier
  /-- A modifier of a method. -/
  | methodModifier
  /-- A modifier of a parameter. -/
  | parameterModifier
  /-- The word that introduces a declaration. -/
  | block
  /-- The word that introduces a list of base types. -/
  | inheritance
  /-- An operator that is written as a word. -/
  | operator
  /-- A constant that is written as a word. -/
  | literal
  deriving DecidableEq, Repr

namespace Capability

/-- Every role. -/
def all : List Capability :=
  [type, classModifier, fieldModifier, methodModifier, parameterModifier, block, inheritance,
    operator, literal]

end Capability

/-- The reserved words of a language with their roles, in ascending order. -/
abbrev KeywordTable := List (String × List Capability)

namespace KeywordTable

/-- The roles of a word, if it is reserved. -/
def capabilities? (table : KeywordTable) (word : String) : Option (List Capability) :=
  table.lookup word

/-- Whether a word is reserved. -/
def isKeyword (table : KeywordTable) (word : String) : Bool := (table.capabilities? word).isSome

/-- Whether a word is reserved and may play the given role. -/
def has (table : KeywordTable) (word : String) (role : Capability) : Bool :=
  (table.capabilities? word).any (·.contains role)

/-- The reserved words. -/
def words (table : KeywordTable) : List String := table.map (·.1)

end KeywordTable

end Outline
