import Outline.Language.Basic

/-!
# Owners of members
-/

namespace Outline

/-- The declaration whose members are read. -/
structure Owner where
  /-- The language. -/
  language : Language
  /-- The parts of its full name. -/
  fullName : List String
  deriving Repr

namespace Owner

/-- Its name, the last part of the full name. -/
def name? (o : Owner) : Option String := o.fullName.getLast?

/-- The parts of the full name of a member. -/
def memberName (o : Owner) (name : String) : List String := o.fullName ++ [name]

end Owner

end Outline
