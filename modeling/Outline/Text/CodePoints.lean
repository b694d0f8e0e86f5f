/-!
# Sets of code points

A set of code points is written down by its *switches*: the ascending list of the code points
at which membership changes, starting outside the set.  A code point belongs to the set when an
odd number of switches lie at or below it.
-/

namespace Outline.Text

/-- Membership in the set with the given switches. -/
def switchedOn (switches : Array Nat) (n : Nat) : Bool :=
  switches.countP (· ≤ n) % 2 == 1

end Outline.Text
