/-!
# Sets of code points

A set is given by the code points at which membership changes, in ascending order: the
first one begins a run of members, the second one ends it, and so on.
-/

namespace FlowDiagram.Text

/-- A set of code points. -/
abbrev CodeSet := List Nat

/-- The character is a member: an odd number of changes are not behind it. -/
def CodeSet.has (set : CodeSet) (c : Char) : Bool :=
  (set.takeWhile (· ≤ c.toNat)).length % 2 == 1

end FlowDiagram.Text
