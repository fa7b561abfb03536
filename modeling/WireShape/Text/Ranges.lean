/-!
# Sets of characters as ranges of code points

* `inRanges`: membership in a list of closed ranges.
-/

namespace WireShape.Text

/-- Closed ranges of code points, in rising order. -/
abbrev Ranges := List (Nat × Nat)

/-- Whether the character lies in one of the ranges; those that begin behind it are not looked
at. -/
def inRanges (ranges : Ranges) (c : Char) : Bool :=
  (ranges.takeWhile fun r => r.1 ≤ c.toNat).any fun r => c.toNat ≤ r.2

end WireShape.Text
