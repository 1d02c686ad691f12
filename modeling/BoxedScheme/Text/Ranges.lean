/-!
# Sets of characters

A property of characters as the ranges of code points that have it.
-/

namespace BoxedScheme.Text

/-- The character lies in one of the ranges, ends included. -/
def inRanges (ranges : List (Nat × Nat)) (c : Char) : Bool :=
  ranges.any fun (first, last) => first ≤ c.toNat && c.toNat ≤ last

end BoxedScheme.Text
