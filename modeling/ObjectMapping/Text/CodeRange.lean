/-!
# Ranges of code points

A set of characters is given as a list of closed ranges of code points in ascending order, and
`CodeRange.contains` looks a code point up in such a list, stopping at the first range above it.
-/

namespace ObjectMapping.Text

/-- The code points from `fst` to `snd`, both ends included. -/
abbrev CodeRange := Nat × Nat

/-- Whether one of the ranges, given in ascending order, holds the code point `n`. -/
def CodeRange.contains (n : Nat) : List CodeRange → Bool
  | [] => false
  | (low, high) :: rest => if n < low then false else n ≤ high || contains n rest

end ObjectMapping.Text
