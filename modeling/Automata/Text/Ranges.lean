/-
# Ranges of code points

A set of characters given as a list of ranges of code points in ascending order, as the tables of character
properties are given.
-/

namespace Automata.Text

/-- Whether a code point lies in one of the ranges.  Each range has its first and its last member; they
ascend, so the search ends at the first range that starts beyond the code point. -/
def inRanges : List (Nat × Nat) → Nat → Bool
  | [], _ => false
  | (lo, hi) :: rest, n => if n < lo then false else n ≤ hi || inRanges rest n

end Automata.Text
