/-
Formula/Text/Ranges.lean

Classes of characters as ascending lists of code point ranges, both ends
included.  A look-up stops at the first range that starts above the character,
so the common characters, which come first, are found at once.
-/

namespace Formula.Text

/-- Ascending, disjoint ranges of code points. -/
abbrev CharRanges := List (Nat × Nat)

/-- Whether a character lies in one of the ranges. -/
def CharRanges.contains : CharRanges → Char → Bool
  | [], _ => false
  | (low, high) :: rest, c =>
    if c.toNat < low then false else c.toNat ≤ high || contains rest c

end Formula.Text
