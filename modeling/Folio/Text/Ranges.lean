/-!
# Sets of characters as ranges

A set of characters is a list of ranges of code points, in ascending order.

Results:
* `inRanges_iff`: a character is in the set if a range holds it.
-/
namespace Folio.Text

/-- Whether one of the ranges holds the character. Both ends belong to a range. -/
def inRanges (ranges : List (Nat × Nat)) (c : Char) : Bool :=
  ranges.any fun r => r.1 ≤ c.toNat && c.toNat ≤ r.2

theorem inRanges_iff {ranges : List (Nat × Nat)} {c : Char} :
    inRanges ranges c = true ↔ ∃ r ∈ ranges, r.1 ≤ c.toNat ∧ c.toNat ≤ r.2 := by
  simp [inRanges]

end Folio.Text
