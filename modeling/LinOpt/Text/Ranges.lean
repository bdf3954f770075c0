/-!
# Classes of characters

A class of characters is a list of closed ranges of code points. The tables of this library are stated as
such lists, in ascending order.
-/

namespace LinOpt

/-- A class of characters, as closed ranges of code points. -/
abbrev CodeRanges := List (Nat × Nat)

namespace CodeRanges

/-- Is the character in one of the ranges? -/
def has (ranges : CodeRanges) (c : Char) : Bool :=
  ranges.any fun (low, high) => decide (low ≤ c.toNat) && decide (c.toNat ≤ high)

/-- A character is in a class exactly when a range of the class holds its code point. -/
theorem has_iff (ranges : CodeRanges) (c : Char) :
    ranges.has c = true ↔ ∃ r ∈ ranges, r.1 ≤ c.toNat ∧ c.toNat ≤ r.2 := by
  simp [has]

/-- Do the ranges ascend, with a gap between neighbours? -/
def ascending : CodeRanges → Bool
  | [] => true
  | [(low, high)] => decide (low ≤ high)
  | (low, high) :: (next, last) :: more =>
    decide (low ≤ high) && decide (high + 1 < next) && ascending ((next, last) :: more)

end CodeRanges

end LinOpt
