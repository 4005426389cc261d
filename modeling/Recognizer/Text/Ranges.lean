/-!
Classes of characters as ascending ranges of code points.
-/

namespace Recognizer.Text

/-- Whether one of the inclusive ranges holds the number, for ranges in ascending order. -/
def inRanges (n : Nat) : List (Nat × Nat) → Bool
  | [] => false
  | (low, high) :: ranges => low ≤ n && (n ≤ high || inRanges n ranges)

end Recognizer.Text
