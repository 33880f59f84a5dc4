/-! Sets of code points, written as their ranges in ascending order. -/

namespace ScriptEngine.Text

/-- Some range has the code point in it. The search ends at the first range that starts above it. -/
def inRanges (n : Nat) : List (Nat × Nat) → Bool
  | [] => false
  | (low, high) :: ranges => low ≤ n && (n ≤ high || inRanges n ranges)

end ScriptEngine.Text
