/-
Sets of characters given by tables of code ranges.

A table lists closed ranges of code points in ascending order, no two of them touching. `inRanges` walks it from the
front and stops at the first range that ends at or above the code point. The classes test ASCII apart and use their
tables only above it.
-/
namespace StackLang.Text

/-- whether a code point lies in one of the ranges of an ascending table -/
def inRanges : List (Nat × Nat) → Nat → Bool
  | [], _ => false
  | (lo, hi) :: rest, n => if n ≤ hi then decide (lo ≤ n) else inRanges rest n

end StackLang.Text
