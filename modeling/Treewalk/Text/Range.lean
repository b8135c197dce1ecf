/-! # Character classes as ranges

    A class of characters is a list of closed ranges of code points, in
    ascending order and apart from each other. -/

namespace Treewalk.Text

/-- A closed range of code points. -/
abbrev CodeRange := Nat × Nat

/-- The code point lies in one of the ranges. -/
def inRanges (ranges : List CodeRange) (code : Nat) : Bool :=
  ranges.any fun (low, high) => low ≤ code && code ≤ high

end Treewalk.Text
