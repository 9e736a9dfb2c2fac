/-!
# Ranges of code points

A property of characters is a list of ranges of code points, in increasing
order and with both ends included.
-/

namespace SealedStream

namespace Text

/-- Does a code point lie in one of the ranges? -/
def inRanges (ranges : Array (Nat × Nat)) (n : Nat) : Bool :=
  ranges.any fun r => r.1 ≤ n && n ≤ r.2

end Text

end SealedStream
