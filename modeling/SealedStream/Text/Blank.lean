import SealedStream.Text.Ranges

/-!
# Blank characters

The characters with the property White_Space, and taking them off both ends of
a text.
-/

namespace SealedStream

namespace Text

/-- The code points of blank characters. -/
def blankRanges : Array (Nat × Nat) :=
  #[(0x9, 0xd), (0x20, 0x20), (0x85, 0x85), (0xa0, 0xa0), (0x1680, 0x1680),
    (0x2000, 0x200a), (0x2028, 0x2029), (0x202f, 0x202f), (0x205f, 0x205f),
    (0x3000, 0x3000)]

/-- A character of white space. -/
def isBlank (c : Char) : Bool :=
  inRanges blankRanges c.toNat

/-- A text without the blanks at its two ends. -/
def trim (s : List Char) : List Char :=
  ((s.dropWhile isBlank).reverse.dropWhile isBlank).reverse

end Text

end SealedStream
