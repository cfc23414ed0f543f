/-! # Blank characters

The characters with the Unicode property White_Space, and what it means to strip
them from the ends of a text.
-/

namespace WaveBus.Text

/-- First and last code point of every run of characters with the property White_Space. -/
def blankRanges : List (Nat × Nat) :=
  [(0x09, 0x0D), (0x20, 0x20), (0x85, 0x85), (0xA0, 0xA0), (0x1680, 0x1680), (0x2000, 0x200A),
   (0x2028, 0x2029), (0x202F, 0x202F), (0x205F, 0x205F), (0x3000, 0x3000)]

def isBlank (c : Char) : Bool :=
  blankRanges.any fun (first, last) => first ≤ c.toNat && c.toNat ≤ last

/-- Drops the longest end of a text whose characters all satisfy `p`. -/
def dropEndWhile (p : Char → Bool) (text : List Char) : List Char :=
  (text.reverse.dropWhile p).reverse

/-- A text without the blanks at its two ends. -/
def trim (text : List Char) : List Char :=
  dropEndWhile isBlank (text.dropWhile isBlank)

end WaveBus.Text
