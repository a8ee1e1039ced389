/-!
# White space

The characters with the Unicode property `White_Space`, and the trimming of texts by them.
The blanks between two tokens are a smaller set (`Reckon.Lexeme.isBlank`).
-/

namespace Reckon.Text

/-- The ranges of code points with the property `White_Space`, in ascending order. -/
def spaceRanges : List (Nat × Nat) :=
  [(0x9, 0xD), (0x20, 0x20), (0x85, 0x85), (0xA0, 0xA0), (0x1680, 0x1680), (0x2000, 0x200A),
   (0x2028, 0x2029), (0x202F, 0x202F), (0x205F, 0x205F), (0x3000, 0x3000)]

/-- A code point lies in one of the ranges. Both ends of a range belong to it. -/
def inRanges (ranges : List (Nat × Nat)) (c : Char) : Bool :=
  ranges.any fun r => r.1 ≤ c.toNat && c.toNat ≤ r.2

/-- White space in the sense of Unicode. -/
def isSpace (c : Char) : Bool := inRanges spaceRanges c

/-- The characters without the white space at their end. -/
def dropTrailing (cs : List Char) : List Char := (cs.reverse.dropWhile isSpace).reverse

/-- The text without the white space at its end. -/
def trimEnd (s : String) : String := String.ofList (dropTrailing s.toList)

/-- The text without the white space at either end. -/
def trim (s : String) : String := String.ofList (dropTrailing (s.toList.dropWhile isSpace))

/-- Nothing but white space. -/
def isBlank (s : String) : Bool := s.toList.all isSpace

end Reckon.Text
