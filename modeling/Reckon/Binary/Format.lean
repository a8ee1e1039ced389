/-!
# Binary floating-point formats

A format has a precision and a least exponent. Its numbers from zero upwards are counted by their
*patterns*: zero has pattern 0, the next pattern is the next number, and infinity has the pattern
after that of the largest number. So the patterns fall into blocks of `2 ^ (precision - 1)`
numbers; the first two blocks share the least exponent, and every later block has an exponent one
higher than the block before it.

## Rounding

`BinaryFormat.nearest` rounds a quotient of natural numbers to the nearest number of the format,
a tie to the even pattern. It fixes the exponent first, then rounds the quotient to a whole number
of units of that exponent. If that fills the block, the sum of the two falls on the first number of
the next block by itself, and past the last block on infinity.
-/

namespace Reckon

/-- A binary floating-point format, seen through the patterns of its numbers. -/
structure BinaryFormat where
  /-- The number of binary digits of a full significand. -/
  precision : Nat
  /-- The exponent of the unit in which the smallest numbers are counted. -/
  least : Int
  /-- The pattern of infinity; every smaller one is that of a number. -/
  infinity : Nat

namespace BinaryFormat

/-- The format of 32 bits. -/
def single : BinaryFormat := ⟨24, -149, 0x7F800000⟩

/-- The format of 64 bits. -/
def double : BinaryFormat := ⟨53, -1074, 0x7FF0000000000000⟩

/-- How many numbers share one exponent. -/
def block (f : BinaryFormat) : Nat := 1 <<< (f.precision - 1)

/-! ## From a pattern to its number -/

/-- The units that the number of pattern `p` counts. -/
def significand (f : BinaryFormat) (p : Nat) : Nat :=
  if p < f.block then p else f.block + p % f.block

/-- The exponent of the unit that the number of pattern `p` counts. -/
def exponent (f : BinaryFormat) (p : Nat) : Int := f.least + ((p / f.block - 1 : Nat) : Int)

/-- The number of pattern `p` is `numerator f p / denominator f p`. -/
def numerator (f : BinaryFormat) (p : Nat) : Nat := f.significand p <<< (f.exponent p).toNat

def denominator (f : BinaryFormat) (p : Nat) : Nat := 1 <<< (-f.exponent p).toNat

/-- The pattern of `q` units of exponent `e`, for `e` at least the least exponent. -/
def pattern (f : BinaryFormat) (q : Nat) (e : Int) : Nat := (e - f.least).toNat * f.block + q

/-! ## From a quotient to the nearest pattern -/

/-- The quotient as a whole number, to nearest, a tie to the even one. -/
def divEven (num den : Nat) : Nat :=
  let q := num / den
  let r := num % den
  if 2 * r < den then q else if den < 2 * r then q + 1 else q + q % 2

/-- The exponent of the largest power of two that is at most `num / den`. -/
def log2Div (num den : Nat) : Int :=
  let l : Int := (num.log2 : Int) - den.log2
  if den <<< l.toNat ≤ num <<< (-l).toNat then l else l - 1

/-- The exponent in whose units a quotient of this size is counted. -/
def exponentFor (f : BinaryFormat) (num den : Nat) : Int :=
  max f.least (log2Div num den - (f.precision - 1 : Nat))

/-- The pattern of the number nearest to `num / den`, a tie to the even pattern. -/
def nearest (f : BinaryFormat) (num den : Nat) : Nat :=
  if num = 0 then 0
  else
    let e := f.exponentFor num den
    min f.infinity (f.pattern (divEven (num <<< (-e).toNat) (den <<< e.toNat)) e)

/-- Nothing is rounded to more than infinity. -/
theorem nearest_le_infinity (f : BinaryFormat) (num den : Nat) :
    f.nearest num den ≤ f.infinity := by
  rw [nearest]
  split
  · exact Nat.zero_le _
  · exact Nat.min_le_left _ _

/-- The same number in another format, rounded where it has to be. Infinity stays infinity, and
what is no number stays none. -/
def convert (f g : BinaryFormat) (p : Nat) : Nat :=
  if p < f.infinity then g.nearest (f.numerator p) (f.denominator p)
  else if p = f.infinity then g.infinity
  else g.infinity + 1

end BinaryFormat

end Reckon
