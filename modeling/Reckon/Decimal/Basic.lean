import Reckon.Binary.Format

/-!
# Decimal numbers

A decimal is a natural coefficient and a power of ten. It is what digits with a point denote, and
what the shortest text of a float is chosen among.
-/

namespace Reckon

/-- The number `coefficient * 10 ^ exponent`. -/
structure Decimal where
  coefficient : Nat
  exponent : Int
deriving Repr, DecidableEq

namespace Decimal

/-! ## Reading -/

/-- At least one character, and ASCII digits only. -/
def isDigits (cs : List Char) : Bool := !cs.isEmpty && cs.all Char.isDigit

/-- The number that a row of digits denotes. -/
def ofDigits (cs : List Char) : Nat := Nat.ofDigitChars 10 cs 0

/-- The value of `digits.digits`, with digits on both sides of the point. -/
def ofText? (cs : List Char) : Option Decimal :=
  match cs.span (· != '.') with
  | (whole, _ :: fraction) =>
    if isDigits whole && isDigits fraction then
      some ⟨ofDigits (whole ++ fraction), -(fraction.length : Int)⟩
    else none
  | (_, []) => none

/-! ## Rounding -/

/-- The pattern of the nearest number of a binary format. -/
def nearest (d : Decimal) (f : BinaryFormat) : Nat :=
  f.nearest (d.coefficient * Nat.pow 10 d.exponent.toNat) (Nat.pow 10 (-d.exponent).toNat)

/-! ## Digits -/

/-- The digits of the coefficient, most significant first. -/
def digits (d : Decimal) : List Char := Nat.toDigits 10 d.coefficient

/-- The power of ten at which the first digit stands. -/
def leading (d : Decimal) : Int := d.exponent + d.digits.length - 1

end Decimal

end Reckon
