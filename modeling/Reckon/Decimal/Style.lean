import Reckon.Binary.Convert
import Reckon.Decimal.Shortest

/-!
# How a float is written

The digits are always the shortest that read back. A style decides where the point stands: which
numbers are written positionally and which with an exponent, and whether a whole number keeps a
point.
-/

namespace Reckon

/-- The choices left open once the digits are known. -/
structure Decimal.Style where
  /-- A whole number ends in `.0`. -/
  wholePoint : Bool
  /-- The powers of ten at which the first digit of a positionally written number may stand. -/
  positional : Int → Bool

namespace Decimal

/-- Values are written positionally at any size, a whole number without a point. -/
def Style.value : Style := ⟨false, fun _ => true⟩

/-- The log writes numbers from `10 ^ 16` upwards and below `10 ^ -4` with an exponent, and gives
a whole number a point. -/
def Style.log : Style := ⟨true, fun n => -4 ≤ n && n < 16⟩

/-- Zeros in front, until there are at least `n` digits. -/
def padLeft (n : Nat) (cs : List Char) : List Char := List.replicate (n - cs.length) '0' ++ cs

/-- All digits in their places, with a zero in front of the point if there is nothing else. -/
def positional (wholePoint : Bool) (d : Decimal) : List Char :=
  if 0 ≤ d.exponent then
    d.digits ++ List.replicate d.exponent.toNat '0' ++ (if wholePoint then ['.', '0'] else [])
  else
    let places := (-d.exponent).toNat
    let cs := padLeft (places + 1) d.digits
    cs.take (cs.length - places) ++ '.' :: cs.drop (cs.length - places)

/-- One digit, then the others behind a point if there are any, then the power of ten. -/
def scientific (d : Decimal) : List Char :=
  let fraction := d.digits.drop 1
  d.digits.take 1 ++ (if fraction.isEmpty then [] else '.' :: fraction)
    ++ 'e' :: (toString d.leading).toList

/-- A decimal in a style. -/
def write (style : Style) (d : Decimal) : List Char :=
  if style.positional d.leading then d.positional style.wholePoint else d.scientific

end Decimal

/-- The text of a float: the sign, then the shortest digits that read back. -/
def Single.text (style : Decimal.Style) (x : Float32) : String :=
  let p := Single.pattern x
  let sign := if Single.isNegative x then "-" else ""
  if BinaryFormat.single.infinity < p then "NaN"
  else if p = BinaryFormat.single.infinity then sign ++ "inf"
  else if p = 0 then sign ++ String.ofList (Decimal.positional style.wholePoint ⟨0, 0⟩)
  else sign ++ String.ofList ((Decimal.shortest .single p).write style)

end Reckon
