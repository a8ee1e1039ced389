import Reckon.Binary.Format

/-!
# Conversions between floating-point types

`Float32` and `Float` as a sign and a pattern, and the conversions that go through patterns:
widening, narrowing, and from integers. All of them round to nearest, a tie to even.
-/

namespace Reckon

open BinaryFormat

/-! ## Single precision -/

namespace Single

/-- The float of a sign and a pattern. -/
def ofPattern (negative : Bool) (p : Nat) : Float32 :=
  Float32.ofBits (UInt32.ofNat (if negative then 0x80000000 + p else p))

/-- The sign bit is set. -/
def isNegative (x : Float32) : Bool := 0x80000000 ≤ x.toBits.toNat

/-- The pattern of the magnitude. -/
def pattern (x : Float32) : Nat := x.toBits.toNat % 0x80000000

/-- The float nearest to an integer. -/
def ofInt (n : Int) : Float32 := ofPattern (n < 0) (single.nearest n.natAbs 1)

end Single

/-! ## Double precision -/

namespace Double

/-- The float of a sign and a pattern. -/
def ofPattern (negative : Bool) (p : Nat) : Float :=
  Float.ofBits (UInt64.ofNat (if negative then 0x8000000000000000 + p else p))

/-- The sign bit is set. -/
def isNegative (x : Float) : Bool := 0x8000000000000000 ≤ x.toBits.toNat

/-- The pattern of the magnitude. -/
def pattern (x : Float) : Nat := x.toBits.toNat % 0x8000000000000000

end Double

/-! ## Between the two -/

/-- The same number in double precision. -/
def Single.widen (x : Float32) : Float :=
  Double.ofPattern (Single.isNegative x) (single.convert double (Single.pattern x))

/-- The nearest number in single precision. -/
def Double.narrow (x : Float) : Float32 :=
  Single.ofPattern (Double.isNegative x) (double.convert single (Double.pattern x))

end Reckon
