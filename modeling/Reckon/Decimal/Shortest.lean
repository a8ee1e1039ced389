import Reckon.Decimal.Basic

/-!
# The shortest decimal of a float

Among the decimals that read back as a given number of a binary format, the ones with the fewest
digits lie on the coarsest decimal grid that has a point there, and of those the one nearest to the
number is taken; of two equally near ones, the larger. The decimals that read back form an interval:
it ends halfway to the two neighbours, and its ends belong to it if and only if the pattern is even,
because rounding takes a tie to the even pattern.

A grid has a point in the interval as soon as one of the number's two neighbours on that grid lies
in it, so two candidates for each grid are enough. The number itself lies on the grid of its last
digit, where the search ends.
-/

namespace Reckon

/-- The decimals that read back as one number. All three bounds count the same unit, a quarter of
the number's own one: `2 ^ exponent`. -/
structure Interval where
  low : Nat
  mid : Nat
  high : Nat
  exponent : Int
  /-- The two ends belong to the interval. -/
  closed : Bool
deriving Repr

namespace Interval

/-- The interval of the number with pattern `p`, which is not zero. The neighbour below is only
half as far away if `p` is the first of its block and has an exponent above the least. -/
def ofPattern (f : BinaryFormat) (p : Nat) : Interval :=
  let m := f.significand p
  let below := if m = f.block ∧ f.least < f.exponent p then 1 else 2
  ⟨4 * m - below, 4 * m, 4 * m + 2, f.exponent p - 2, p % 2 == 0⟩

/-- What a bound is multiplied with to count units of `10 ^ g`, together with `unit`. -/
def factor (i : Interval) (g : Int) : Nat := Nat.pow 10 (-g).toNat <<< i.exponent.toNat

def unit (i : Interval) (g : Int) : Nat := Nat.pow 10 g.toNat <<< (-i.exponent).toNat

/-- The point `k * 10 ^ g` lies in the interval. -/
def contains (i : Interval) (g : Int) (k : Nat) : Bool :=
  let x := k * i.unit g
  let low := i.low * i.factor g
  let high := i.high * i.factor g
  if i.closed then low ≤ x && x ≤ high else low < x && x < high

/-- The point of the grid `10 ^ g` that lies in the interval nearest to its number. -/
def onGrid (i : Interval) (g : Int) : Option Decimal :=
  let mid := i.mid * i.factor g
  let k := mid / i.unit g
  match i.contains g k, i.contains g (k + 1) with
  | true, true =>
    if 2 * (mid % i.unit g) < i.unit g then some ⟨k, g⟩ else some ⟨k + 1, g⟩
  | true, false => some ⟨k, g⟩
  | false, true => some ⟨k + 1, g⟩
  | false, false => none

end Interval

/-- The number `m * 2 ^ e` as a decimal, with all its digits. -/
def Decimal.ofBinary (m : Nat) (e : Int) : Decimal :=
  if 0 ≤ e then ⟨m <<< e.toNat, 0⟩ else ⟨m * Nat.pow 5 (-e).toNat, e⟩

/-- The shortest decimal that reads back as the number with pattern `p`, which is not zero. The
search starts on a grid wider than the number and ends on that of its last digit. -/
def Decimal.shortest (f : BinaryFormat) (p : Nat) : Decimal :=
  let e := f.exponent p
  let top : Int := max 0 (e + f.precision) / 3 + 1
  let bottom : Int := min 0 e
  let grids : List Nat := List.range (top - bottom + 1).toNat
  (grids.findSome? fun n : Nat => (Interval.ofPattern f p).onGrid (top - n)).getD
    (.ofBinary (f.significand p) e)

end Reckon
