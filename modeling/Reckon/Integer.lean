/-!
# Integers of 64 bits

An integer has 64 bits and a sign, or it does not fit.
-/

namespace Reckon

/-- The integer of 64 bits that has this value, if there is one. -/
def int64? (n : Int) : Option Int64 :=
  if -0x8000000000000000 ≤ n ∧ n < 0x8000000000000000 then some (Int64.ofInt n) else none

end Reckon
