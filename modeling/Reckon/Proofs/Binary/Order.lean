import Mathlib
import Reckon.Evaluation.Operation
import Reckon.Proofs.Binary.Widening

/-!
# The order of floats

How two floats compare is found out by asking up to three questions (`compareFloats`). The answer
is the comparison of their parts (`compareFloats_unpack`), so it is turned around when the operands are
swapped, and there is none exactly where one of the two is no number. An integer that becomes a
float is always a number.
-/

namespace Reckon

open Float.Model (UnpackedFloat)

/-! ## Parts of floats -/

namespace UnpackedOrder

theorem sign_swap (s t : UnpackedFloat.Sign) : compare t s = (compare s t).swap := by
  cases s <;> cases t <;> rfl

/-- Swapping the operands turns the answer around. -/
theorem compare_swap (u v : UnpackedFloat) : v.compare u = (u.compare v).map Ordering.swap := by
  cases u with
  | notANumber => cases v <;> rfl
  | infinity s =>
    cases v with
    | infinity t => exact congrArg some (sign_swap s t)
    | finite t m e hm => cases s <;> cases t <;> rfl
    | _ => cases s <;> rfl
  | zero s =>
    cases v with
    | infinity t | finite t m e hm => cases t <;> rfl
    | _ => rfl
  | finite s m e hm =>
    cases v with
    | infinity t => cases s <;> cases t <;> rfl
    | notANumber => rfl
    | zero t => cases s <;> rfl
    | finite t n d hn =>
      -- of two numbers with the same sign the exponents and then the significands decide
      cases s <;> cases t <;>
        simp [UnpackedFloat.compare, Ordering.swap_then, ← Std.OrientedOrd.eq_swap]

/-- Everything compares but what is no number. -/
theorem compare_eq_none_iff (u v : UnpackedFloat) :
    u.compare v = none ↔ u.isNaN = true ∨ v.isNaN = true := by
  cases u with
  | notANumber => simp [UnpackedFloat.isNaN, UnpackedFloat.compare]
  | infinity s | zero s | finite s m e hm =>
    cases v with
    | notANumber => cases s <;> simp [UnpackedFloat.isNaN, UnpackedFloat.compare]
    | infinity t | zero t | finite t n d hn =>
      cases s <;> cases t <;> simp [UnpackedFloat.isNaN, UnpackedFloat.compare]

end UnpackedOrder

/-! ## Floats -/

/-- The three questions find out how the parts compare. -/
theorem compareFloats_unpack (a b : Float32) :
    compareFloats a b = a.toModel.unpack.compare b.toModel.unpack := by
  have hlt : ∀ x y : Float32, x < y ↔ x.toModel.unpack.compare y.toModel.unpack = some .lt :=
    fun _ _ => decide_eq_true_iff.trans beq_iff_eq
  have heq : (a == b) = (a.toModel.unpack.compare b.toModel.unpack == some .eq) := rfl
  rw [compareFloats, heq]
  simp only [hlt, UnpackedOrder.compare_swap a.toModel.unpack b.toModel.unpack]
  cases a.toModel.unpack.compare b.toModel.unpack with
  | none => rfl
  | some o => cases o <;> rfl

theorem compareFloats_swap (a b : Float32) :
    compareFloats b a = (compareFloats a b).map Ordering.swap := by
  rw [compareFloats_unpack, compareFloats_unpack]
  exact UnpackedOrder.compare_swap _ _

theorem compareFloats_eq_none_iff (a b : Float32) :
    compareFloats a b = none ↔ a.isNaN = true ∨ b.isNaN = true := by
  rw [compareFloats_unpack]
  exact UnpackedOrder.compare_eq_none_iff _ _

/-! ## Integers among floats -/

namespace Single

/-- The float of some bits is no number if the bits say so. -/
theorem isNaN_ofBits (b : UInt32) :
    (Float32.ofBits b).isNaN = @UnpackedFloat.isNaNBits .binary32 b.toBitVec := by
  have hiff : (Float32.ofBits b).isNaN = true ↔
      (Float32.ofBits b).toBits.toBitVec = UnpackedFloat.packedNaN .binary32 :=
    UnpackedFloat.isNaN_unpack_iff_of_valid (Float32.ofBits b).toModel.valid (by decide)
  rw [Bool.eq_iff_iff, hiff, toBits_ofBits]
  split
  next h => exact iff_of_true rfl h
  next h =>
    refine iff_of_false (fun heq => h ?_) h
    rw [heq]
    exact UnpackedFloat.isNaNBits_packedNaN

/-- Rounding an integer leads to a number or to infinity. -/
theorem isNaN_ofInt (n : Int) : (ofInt n).isNaN = false := by
  have hle : BinaryFormat.single.nearest n.natAbs 1 ≤ BinaryFormat.single.infinity :=
    BinaryFormat.single.nearest_le_infinity _ _
  rw [ofInt, ofPattern, isNaN_ofBits, ← Bool.not_eq_true]
  exact (number_bits _ hle rfl).2

end Single

end Reckon
