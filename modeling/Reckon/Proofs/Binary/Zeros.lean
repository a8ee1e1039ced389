import Mathlib
import Reckon.Binary.Convert

/-!
# The two zeros

There is a zero for either sign, and the two are equal as numbers. Arithmetic keeps them apart, but
never lets them lead to anything else that is unequal, as long as nothing is divided by them. So
floats that are equal as numbers may stand for one another in all operations
(`Single.Alike.add` and its likes).

A float is looked at through its parts: a sign, a significand and an exponent, or one of the
special cases.
-/

namespace Reckon

open Float.Model (UnpackedFloat)

/-! ## Parts of floats -/

/-- The same float, or zeros of any signs. -/
inductive AlikeParts : UnpackedFloat → UnpackedFloat → Prop
  | same (u : UnpackedFloat) : AlikeParts u u
  | zeros (s t : UnpackedFloat.Sign) : AlikeParts (.zero s) (.zero t)

namespace AlikeParts

variable {f : Float.Model.Format} {u u' v v' : UnpackedFloat}

/-- Equality of numbers is being the same, or zeros. -/
theorem of_beq (h : u.beq v = true) : AlikeParts u v := by
  obtain ⟨-, -, rfl | ⟨rfl, rfl⟩ | ⟨rfl, rfl⟩⟩ :=
    (UnpackedFloat.beq_iff_ne_notANumber_and_eq u v).mp h
  · exact .same u
  · exact .zeros _ _
  · exact .zeros _ _

theorem eq_of_ne_zero (h : AlikeParts u v) (hu : ∀ s, u ≠ .zero s) : u = v := by
  cases h with
  | same u => rfl
  | zeros s t => exact absurd rfl (hu s)

theorem trans (h : AlikeParts u u') (h' : AlikeParts u' v) : AlikeParts u v := by
  cases h with
  | same u => exact h'
  | zeros s t =>
    cases h' with
    | same u => exact .zeros _ _
    | zeros t r => exact .zeros _ _

theorem neg (h : AlikeParts u u') : AlikeParts u.neg u'.neg := by
  cases h with
  | same u => exact .same _
  | zeros s t => exact .zeros _ _

/-- An operation keeps floats alike if it does so on either side for zeros. -/
theorem congr_zeros {op : UnpackedFloat → UnpackedFloat → UnpackedFloat}
    (hl : ∀ s t v, AlikeParts (op (.zero s) v) (op (.zero t) v))
    (hr : ∀ u s t, AlikeParts (op u (.zero s)) (op u (.zero t))) (h : AlikeParts u u')
    (h' : AlikeParts v v') : AlikeParts (op u v) (op u' v') := by
  have hleft : AlikeParts (op u v) (op u' v) := by
    cases h with
    | same u => exact .same _
    | zeros s t => exact hl s t v
  have hright : AlikeParts (op u' v) (op u' v') := by
    cases h' with
    | same v => exact .same _
    | zeros s t => exact hr u' s t
  exact hleft.trans hright

theorem add_zeros (s t s' t' : UnpackedFloat.Sign) :
    AlikeParts (UnpackedFloat.add f (.zero s) (.zero t))
      (UnpackedFloat.add f (.zero s') (.zero t')) := by
  simp only [UnpackedFloat.add]
  split <;> split <;> exact .zeros _ _

/-- A sum of zeros is a zero, and any other sum does not depend on the sign of one. -/
theorem add (h : AlikeParts u u') (h' : AlikeParts v v') :
    AlikeParts (u.add f v) (u'.add f v') := by
  refine congr_zeros (fun s t v => ?_) (fun u s t => ?_) h h'
  · cases v with
    | zero r => exact add_zeros _ _ _ _
    | _ => exact .same _
  · cases u with
    | zero r => exact add_zeros _ _ _ _
    | _ => exact .same _

theorem sub_zeros (s t s' t' : UnpackedFloat.Sign) :
    AlikeParts (UnpackedFloat.sub f (.zero s) (.zero t))
      (UnpackedFloat.sub f (.zero s') (.zero t')) := by
  simp only [UnpackedFloat.sub]
  split <;> split <;> exact .zeros _ _

theorem sub (h : AlikeParts u u') (h' : AlikeParts v v') :
    AlikeParts (u.sub f v) (u'.sub f v') := by
  refine congr_zeros (fun s t v => ?_) (fun u s t => ?_) h h'
  · cases v with
    | zero r => exact sub_zeros _ _ _ _
    | _ => exact .same _
  · cases u with
    | zero r => exact sub_zeros _ _ _ _
    | _ => exact .same _

/-- A product with a zero is a zero, or not a number. -/
theorem mul (h : AlikeParts u u') (h' : AlikeParts v v') :
    AlikeParts (u.mul f v) (u'.mul f v') := by
  refine congr_zeros (fun s t v => ?_) (fun u s t => ?_) h h'
  · cases v with
    | zero r => exact .zeros _ _
    | finite r m e hm => exact .zeros _ _
    | _ => exact .same _
  · cases u with
    | zero r => exact .zeros _ _
    | finite r m e hm => exact .zeros _ _
    | _ => exact .same _

/-- A quotient of a zero is a zero, or not a number. -/
theorem div (h : AlikeParts u u') (v : UnpackedFloat) : AlikeParts (u.div f v) (u'.div f v) := by
  cases h with
  | same u => exact .same _
  | zeros s t =>
    cases v with
    | finite r m e hm => exact .zeros _ _
    | infinity r => exact .zeros _ _
    | _ => exact .same _

/-- Comparisons do not see the sign of a zero. -/
theorem compare (h : AlikeParts u u') (h' : AlikeParts v v') : u.compare v = u'.compare v' := by
  cases h with
  | same u =>
    cases h' with
    | same v => rfl
    | zeros s t =>
      cases u with
      | finite r m e hm => cases r <;> rfl
      | infinity r => cases r <;> rfl
      | _ => rfl
  | zeros s t =>
    cases h' with
    | zeros s' t' => rfl
    | same v =>
      cases v with
      | finite r m e hm => cases r <;> rfl
      | infinity r => cases r <;> rfl
      | _ => rfl

end AlikeParts

/-! ## Single precision -/

/-- The same float, or floats that are equal as numbers. -/
def Single.Alike (x y : Float32) : Prop := x = y ∨ (x == y) = true

namespace Single.Alike

variable {x x' y y' : Float32}

theorem parts (h : Alike x y) : AlikeParts x.toModel.unpack y.toModel.unpack := by
  rcases h with rfl | h
  · exact .same _
  · exact .of_beq h

theorem ofModel_pack_unpack (x : Float32) : Float32.ofModel (.pack x.toModel.unpack) = x :=
  x.ofBits_toBits

theorem of_parts {u v : UnpackedFloat} (h : AlikeParts u v) :
    Alike (.ofModel (.pack u)) (.ofModel (.pack v)) := by
  cases h with
  | same u => exact .inl rfl
  | zeros s t =>
    right
    cases s <;> cases t <;> rfl

theorem neg (h : Alike x x') : Alike (-x) (-x') := of_parts h.parts.neg

theorem add (h : Alike x x') (h' : Alike y y') : Alike (x + y) (x' + y') :=
  of_parts (h.parts.add h'.parts)

theorem sub (h : Alike x x') (h' : Alike y y') : Alike (x - y) (x' - y') :=
  of_parts (h.parts.sub h'.parts)

theorem mul (h : Alike x x') (h' : Alike y y') : Alike (x * y) (x' * y') :=
  of_parts (h.parts.mul h'.parts)

theorem lt_iff (h : Alike x x') (h' : Alike y y') : x < y ↔ x' < y' := by
  have hlt : ∀ a b : Float32,
      a < b ↔ (a.toModel.unpack.compare b.toModel.unpack == some .lt) = true :=
    fun a b => decide_eq_true_iff
  rw [hlt, hlt, h.parts.compare h'.parts]

theorem beq_eq (h : Alike x x') (h' : Alike y y') : (x == y) = (x' == y') :=
  congrArg (· == some Ordering.eq) (h.parts.compare h'.parts)

/-- What is not equal to zero has no zero among its parts. -/
theorem unpack_ne_zero (h : (x == ofInt 0) = false) (s : UnpackedFloat.Sign) :
    x.toModel.unpack ≠ .zero s := by
  intro hs
  have hcompare : (x == ofInt 0) = (x.toModel.unpack.compare (.zero .positive) == some .eq) := rfl
  rw [hcompare, hs] at h
  cases h

/-- Nothing is divided by a zero, so the divisors are the same. -/
theorem div (h : Alike x x') (h' : Alike y y') (hy : (y == ofInt 0) = false) :
    Alike (x / y) (x' / y') := by
  have hdivisor := h'.parts.eq_of_ne_zero (unpack_ne_zero hy)
  have hquotient := h.parts.div (f := .binary32) y.toModel.unpack
  exact of_parts (by rwa [← hdivisor])

end Single.Alike

/-! ## Double precision -/

namespace Double

/-- The same float, or floats that are equal as numbers. -/
def Alike (x y : Float) : Prop := x = y ∨ (x == y) = true

theorem ofModel_pack_unpack (x : Float) : Float.ofModel (.pack x.toModel.unpack) = x :=
  x.ofBits_toBits

/-- A zero is rounded to a zero. -/
theorem Alike.narrow {x y : Float} (h : Alike x y) : Single.Alike (narrow x) (narrow y) := by
  rcases h with rfl | h
  · exact .inl rfl
  have hparts : AlikeParts x.toModel.unpack y.toModel.unpack := .of_beq h
  rw [← ofModel_pack_unpack x, ← ofModel_pack_unpack y]
  generalize x.toModel.unpack = u, y.toModel.unpack = v at hparts
  cases hparts with
  | same u => exact .inl rfl
  | zeros s t =>
    right
    cases s <;> cases t <;> rfl

end Double

/-- A zero of the same sign is found in the other precision. -/
theorem Single.Alike.widen {x y : Float32} (h : Alike x y) :
    Double.Alike (Single.widen x) (Single.widen y) := by
  rcases h with rfl | h
  · exact .inl rfl
  have hparts : AlikeParts x.toModel.unpack y.toModel.unpack := .of_beq h
  rw [← ofModel_pack_unpack x, ← ofModel_pack_unpack y]
  generalize x.toModel.unpack = u, y.toModel.unpack = v at hparts
  cases hparts with
  | same u => exact .inl rfl
  | zeros s t =>
    right
    cases s <;> cases t <;> rfl

end Reckon
