import Mathlib
import Reckon.Binary.Convert
import Reckon.Proofs.Binary.Rounding

/-!
# Widening and back

Every number of single precision is one of double precision. So widening a float rounds nothing,
and narrowing it again gives the same float (`Double.narrow_widen`). What is no number has no sign
and no payload and comes back too.
-/

namespace Reckon

open Float.Model (Format UnpackedFloat)

namespace BinaryFormat

/-! ## Patterns -/

/-- In double precision the significand of a number is moved up until it is full. -/
theorem exists_canonical_double {m : Nat} {e : Int} (hm : m ≠ 0) (hdigits : m.log2 ≤ 52)
    (hleast : -1022 ≤ e) (hlargest : e ≤ 971) :
    ∃ q d, double.Canonical q d ∧ double.pattern q d < double.infinity ∧
      (q : ℚ) * 2 ^ d = m * 2 ^ e := by
  obtain ⟨k, hk⟩ := Nat.exists_eq_add_of_le hdigits
  have hfull : 2 ^ 52 ≤ m * 2 ^ k := by
    rw [hk, Nat.pow_add]
    exact Nat.mul_le_mul_right _ (Nat.log2_self_le hm)
  have hbound : m * 2 ^ k < 2 ^ 53 := by
    rw [show 53 = m.log2 + 1 + k by omega, Nat.pow_add _ _ k]
    exact Nat.mul_lt_mul_of_pos_right Nat.lt_log2_self (Nat.two_pow_pos k)
  refine ⟨m * 2 ^ k, e - k, ⟨?_, ?_, .inl hfull⟩, ?_, ?_⟩
  · exact hbound
  · show (-1074 : Int) ≤ _
    omega
  · show (e - k - -1074).toNat * 2 ^ 52 + _ < 2047 * 2 ^ 52
    omega
  · rw [zpow_sub₀ two_ne_zero]
    push_cast
    rw [zpow_natCast]
    field_simp

/-- Where the exponents of single precision end. -/
theorem single_exponent_le {p : Nat} (hp : p < single.infinity) : single.exponent p ≤ 104 := by
  show (-149 : Int) + ((p / 0x800000 - 1 : Nat) : Int) ≤ 104
  have hp : p < 0x7F800000 := hp
  omega

/-- A number is found in double precision, and found again from there. -/
theorem convert_finite {p : Nat} (hp : p < single.infinity) :
    single.convert double p < double.infinity ∧
      double.convert single (single.convert double p) = p := by
  by_cases hq : single.significand p = 0
  · have hzero : p = 0 := by
      rw [significand] at hq
      split at hq
      · exact hq
      · have := single.block_pos
        omega
    subst hzero
    decide
  · have hlog : (single.significand p).log2 ≤ 23 := ((single.canonical p).log2_le hq).1
    have hleast : -149 ≤ single.exponent p := (single.canonical p).le
    have hlargest := single_exponent_le hp
    obtain ⟨q, e, hcanonical, hlt, hvalue⟩ := exists_canonical_double
      (e := single.exponent p) hq (hlog.trans (by decide)) (by omega) (by omega)
    have hwide : single.convert double p = double.pattern q e := by
      rw [convert, if_pos hp, nearest_eq hcanonical (denominator_ne_zero _ _),
        Nat.min_eq_right hlt.le]
      rw [hvalue, numerator_eq]
    have hback : double.convert single (double.pattern q e) = p := by
      rw [convert, if_pos hlt, nearest_eq (single.canonical p) (denominator_ne_zero _ _),
        pattern_significand, Nat.min_eq_right hp.le]
      rw [numerator_eq, hcanonical.significand_pattern, hcanonical.exponent_pattern, hvalue]
    rw [hwide]
    exact ⟨hlt, hback⟩

end BinaryFormat

open BinaryFormat

/-! ## Bits -/

/-- Bits are those of no number if they are above those of infinity, the sign left out. -/
theorem isNaNBits_iff {f : Format} (b : BitVec f.numBits) :
    UnpackedFloat.isNaNBits b = true ↔
      2 ^ f.mantissaBitsWithoutImplicit * (2 ^ f.exponentBits - 1) <
        b.toNat % (2 ^ f.mantissaBitsWithoutImplicit * 2 ^ f.exponentBits) := by
  have hexponent : UnpackedFloat.unpackExponent b = -1#_ ↔
      b.toNat / 2 ^ f.mantissaBitsWithoutImplicit % 2 ^ f.exponentBits =
        2 ^ f.exponentBits - 1 := by
    rw [UnpackedFloat.unpackExponent_def, BitVec.neg_one_eq_allOnes, ← BitVec.toNat_inj,
      BitVec.extractLsb'_toNat, BitVec.toNat_allOnes, Nat.shiftRight_eq_div_pow]
  have hmantissa : UnpackedFloat.unpackMantissa b = 0#_ ↔
      b.toNat % 2 ^ f.mantissaBitsWithoutImplicit = 0 := by
    rw [UnpackedFloat.unpackMantissa_def, ← BitVec.toNat_inj, BitVec.extractLsb'_toNat]
    simp
  rw [UnpackedFloat.isNaNBits, decide_eq_true_iff, hexponent, ne_eq, hmantissa, Nat.mod_mul]
  have hlt := Nat.mod_lt (b.toNat / 2 ^ f.mantissaBitsWithoutImplicit)
    (Nat.two_pow_pos f.exponentBits)
  have hlt' := Nat.mod_lt b.toNat (Nat.two_pow_pos f.mantissaBitsWithoutImplicit)
  generalize b.toNat / 2 ^ f.mantissaBitsWithoutImplicit % 2 ^ f.exponentBits = e at *
  generalize b.toNat % 2 ^ f.mantissaBitsWithoutImplicit = m at *
  constructor
  · rintro ⟨rfl, hm⟩
    omega
  · intro h
    have he : e = 2 ^ f.exponentBits - 1 := by
      by_contra hne
      have hle : e + 1 ≤ 2 ^ f.exponentBits - 1 := by omega
      have := Nat.mul_le_mul_left (2 ^ f.mantissaBitsWithoutImplicit) hle
      rw [Nat.mul_succ] at this
      omega
    subst he
    omega

namespace Single

theorem toBits_ofBits (b : UInt32) :
    (Float32.ofBits b).toBits.toBitVec =
      if @UnpackedFloat.isNaNBits .binary32 b.toBitVec then UnpackedFloat.packedNaN .binary32
      else b.toBitVec :=
  @UnpackedFloat.pack_unpack .binary32 b.toBitVec (by decide)

theorem ofPattern_pattern (x : Float32) : ofPattern (isNegative x) (pattern x) = x := by
  have hlt : x.toBits.toNat < 2 ^ 32 := x.toBits.toNat_lt
  have hbits : (if isNegative x then 0x80000000 + pattern x else pattern x) = x.toBits.toNat := by
    unfold isNegative pattern
    split
    next h =>
      have := of_decide_eq_true h
      omega
    next h =>
      have : ¬ 0x80000000 ≤ x.toBits.toNat := fun hle => h (decide_eq_true hle)
      omega
  rw [ofPattern, hbits, UInt32.ofNat_toNat, Float32.ofBits_toBits]

/-- Neither a number nor infinity has the bits of what is no number. -/
theorem number_bits (negative : Bool) {p n : Nat} (hp : p ≤ single.infinity)
    (hn : (if negative then 0x80000000 + p else p) = n) :
    (UInt32.ofNat n).toNat = n ∧
      ¬ @UnpackedFloat.isNaNBits .binary32 (UInt32.ofNat n).toBitVec = true := by
  have hp' : p ≤ 0x7F800000 := hp
  have hlt : n < 2 ^ 32 := by
    subst hn
    split <;> omega
  have hpattern : n % 2 ^ 31 = p := by
    subst hn
    split <;> omega
  have hnat : (UInt32.ofNat n).toNat = n := UInt32.toNat_ofNat_of_lt hlt
  refine ⟨hnat, ?_⟩
  rw [isNaNBits_iff (f := .binary32)]
  show ¬ 2 ^ 23 * (2 ^ 8 - 1) < (UInt32.ofNat n).toNat % 2 ^ 31
  rw [hnat, hpattern]
  omega

/-- The bits of a number or of infinity are its sign and its pattern. -/
theorem toBits_ofPattern (negative : Bool) {p : Nat} (hp : p ≤ single.infinity) :
    (ofPattern negative p).toBits.toNat = if negative then 0x80000000 + p else p := by
  rw [ofPattern]
  generalize hn : (if negative then 0x80000000 + p else p) = n
  obtain ⟨hnat, hnumber⟩ := number_bits negative hp hn
  have hbits := toBits_ofBits (UInt32.ofNat n)
  rw [if_neg hnumber] at hbits
  rw [UInt32.toBitVec_inj.mp hbits, hnat]

/-- Numbers from zero upwards are one if their patterns are. -/
theorem ofPattern_inj {p r : Nat} (hp : p ≤ single.infinity) (hr : r ≤ single.infinity) :
    ofPattern false p = ofPattern false r ↔ p = r := by
  refine ⟨fun h => ?_, congrArg _⟩
  have hbits := congrArg (fun x => x.toBits.toNat) h
  simpa [toBits_ofPattern, hp, hr] using hbits

/-- What is no number is always the same. -/
theorem eq_nan {x : Float32} (h : single.infinity < pattern x) :
    x = ofPattern false (single.infinity + 1) := by
  have hnan : @UnpackedFloat.isNaNBits .binary32 x.toBits.toBitVec = true :=
    (isNaNBits_iff (f := .binary32) x.toBits.toBitVec).mpr h
  have hbits := toBits_ofBits x.toBits
  rw [if_pos hnan, Float32.ofBits_toBits] at hbits
  rw [← Float32.toBits_inj, ← UInt32.toBitVec_inj, hbits]
  rfl

end Single

namespace Double

theorem toBits_ofBits (b : UInt64) :
    (Float.ofBits b).toBits.toBitVec =
      if @UnpackedFloat.isNaNBits .binary64 b.toBitVec then UnpackedFloat.packedNaN .binary64
      else b.toBitVec :=
  @UnpackedFloat.pack_unpack .binary64 b.toBitVec (by decide)

/-- The bits of a number or of infinity are its sign and its pattern. -/
theorem toBits_ofPattern (negative : Bool) {p : Nat} (hp : p ≤ double.infinity) :
    (ofPattern negative p).toBits.toNat = if negative then 0x8000000000000000 + p else p := by
  have hp' : p ≤ 0x7FF0000000000000 := hp
  rw [ofPattern]
  generalize hn : (if negative then 0x8000000000000000 + p else p) = n
  have hlt : n < 2 ^ 64 := by
    subst hn
    split <;> omega
  have hpattern : n % 2 ^ 63 = p := by
    subst hn
    split <;> omega
  have hnat : (UInt64.ofNat n).toNat = n := UInt64.toNat_ofNat_of_lt hlt
  have hnumber : ¬ @UnpackedFloat.isNaNBits .binary64 (UInt64.ofNat n).toBitVec = true := by
    rw [isNaNBits_iff (f := .binary64)]
    show ¬ 2 ^ 52 * (2 ^ 11 - 1) < (UInt64.ofNat n).toNat % 2 ^ 63
    rw [hnat, hpattern]
    omega
  have hbits := toBits_ofBits (UInt64.ofNat n)
  rw [if_neg hnumber] at hbits
  rw [UInt64.toBitVec_inj.mp hbits, hnat]

theorem isNegative_ofPattern (negative : Bool) {p : Nat} (hp : p ≤ double.infinity) :
    isNegative (ofPattern negative p) = negative := by
  have hp' : p ≤ 0x7FF0000000000000 := hp
  rw [isNegative, toBits_ofPattern negative hp]
  cases negative with
  | false => exact decide_eq_false (by simp; omega)
  | true => exact decide_eq_true (by simp)

theorem pattern_ofPattern (negative : Bool) {p : Nat} (hp : p ≤ double.infinity) :
    pattern (ofPattern negative p) = p := by
  have hp' : p ≤ 0x7FF0000000000000 := hp
  rw [pattern, toBits_ofPattern negative hp]
  split <;> omega

/-- **Narrowing undoes widening.** -/
theorem narrow_widen (x : Float32) : narrow (Single.widen x) = x := by
  rcases Nat.lt_or_ge single.infinity (Single.pattern x) with hnan | hle
  · rw [Single.eq_nan hnan]
    rfl
  · have hconvert : single.convert double (Single.pattern x) ≤ double.infinity ∧
        double.convert single (single.convert double (Single.pattern x)) = Single.pattern x := by
      rcases Nat.lt_or_eq_of_le hle with hlt | heq
      · exact (convert_finite hlt).imp_left Nat.le_of_lt
      · rw [heq]
        decide
    rw [narrow, Single.widen, isNegative_ofPattern _ hconvert.1, pattern_ofPattern _ hconvert.1,
      hconvert.2, Single.ofPattern_pattern]

end Double

end Reckon
