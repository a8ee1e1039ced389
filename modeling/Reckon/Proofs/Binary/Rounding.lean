import Mathlib.Data.Rat.Cast.Order
import Mathlib.Algebra.Order.Field.Power
import Mathlib.Tactic.FieldSimp
import Mathlib.Tactic.Ring
import Mathlib.Tactic.Linarith
import Reckon.Binary.Format

/-!
# Rounding what needs no rounding

A number of a format is a significand and an exponent: a full significand, or one that is not full
with the least exponent (`BinaryFormat.Canonical`). The patterns count these pairs, and a quotient
that is exactly such a number is rounded to its pattern (`BinaryFormat.nearest_eq`).
-/

namespace Reckon.BinaryFormat

/-! ## Patterns as pairs -/

theorem block_pos (f : BinaryFormat) : 0 < f.block := by
  rw [block, Nat.one_shiftLeft]
  exact Nat.two_pow_pos _

/-- The significand is full, or the exponent is the least one. -/
structure Canonical (f : BinaryFormat) (q : Nat) (e : Int) : Prop where
  lt : q < 2 * f.block
  le : f.least ≤ e
  full : f.block ≤ q ∨ e = f.least

theorem canonical (f : BinaryFormat) (p : Nat) : f.Canonical (f.significand p) (f.exponent p) := by
  have hmod := Nat.mod_lt p f.block_pos
  unfold significand exponent
  split
  next h =>
    refine ⟨by omega, by omega, .inr ?_⟩
    rw [Nat.div_eq_of_lt h]
    simp
  next h => exact ⟨by omega, by omega, .inl (Nat.le_add_right _ _)⟩

theorem pattern_significand (f : BinaryFormat) (p : Nat) :
    f.pattern (f.significand p) (f.exponent p) = p := by
  have hexponent : (f.exponent p - f.least).toNat = p / f.block - 1 := by
    rw [exponent]
    omega
  rw [pattern, hexponent, significand]
  split
  next h => simp [Nat.div_eq_of_lt h]
  next h =>
    have hdiv : 0 < p / f.block := Nat.div_pos (Nat.le_of_not_lt h) f.block_pos
    have hsplit := Nat.div_add_mod p f.block
    obtain ⟨k, hk⟩ := Nat.exists_eq_succ_of_ne_zero hdiv.ne'
    rw [hk, Nat.mul_comm, Nat.succ_mul] at hsplit
    rw [hk, Nat.succ_sub_one]
    omega

namespace Canonical

variable {f : BinaryFormat} {q : Nat} {e : Int}

theorem pattern_div (h : f.Canonical q e) (hq : f.block ≤ q) :
    f.pattern q e / f.block = (e - f.least).toNat + 1 ∧ f.pattern q e % f.block = q - f.block := by
  have hlt := h.lt
  rw [pattern, Nat.div_mod_unique f.block_pos]
  constructor
  · ring_nf
    omega
  · omega

theorem significand_pattern (h : f.Canonical q e) : f.significand (f.pattern q e) = q := by
  rcases Nat.lt_or_ge q f.block with hq | hq
  · obtain rfl := h.full.resolve_left (Nat.not_le.mpr hq)
    simp [pattern, significand, hq]
  · obtain ⟨hdiv, hmod⟩ := h.pattern_div hq
    have hge : ¬ f.pattern q e < f.block := fun hlt => by
      rw [Nat.div_eq_of_lt hlt] at hdiv
      omega
    rw [significand, if_neg hge, hmod]
    omega

theorem exponent_pattern (h : f.Canonical q e) : f.exponent (f.pattern q e) = e := by
  have hle := h.le
  rcases Nat.lt_or_ge q f.block with hq | hq
  · obtain rfl := h.full.resolve_left (Nat.not_le.mpr hq)
    simp [pattern, exponent, Nat.div_eq_of_lt hq]
  · rw [exponent, (h.pattern_div hq).1]
    omega

end Canonical

/-! ## The size of a quotient -/

/-- A power as a quotient of two powers with natural exponents. -/
theorem zpow_eq_div (b : ℚ) (z : Int) : b ^ z = b ^ z.toNat / b ^ (-z).toNat := by
  rcases Int.le_total 0 z with hz | hz
  · obtain ⟨n, rfl⟩ := Int.eq_ofNat_of_zero_le hz
    simp
  · obtain ⟨n, hn⟩ := Int.eq_ofNat_of_zero_le (Int.neg_nonneg.mpr hz)
    obtain rfl : z = -n := by omega
    simp

theorem shiftLeft_le_iff (m n : Nat) (z : Int) :
    m <<< z.toNat ≤ n <<< (-z).toNat ↔ (2 : ℚ) ^ z * m ≤ n := by
  rw [zpow_eq_div, Nat.shiftLeft_eq, Nat.shiftLeft_eq, div_mul_eq_mul_div,
    div_le_iff₀ (by positivity), ← Nat.cast_le (α := ℚ)]
  push_cast
  rw [mul_comm]

/-- The size of a quotient is the only exponent of a power of two next below it. -/
theorem log2Div_eq {num den : Nat} {z : Int} (hnum : num ≠ 0) (hden : den ≠ 0)
    (hle : (2 : ℚ) ^ z * den ≤ num) (hlt : (num : ℚ) < 2 ^ (z + 1) * den) :
    log2Div num den = z := by
  have hpow : ∀ {a b : Int}, (2 : ℚ) ^ a < 2 ^ b → a < b :=
    fun h => (zpow_lt_zpow_iff_right₀ one_lt_two).mp h
  have hnum_le : (2 : ℚ) ^ (num.log2 : Int) ≤ num := by exact_mod_cast Nat.log2_self_le hnum
  have hnum_lt : (num : ℚ) < 2 ^ (num.log2 + 1 : Int) := by exact_mod_cast Nat.lt_log2_self
  have hden_le : (2 : ℚ) ^ (den.log2 : Int) ≤ den := by exact_mod_cast Nat.log2_self_le hden
  have hden_lt : (den : ℚ) < 2 ^ (den.log2 + 1 : Int) := by exact_mod_cast Nat.lt_log2_self
  -- the sizes of the two numbers leave two exponents
  have hbelow : z + den.log2 < num.log2 + 1 := by
    refine hpow ?_
    rw [zpow_add₀ two_ne_zero]
    calc (2 : ℚ) ^ z * 2 ^ (den.log2 : Int) ≤ 2 ^ z * den := by gcongr
      _ ≤ num := hle
      _ < 2 ^ (num.log2 + 1 : Int) := hnum_lt
  have habove : (num.log2 : Int) < z + 1 + (den.log2 + 1) := by
    refine hpow ?_
    rw [zpow_add₀ two_ne_zero (z + 1)]
    calc (2 : ℚ) ^ (num.log2 : Int) ≤ num := hnum_le
      _ < 2 ^ (z + 1) * den := hlt
      _ ≤ 2 ^ (z + 1) * 2 ^ (den.log2 + 1 : Int) := by gcongr
  unfold log2Div
  simp only [shiftLeft_le_iff]
  split
  next h =>
    have : (num.log2 - den.log2 : Int) < z + 1 := by
      refine hpow (lt_of_mul_lt_mul_right (h.trans_lt hlt) (Nat.cast_nonneg den))
    omega
  next h =>
    have : z ≠ (num.log2 - den.log2 : Int) := by
      rintro rfl
      exact h hle
    omega

/-! ## Exact quotients -/

section

variable {f : BinaryFormat} {q num den : Nat} {e : Int}

/-- A quotient that is a whole number is that number. -/
theorem divEven_mul (q : Nat) {den : Nat} (h : 0 < den) : divEven (q * den) den = q := by
  simp [divEven, Nat.mul_div_cancel _ h, h]

/-- The size of a significand. -/
theorem Canonical.log2_le (h : f.Canonical q e) (hq : q ≠ 0) :
    q.log2 ≤ f.precision - 1 ∧ (f.block ≤ q → q.log2 = f.precision - 1) := by
  have hlt : q < 2 ^ (f.precision - 1 + 1) := by
    rw [Nat.pow_succ, ← Nat.one_shiftLeft, Nat.mul_comm]
    exact h.lt
  refine ⟨Nat.le_of_lt_succ ((Nat.log2_lt hq).mpr hlt), fun hfull => ?_⟩
  rw [block, Nat.one_shiftLeft] at hfull
  exact (Nat.log2_eq_iff hq).mpr ⟨hfull, hlt⟩

/-- The quotient is `q` units of exponent `e`, said without fractions. -/
theorem shiftLeft_eq_iff :
    num <<< (-e).toNat = q * den <<< e.toNat ↔ (num : ℚ) = q * 2 ^ e * den := by
  rw [zpow_eq_div, Nat.shiftLeft_eq, Nat.shiftLeft_eq, mul_div_assoc', div_mul_eq_mul_div,
    eq_div_iff (by positivity), ← Nat.cast_inj (R := ℚ)]
  push_cast
  rw [mul_right_comm, mul_assoc (q : ℚ)]

theorem eq_zero_iff (hden : den ≠ 0) (heq : (num : ℚ) = q * 2 ^ e * den) : num = 0 ↔ q = 0 := by
  have hzpow : (2 : ℚ) ^ e ≠ 0 := by positivity
  rw [← Nat.cast_eq_zero (R := ℚ), heq]
  simp [hden, hzpow]

theorem log2Div_eq_add (hq : q ≠ 0) (hden : den ≠ 0) (heq : (num : ℚ) = q * 2 ^ e * den) :
    log2Div num den = q.log2 + e := by
  have hden_pos : (0 : ℚ) < den := by exact_mod_cast Nat.pos_of_ne_zero hden
  have hle : (2 : ℚ) ^ (q.log2 : Int) ≤ q := by exact_mod_cast Nat.log2_self_le hq
  have hlt : (q : ℚ) < 2 ^ (q.log2 + 1 : Int) := by exact_mod_cast Nat.lt_log2_self
  refine log2Div_eq (mt (eq_zero_iff hden heq).mp hq) hden ?_ ?_
  · rw [heq, zpow_add₀ two_ne_zero]
    gcongr
  · rw [heq, add_right_comm, zpow_add₀ two_ne_zero]
    gcongr

theorem exponentFor_eq (h : f.Canonical q e) (hq : q ≠ 0) (hden : den ≠ 0)
    (heq : (num : ℚ) = q * 2 ^ e * den) : f.exponentFor num den = e := by
  have hle := h.le
  obtain ⟨hlog, hfull⟩ := h.log2_le hq
  rw [exponentFor, log2Div_eq_add hq hden heq]
  rcases h.full with hblock | hleast
  · have := hfull hblock
    omega
  · omega

/-- **A number of the format is rounded to itself.** -/
theorem nearest_eq (h : f.Canonical q e) (hden : den ≠ 0) (heq : (num : ℚ) = q * 2 ^ e * den) :
    f.nearest num den = min f.infinity (f.pattern q e) := by
  unfold nearest
  split
  next hnum =>
    -- only zero units are zero, and they have the least exponent
    have hq := (eq_zero_iff hden heq).mp hnum
    have hleast := h.full.resolve_left (by rw [hq]; exact Nat.not_le.mpr f.block_pos)
    rw [hq, hleast, pattern]
    simp
  next hnum =>
    have hq := mt (eq_zero_iff hden heq).mpr hnum
    have hpos : 0 < den <<< e.toNat := by
      rw [Nat.shiftLeft_eq]
      positivity
    simp only [exponentFor_eq h hq hden heq]
    rw [shiftLeft_eq_iff.mpr heq, divEven_mul q hpos]

theorem denominator_ne_zero (f : BinaryFormat) (p : Nat) : f.denominator p ≠ 0 := by
  rw [denominator, Nat.one_shiftLeft]
  positivity

/-- The number of a pattern is its significand in units of its exponent. -/
theorem numerator_eq (f : BinaryFormat) (p : Nat) :
    (f.numerator p : ℚ) = f.significand p * 2 ^ f.exponent p * f.denominator p := by
  rw [numerator, denominator, zpow_eq_div, Nat.shiftLeft_eq, Nat.one_shiftLeft]
  push_cast
  field_simp

end

end Reckon.BinaryFormat
