import Mathlib.Algebra.Order.Archimedean.Basic
import Mathlib.Order.Monotone.Basic
import Mathlib.Tactic.Linarith
import Mathlib.Tactic.Positivity
import Reckon.Proofs.Binary.Rounding

/-!
# Rounding to the nearest pattern

The numbers of a format ascend with their patterns (`BinaryFormat.strictMono_value`), and halfway
between two of them that follow one another is a midpoint. What a quotient is rounded to is decided
by the midpoints that it has passed: its pattern is above those of which it has passed the midpoint,
and on a midpoint it goes to the even side (`BinaryFormat.Rounds`). Behind the largest number stands
infinity, and the midpoint in front of it is that of the number that would come next.

`BinaryFormat.nearest_rounds` says this of the rounding that the formats do. There the exponent is
fixed first, so there is a unit in which both the quotient and the pattern are counted.
-/

namespace Reckon.BinaryFormat

/-! ## Numbers and midpoints -/

/-- The number of a pattern. That of infinity would be the one behind the largest number. -/
def value (f : BinaryFormat) (p : Nat) : ℚ := f.significand p * 2 ^ f.exponent p

/-- The point halfway between the number of a pattern and the next one. -/
def midpoint (f : BinaryFormat) (p : Nat) : ℚ := (f.value p + f.value (p + 1)) / 2

theorem Canonical.value_pattern {f : BinaryFormat} {q : Nat} {e : Int} (h : f.Canonical q e) :
    f.value (f.pattern q e) = q * 2 ^ e := by
  rw [value, h.significand_pattern, h.exponent_pattern]

theorem two_zpow_pos (e : Int) : (0 : ℚ) < 2 ^ e := by positivity

theorem two_zpow_succ (e : Int) : (2 : ℚ) ^ (e + 1) = 2 * 2 ^ e := by
  rw [zpow_add_one₀ two_ne_zero, mul_comm]

/-- The number of a pattern as a quotient of natural numbers. -/
theorem value_eq_div (f : BinaryFormat) (p : Nat) :
    f.value p = f.numerator p / f.denominator p := by
  have hden : (f.denominator p : ℚ) ≠ 0 := Nat.cast_ne_zero.mpr (f.denominator_ne_zero p)
  rw [value, numerator_eq, mul_div_cancel_right₀ _ hden]

/-- The next number is one unit further, also where the exponent changes. -/
theorem value_succ (f : BinaryFormat) (p : Nat) :
    f.value (p + 1) = (f.significand p + 1) * 2 ^ f.exponent p := by
  have h := f.canonical p
  have hp := f.pattern_significand p
  rcases Nat.lt_or_eq_of_le (Nat.succ_le_of_lt h.lt) with hlt | hfull
  · have hnext : f.Canonical (f.significand p + 1) (f.exponent p) :=
      ⟨hlt, h.le, h.full.imp_left Nat.le_succ_of_le⟩
    have hpattern : f.pattern (f.significand p + 1) (f.exponent p) = p + 1 := by
      rw [pattern, ← Nat.add_assoc, ← pattern, hp]
    rw [← hpattern, hnext.value_pattern]
    push_cast
    rfl
  · -- the block is full, so the next number is the first of the next block
    have hnext : f.Canonical f.block (f.exponent p + 1) :=
      ⟨by have := f.block_pos; omega, by have := h.le; omega, .inl (Nat.le_refl _)⟩
    have hpattern : f.pattern f.block (f.exponent p + 1) = p + 1 := by
      have hexponent : (f.exponent p + 1 - f.least).toNat = (f.exponent p - f.least).toNat + 1 := by
        have := h.le
        omega
      rw [pattern] at hp ⊢
      rw [hexponent, Nat.succ_mul]
      omega
    have hsignificand : (f.significand p : ℚ) + 1 = 2 * f.block := by exact_mod_cast hfull
    rw [← hpattern, hnext.value_pattern, hsignificand, two_zpow_succ]
    ring

/-- A midpoint is half a unit further than the number in front of it. -/
theorem midpoint_eq (f : BinaryFormat) (p : Nat) :
    f.midpoint p = (f.significand p + 1 / 2) * 2 ^ f.exponent p := by
  rw [midpoint, value_succ, value]
  ring

theorem Canonical.midpoint_pattern {f : BinaryFormat} {q : Nat} {e : Int} (h : f.Canonical q e) :
    f.midpoint (f.pattern q e) = (q + 1 / 2) * 2 ^ e := by
  rw [midpoint_eq, h.significand_pattern, h.exponent_pattern]

theorem value_lt_succ (f : BinaryFormat) (p : Nat) : f.value p < f.value (p + 1) := by
  rw [value_succ, value]
  have := two_zpow_pos (f.exponent p)
  linarith

/-- **Numbers ascend with their patterns.** -/
theorem strictMono_value (f : BinaryFormat) : StrictMono f.value :=
  strictMono_nat_of_lt_succ f.value_lt_succ

theorem value_lt_midpoint (f : BinaryFormat) (p : Nat) : f.value p < f.midpoint p := by
  have := f.value_lt_succ p
  rw [midpoint]
  linarith

theorem midpoint_lt_value (f : BinaryFormat) {p r : Nat} (h : p < r) :
    f.midpoint p < f.value r := by
  have hlt := f.value_lt_succ p
  have hle := f.strictMono_value.monotone (Nat.succ_le_of_lt h)
  rw [midpoint]
  linarith

theorem midpoint_lt_midpoint (f : BinaryFormat) {p r : Nat} (h : p < r) :
    f.midpoint p < f.midpoint r :=
  (f.midpoint_lt_value h).trans (f.value_lt_midpoint r)

/-! ## Rounding by midpoints -/

/-- The pattern `n` is that of the number nearest to `x`, on a midpoint the even one. -/
structure Rounds (f : BinaryFormat) (x : ℚ) (n : Nat) : Prop where
  le : n ≤ f.infinity
  lt_iff : ∀ p < f.infinity, p < n ↔ f.midpoint p < x ∨ f.midpoint p = x ∧ p % 2 = 1

namespace Rounds

variable {f : BinaryFormat} {x y : ℚ} {m n p : Nat}

/-- Two numbers that pass the same midpoints are rounded to the same pattern. -/
theorem eq_of_forall (hm : f.Rounds x m) (hn : f.Rounds y n)
    (h : ∀ p < f.infinity, p < m ↔ p < n) : m = n := by
  have hmn : ¬ m < n := fun hlt => by
    have := (h m (Nat.lt_of_lt_of_le hlt hn.le)).mpr hlt
    omega
  have hnm : ¬ n < m := fun hlt => by
    have := (h n (Nat.lt_of_lt_of_le hlt hm.le)).mp hlt
    omega
  omega

theorem unique (hm : f.Rounds x m) (hn : f.Rounds x n) : m = n :=
  hm.eq_of_forall hn fun p hp => (hm.lt_iff p hp).trans (hn.lt_iff p hp).symm

/-- Rounding does not go below a number of the format. -/
theorem le_of_value_le (h : f.Rounds x n) (hp : p ≤ f.infinity) (hx : f.value p ≤ x) : p ≤ n := by
  cases p with
  | zero => exact Nat.zero_le n
  | succ p =>
    have hlt := f.midpoint_lt_value (Nat.lt_succ_self p)
    exact (h.lt_iff p hp).mpr (.inl (hlt.trans_le hx))

/-- Rounding does not go above a number of the format. -/
theorem le_of_le_value (h : f.Rounds x n) (hx : x ≤ f.value p) : n ≤ p := by
  by_contra hlt
  have hp : p < f.infinity := Nat.lt_of_lt_of_le (Nat.lt_of_not_le hlt) h.le
  have hmid := hx.trans_lt (f.value_lt_midpoint p)
  rcases (h.lt_iff p hp).mp (Nat.lt_of_not_le hlt) with hpass | ⟨heq, -⟩
  · exact absurd hpass hmid.not_gt
  · exact absurd heq hmid.ne'

/-- No number of the format is nearer than the one that is rounded to. -/
theorem abs_sub_le (h : f.Rounds x n) (hp : p ≤ f.infinity) :
    |x - f.value n| ≤ |x - f.value p| := by
  rcases lt_trichotomy p n with hlt | rfl | hlt
  · -- the midpoint in front of `n` is passed
    obtain ⟨m, rfl⟩ := Nat.exists_eq_succ_of_ne_zero (Nat.ne_zero_of_lt hlt)
    have hpassed : f.midpoint m ≤ x := by
      rcases (h.lt_iff m h.le).mp (Nat.lt_succ_self m) with hpassed | ⟨heq, -⟩
      · exact hpassed.le
      · exact heq.le
    have hbelow := f.strictMono_value.monotone (Nat.le_of_lt_succ hlt)
    have hstep := f.value_lt_succ m
    rw [midpoint] at hpassed
    rw [abs_of_nonneg (show 0 ≤ x - f.value p by linarith), abs_sub_le_iff]
    constructor <;> linarith
  · exact le_rfl
  · -- the midpoint behind `n` is not passed
    have hn := Nat.lt_of_lt_of_le hlt hp
    have hahead : x ≤ f.midpoint n := by
      by_contra hpassed
      exact absurd ((h.lt_iff n hn).mpr (.inl (not_le.mp hpassed))) (Nat.lt_irrefl n)
    have habove := f.strictMono_value.monotone (Nat.succ_le_of_lt hlt)
    have hstep := f.value_lt_succ n
    rw [midpoint] at hahead
    rw [abs_of_nonpos (show x - f.value p ≤ 0 by linarith), abs_sub_le_iff]
    constructor <;> linarith

/-- Between two midpoints there is one number to round to. -/
theorem eq_of_between (h : f.Rounds x n) (hp : p ≤ f.infinity)
    (hbelow : ∀ r < p, f.midpoint r < x) (habove : p < f.infinity → x < f.midpoint p) :
    n = p := by
  refine Nat.le_antisymm ?_ ?_
  · by_contra hlt
    have hlt' : p < f.infinity := Nat.lt_of_lt_of_le (Nat.lt_of_not_le hlt) h.le
    have hx := habove hlt'
    rcases (h.lt_iff p hlt').mp (Nat.lt_of_not_le hlt) with hpass | ⟨heq, -⟩
    · exact absurd hpass hx.not_gt
    · exact absurd heq hx.ne'
  · cases p with
    | zero => exact Nat.zero_le n
    | succ p => exact (h.lt_iff p hp).mpr (.inl (hbelow p (Nat.lt_succ_self p)))

/-- On a midpoint the even side is taken. -/
theorem eq_of_midpoint (h : f.Rounds (f.midpoint p) n) (hp : p < f.infinity) : n = p + p % 2 := by
  have hlt := h.lt_iff p hp
  have hle : n ≤ p + 1 := h.le_of_le_value (f.midpoint_lt_value (Nat.lt_succ_self p)).le
  have hge : p ≤ n := h.le_of_value_le hp.le (f.value_lt_midpoint p).le
  simp only [lt_self_iff_false, true_and, false_or] at hlt
  rcases Nat.mod_two_eq_zero_or_one p with heven | hodd
  · have := mt hlt.mp (by omega)
    omega
  · have := hlt.mpr hodd
    omega

end Rounds

/-! ## Whole quotients -/

section

variable {num den : Nat}

theorem lt_divEven_iff (hden : 0 < den) (m : Nat) :
    m < divEven num den ↔
      (2 * m + 1) * den < 2 * num ∨ (2 * m + 1) * den = 2 * num ∧ m % 2 = 1 := by
  have hsplit := Nat.div_add_mod num den
  have hmod := Nat.mod_lt num hden
  have hstep : ∀ {a b : Nat}, a < b → a * den + den ≤ b * den := fun {a b} h => by
    rw [← Nat.succ_mul]
    exact Nat.mul_le_mul_right den h
  have htwice : (2 * m + 1) * den = 2 * (m * den) + den := by ring
  rw [htwice, divEven]
  rw [Nat.mul_comm] at hsplit
  generalize num / den = q at hsplit
  generalize num % den = r at hsplit hmod
  rcases Nat.lt_trichotomy m q with hlt | rfl | hlt
  · have := hstep hlt
    split_ifs <;> omega
  · split_ifs <;> omega
  · have := hstep hlt
    split_ifs <;> omega

theorem lt_divEven_iff_rat (hden : 0 < den) (m : Nat) :
    m < divEven num den ↔
      (m + 1 / 2 : ℚ) < num / den ∨ (m + 1 / 2 : ℚ) = num / den ∧ m % 2 = 1 := by
  have hpos : (0 : ℚ) < den := by exact_mod_cast hden
  have htwice : (m + 1 / 2 : ℚ) * den = ((2 * m + 1) * den : Nat) / 2 := by
    push_cast
    ring
  rw [lt_divEven_iff hden, lt_div_iff₀ hpos, eq_div_iff hpos.ne', htwice, div_lt_iff₀ two_pos,
    div_eq_iff two_ne_zero, mul_comm (num : ℚ) 2]
  norm_cast

/-- In units of `2 ^ e` the quotient counts this many. -/
theorem scaled_eq (num den : Nat) (e : Int) :
    ((num <<< (-e).toNat : Nat) : ℚ) / (den <<< e.toNat : Nat) = num / den / 2 ^ e := by
  rw [zpow_eq_div, Nat.shiftLeft_eq, Nat.shiftLeft_eq]
  push_cast
  rw [div_div_eq_mul_div, div_mul_eq_mul_div, div_div]

theorem log2Div_spec (hnum : num ≠ 0) (hden : den ≠ 0) :
    (2 : ℚ) ^ log2Div num den ≤ num / den ∧ (num : ℚ) / den < 2 ^ (log2Div num den + 1) := by
  have hnum_pos : (0 : ℚ) < num := by exact_mod_cast Nat.pos_of_ne_zero hnum
  have hden_pos : (0 : ℚ) < den := by exact_mod_cast Nat.pos_of_ne_zero hden
  obtain ⟨z, hle, hlt⟩ := exists_mem_Ico_zpow (div_pos hnum_pos hden_pos) (one_lt_two (α := ℚ))
  have hlog : log2Div num den = z :=
    log2Div_eq hnum hden ((le_div_iff₀ hden_pos).mp hle) ((div_lt_iff₀ hden_pos).mp hlt)
  rw [hlog]
  exact ⟨hle, hlt⟩

end

/-! ## Quotients in units of their exponent -/

section

variable {f : BinaryFormat} {num den : Nat}

theorem cast_block (f : BinaryFormat) : (f.block : ℚ) = 2 ^ ((f.precision - 1 : Nat) : Int) := by
  rw [block, Nat.one_shiftLeft]
  push_cast
  rfl

/-- The unit is so large that the quotient counts less than two blocks of it. -/
theorem div_lt_of_exponentFor (hnum : num ≠ 0) (hden : den ≠ 0) :
    (num : ℚ) / den < 2 * f.block * 2 ^ f.exponentFor num den := by
  have hexponent : log2Div num den - (f.precision - 1 : Nat) ≤ f.exponentFor num den :=
    le_max_right _ _
  calc (num : ℚ) / den < 2 ^ (log2Div num den + 1) := (log2Div_spec hnum hden).2
    _ ≤ 2 ^ ((f.precision - 1 : Nat) + f.exponentFor num den + 1) :=
      zpow_le_zpow_right₀ one_le_two (by omega)
    _ = 2 * f.block * 2 ^ f.exponentFor num den := by
      rw [two_zpow_succ, zpow_add₀ two_ne_zero, ← cast_block, mul_assoc]

/-- The unit is so small that the quotient counts a block of it, unless it is the least one. -/
theorem le_div_of_exponentFor (hnum : num ≠ 0) (hden : den ≠ 0)
    (hleast : f.least < f.exponentFor num den) :
    f.block * 2 ^ f.exponentFor num den ≤ (num : ℚ) / den := by
  have hexponent : log2Div num den = (f.precision - 1 : Nat) + f.exponentFor num den := by
    rw [exponentFor] at hleast ⊢
    omega
  calc (f.block : ℚ) * 2 ^ f.exponentFor num den = 2 ^ log2Div num den := by
        rw [hexponent, zpow_add₀ two_ne_zero, ← cast_block]
    _ ≤ num / den := (log2Div_spec hnum hden).1

/-- With a block of an even size, a pattern is as even as the units it counts. -/
theorem pattern_mod_two (h : 1 < f.precision) (q : Nat) (e : Int) :
    f.pattern q e % 2 = q % 2 := by
  have hblock : 2 ∣ f.block := by
    rw [block, Nat.one_shiftLeft]
    exact dvd_pow_self 2 (by omega)
  rw [pattern, Nat.add_mod, Nat.mod_eq_zero_of_dvd (hblock.mul_left _), Nat.zero_add, Nat.mod_mod]

namespace Canonical

variable {q k : Nat} {d e : Int}

/-- A number comes before every block with a larger unit. -/
theorem pattern_lt (h : f.Canonical q d) (hexponent : d < e) (hk : f.block ≤ k) :
    f.pattern q d < f.pattern k e := by
  have hlt := h.lt
  have hle := h.le
  have hblocks : ((d - f.least).toNat + 1) * f.block ≤ (e - f.least).toNat * f.block :=
    Nat.mul_le_mul_right _ (by omega)
  rw [Nat.succ_mul] at hblocks
  rw [pattern, pattern]
  omega

/-- A number comes behind every block with a smaller unit. -/
theorem le_pattern (h : f.Canonical q d) (hleast : f.least ≤ e) (hexponent : e < d)
    (hk : k ≤ 2 * f.block) : f.pattern k e ≤ f.pattern q d := by
  have hfull := h.full.resolve_right (by omega)
  have hblocks : ((e - f.least).toNat + 1) * f.block ≤ (d - f.least).toNat * f.block :=
    Nat.mul_le_mul_right _ (by omega)
  rw [Nat.succ_mul] at hblocks
  rw [pattern, pattern]
  omega

end Canonical

/-- Of two units the larger one counts at least twice as much. -/
theorem two_mul_zpow_le {d e : Int} (h : d < e) : (2 : ℚ) * 2 ^ d ≤ 2 ^ e := by
  rw [← two_zpow_succ]
  exact zpow_le_zpow_right₀ one_le_two h

/-- `x` is rounded to `k` units of exponent `e`, which is the exponent for a number of its size. -/
structure Counts (f : BinaryFormat) (x : ℚ) (e : Int) (k : Nat) : Prop where
  least_le : f.least ≤ e
  lt : x < 2 * f.block * 2 ^ e
  le : f.least < e → f.block * 2 ^ e ≤ x
  lt_iff : ∀ m : Nat, m < k ↔ (m + 1 / 2) * 2 ^ e < x ∨ (m + 1 / 2) * 2 ^ e = x ∧ m % 2 = 1

namespace Counts

variable {x : ℚ} {e : Int} {k : Nat}

theorem block_le (h : f.Counts x e k) (hleast : f.least < e) : f.block ≤ k := by
  have hblock := f.block_pos
  have hlast : f.block - 1 < k := by
    refine (h.lt_iff _).mpr (.inl (lt_of_lt_of_le ?_ (h.le hleast)))
    rw [Nat.cast_sub hblock]
    gcongr
    push_cast
    linarith
  omega

theorem le_two_mul_block (h : f.Counts x e k) : k ≤ 2 * f.block := by
  by_contra hlt
  have hbelow : x < ((2 * f.block : Nat) + 1 / 2) * 2 ^ e := by
    refine h.lt.trans ?_
    gcongr
    push_cast
    linarith
  rcases (h.lt_iff _).mp (Nat.lt_of_not_le hlt) with hpassed | ⟨heq, -⟩
  · exact hpassed.not_gt hbelow
  · exact hbelow.ne' heq

/-- The pattern of the units is above the patterns of which `x` has passed the midpoint. A pattern
of another block is counted in another unit, but then `x` is far from its midpoint. -/
theorem lt_pattern_iff (h : f.Counts x e k) (hprecision : 1 < f.precision) (p : Nat) :
    p < f.pattern k e ↔ f.midpoint p < x ∨ f.midpoint p = x ∧ p % 2 = 1 := by
  obtain ⟨q, d, hcanonical, rfl⟩ : ∃ q d, f.Canonical q d ∧ f.pattern q d = p :=
    ⟨_, _, f.canonical p, f.pattern_significand p⟩
  rw [hcanonical.midpoint_pattern, pattern_mod_two hprecision]
  rcases lt_trichotomy d e with hearlier | rfl | hlater
  · have hleast := hcanonical.le.trans_lt hearlier
    refine iff_of_true (hcanonical.pattern_lt hearlier (h.block_le hleast)) (.inl ?_)
    have hq : (q + 1 / 2 : ℚ) < 2 * f.block := by
      have hlt : (q : ℚ) + 1 ≤ 2 * f.block := by exact_mod_cast hcanonical.lt
      linarith
    calc (q + 1 / 2 : ℚ) * 2 ^ d < 2 * f.block * 2 ^ d := by gcongr
      _ = f.block * (2 * 2 ^ d) := by ring
      _ ≤ f.block * 2 ^ e := by gcongr; exact two_mul_zpow_le hearlier
      _ ≤ x := h.le hleast
  · rw [← h.lt_iff, pattern, pattern, Nat.add_lt_add_iff_left]
  · have hmid : x < (q + 1 / 2) * 2 ^ d := by
      have hfull : f.block ≤ q := by
        have := h.least_le
        exact hcanonical.full.resolve_right (by omega)
      calc x < 2 * f.block * 2 ^ e := h.lt
        _ = f.block * (2 * 2 ^ e) := by ring
        _ ≤ f.block * 2 ^ d := by gcongr; exact two_mul_zpow_le hlater
        _ ≤ q * 2 ^ d := by gcongr
        _ ≤ (q + 1 / 2) * 2 ^ d := by gcongr; linarith
    refine iff_of_false
      (Nat.not_lt.mpr (hcanonical.le_pattern h.least_le hlater h.le_two_mul_block)) ?_
    exact not_or.mpr ⟨hmid.not_gt, fun heq => hmid.ne' heq.1⟩

end Counts

/-- What is rounded is the quotient in units of its exponent. -/
theorem counts_divEven (hnum : num ≠ 0) (hden : den ≠ 0) :
    let e := f.exponentFor num den
    f.Counts (num / den) e (divEven (num <<< (-e).toNat) (den <<< e.toNat)) where
  least_le := le_max_left _ _
  lt := div_lt_of_exponentFor hnum hden
  le := le_div_of_exponentFor hnum hden
  lt_iff m := by
    have hpos : 0 < den <<< (f.exponentFor num den).toNat := by
      rw [Nat.shiftLeft_eq]
      positivity
    have hunit := two_zpow_pos (f.exponentFor num den)
    rw [lt_divEven_iff_rat hpos, scaled_eq, lt_div_iff₀ hunit, eq_div_iff hunit.ne']

/-- **The formats round to nearest, a tie to even.** -/
theorem nearest_rounds (h : 1 < f.precision) (num : Nat) (hden : den ≠ 0) :
    f.Rounds (num / den) (f.nearest num den) where
  le := f.nearest_le_infinity num den
  lt_iff p hp := by
    by_cases hnum : num = 0
    · have hmid : (0 : ℚ) < f.midpoint p := by
        rw [midpoint_eq]
        positivity
      rw [hnum, nearest, if_pos rfl, Nat.cast_zero, zero_div]
      exact iff_of_false (Nat.not_lt_zero p)
        (not_or.mpr ⟨hmid.not_gt, fun heq => hmid.ne' heq.1⟩)
    · rw [nearest, if_neg hnum, Nat.lt_min, and_iff_right hp]
      exact (counts_divEven hnum hden).lt_pattern_iff h p

end

end Reckon.BinaryFormat
