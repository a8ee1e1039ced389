import Mathlib
import Reckon.Decimal.Basic
import Reckon.Proofs.Binary.Nearest
import Reckon.Proofs.Binary.Widening

/-!
# Rounding in two stages

A number that is rounded to double precision and from there to single precision does not always
become the float that is nearest to it. The first stage may bring it onto a midpoint of single
precision, and then the second one takes the even side, from whichever side the number has come
(`BinaryFormat.Slips`). This is the only way in which two stages differ from one, and where it
happens they end at the two neighbours of the midpoint (`BinaryFormat.Refines.eq_iff`). It depends
on nothing but that every midpoint of single precision is a number of double precision.
-/

namespace Reckon

namespace BinaryFormat

/-! ## One stage and two -/

/-- Every midpoint of `f` is a number of `g`. -/
def Refines (g f : BinaryFormat) : Prop :=
  ∀ p < f.infinity, ∃ r < g.infinity, g.value r = f.midpoint p

/-- A first stage has brought `x` to `y`, onto the midpoint behind the pattern `p`, from the side on
which the odd one of its two neighbours is. -/
structure Slips (f : BinaryFormat) (x y : ℚ) (p : Nat) : Prop where
  lt : p < f.infinity
  midpoint : y = f.midpoint p
  side : if p % 2 = 0 then y < x else x < y

namespace Refines

variable {f g : BinaryFormat} {x : ℚ} {n a b p : Nat}

/-- What is finite in one stage is finite behind the first of two. -/
theorem lt_infinity (h : g.Refines f) (hn : g.Rounds x n) (ha : f.Rounds x a)
    (hlt : a < f.infinity) : n < g.infinity := by
  obtain ⟨r, hr, hvalue⟩ := h (f.infinity - 1) (by omega)
  by_contra hinfinite
  have hpassed := (hn.lt_iff r hr).mp (by omega)
  have hx : f.midpoint (f.infinity - 1) < x := by
    rw [← hvalue]
    have hmid := g.value_lt_midpoint r
    rcases hpassed with hlt | ⟨rfl, -⟩
    · exact hmid.trans hlt
    · exact hmid
  have := (ha.lt_iff _ (by omega)).mpr (.inl hx)
  omega

/-- The first stage does not go below a midpoint. -/
theorem midpoint_le (h : g.Refines f) (hn : g.Rounds x n) (hp : p < f.infinity)
    (hx : f.midpoint p ≤ x) : f.midpoint p ≤ g.value n := by
  obtain ⟨r, hr, hvalue⟩ := h p hp
  rw [← hvalue] at hx ⊢
  exact g.strictMono_value.monotone (hn.le_of_value_le hr.le hx)

/-- The first stage does not go above a midpoint. -/
theorem le_midpoint (h : g.Refines f) (hn : g.Rounds x n) (hp : p < f.infinity)
    (hx : x ≤ f.midpoint p) : g.value n ≤ f.midpoint p := by
  obtain ⟨r, -, hvalue⟩ := h p hp
  rw [← hvalue] at hx ⊢
  exact g.strictMono_value.monotone (hn.le_of_le_value hx)

/-- Where the first stage comes onto a midpoint from the odd side, one stage takes the odd neighbour
and two stages take the even one. -/
theorem slips (h : g.Refines f) (hn : g.Rounds x n) (ha : f.Rounds x a)
    (hb : f.Rounds (g.value n) b) (hp : f.Slips x (g.value n) p) :
    a = p + (p + 1) % 2 ∧ b = p + p % 2 := by
  obtain ⟨hlt, hmid, hside⟩ := hp
  rw [hmid] at hb hside
  refine ⟨?_, hb.eq_of_midpoint hlt⟩
  by_cases heven : p % 2 = 0
  · rw [if_pos heven] at hside
    rw [show (p + 1) % 2 = 1 by omega]
    refine ha.eq_of_between hlt (fun r hr => ?_) fun hnext => ?_
    · rcases Nat.lt_succ_iff_lt_or_eq.mp hr with hr | rfl
      · exact (f.midpoint_lt_midpoint hr).trans hside
      · exact hside
    · by_contra hle
      have hback := h.midpoint_le hn hnext (not_lt.mp hle)
      rw [hmid] at hback
      exact (f.midpoint_lt_midpoint (Nat.lt_succ_self p)).not_ge hback
  · rw [if_neg heven] at hside
    rw [show (p + 1) % 2 = 0 by omega]
    refine ha.eq_of_between hlt.le (fun r hr => ?_) fun _ => hside
    by_contra hle
    have hback := h.le_midpoint hn (hr.trans hlt) (not_lt.mp hle)
    rw [hmid] at hback
    exact (f.midpoint_lt_midpoint hr).not_ge hback

/-- **Two stages end where one does, unless the first one slips onto a midpoint.** -/
theorem eq_iff (h : g.Refines f) (hn : g.Rounds x n) (ha : f.Rounds x a)
    (hb : f.Rounds (g.value n) b) : a = b ↔ ¬ ∃ p, f.Slips x (g.value n) p := by
  constructor
  · rintro rfl ⟨p, hp⟩
    have := h.slips hn ha hb hp
    omega
  · intro hnone
    refine ha.eq_of_forall hb fun p hp => ?_
    rw [ha.lt_iff p hp, hb.lt_iff p hp]
    rcases lt_trichotomy (f.midpoint p) (g.value n) with hlt | heq | hlt
    · have hx : f.midpoint p < x := by
        by_contra hle
        exact (h.le_midpoint hn hp (not_lt.mp hle)).not_gt hlt
      exact iff_of_true (.inl hx) (.inl hlt)
    · -- on the midpoint both stages have the same parity to go by
      have hside : ¬ if p % 2 = 0 then g.value n < x else x < g.value n :=
        fun hside => hnone ⟨p, hp, heq.symm, hside⟩
      rw [heq]
      by_cases heven : p % 2 = 0
      · rw [if_pos heven] at hside
        simp [hside, heven]
      · rw [if_neg heven, not_lt, le_iff_lt_or_eq] at hside
        have hodd : p % 2 = 1 := by omega
        simpa [hodd] using hside
    · have hx : x < f.midpoint p := by
        by_contra hle
        exact (h.midpoint_le hn hp (not_lt.mp hle)).not_gt hlt
      simp [hlt.not_gt, hlt.ne', hx.not_gt, hx.ne']

end Refines

/-! ## Single and double precision -/

/-- A midpoint of single precision has one binary digit more than a number, and double precision has
more than enough. -/
theorem double_refines_single : double.Refines single := by
  intro p hp
  have hcanonical := single.canonical p
  have hdigits : (2 * single.significand p + 1).log2 ≤ 52 := by
    have hlt : single.significand p < 2 ^ 24 := hcanonical.lt
    exact Nat.le_of_lt_succ ((Nat.log2_lt (by omega)).mpr (by omega))
  have hleast : -149 ≤ single.exponent p := hcanonical.le
  have hlargest := single_exponent_le hp
  obtain ⟨q, d, hdouble, hlt, hvalue⟩ := exists_canonical_double
    (e := single.exponent p - 1) (by omega) hdigits (by omega) (by omega)
  refine ⟨_, hlt, ?_⟩
  rw [hdouble.value_pattern, hvalue, midpoint_eq, zpow_sub_one₀ two_ne_zero]
  push_cast
  ring

/-- Going over to single precision rounds the number of a pattern. -/
theorem convert_rounds {p : Nat} (hp : p < double.infinity) :
    single.Rounds (double.value p) (double.convert single p) := by
  rw [value_eq_div, convert, if_pos hp]
  exact nearest_rounds (by decide) _ (double.denominator_ne_zero p)

end BinaryFormat

/-! ## Decimals -/

namespace Decimal

/-- The number that a decimal is. -/
def value (d : Decimal) : ℚ := d.coefficient * 10 ^ d.exponent

/-- A decimal is rounded to the nearest number, a tie to the even one. -/
theorem nearest_rounds {f : BinaryFormat} (h : 1 < f.precision) (d : Decimal) :
    f.Rounds d.value (d.nearest f) := by
  have hvalue : d.value =
      (d.coefficient * Nat.pow 10 d.exponent.toNat : Nat) / (Nat.pow 10 (-d.exponent).toNat : Nat) := by
    rw [value, BinaryFormat.zpow_eq_div, Nat.pow_eq, Nat.pow_eq]
    push_cast
    rw [mul_div_assoc]
  rw [hvalue]
  exact BinaryFormat.nearest_rounds h _ (Nat.pow_pos (by decide)).ne'

end Decimal

end Reckon
