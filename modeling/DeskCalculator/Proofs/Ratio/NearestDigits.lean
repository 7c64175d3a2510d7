import DeskCalculator.Proofs.Ratio.LowestTerms
import DeskCalculator.Proofs.Ratio.Rounding

/-!
# The significant digits are the nearest ones

The digits of a ratio stand for the multiple of the last digit's unit that is
nearest to its absolute value, and for the one further from zero if two are
equally near.  The exponent is that of the first digit of the absolute value,
unless the digits are rounded up to the next power of the radix.

**Results.**
* `nearestMultiple_round`: a rounded multiple is the nearest one.
* `roundAt_correctlyRounded`: the digits for the exponent of the first one.
-/

namespace DeskCalculator
namespace Ratio

/-! ### Nearest multiples -/

/--
The multiple of `unit` that is nearest to `x`, of two equally near ones the one
further from zero.
-/
structure NearestMultiple (unit x v : ℚ) : Prop where
  multiple : ∃ m : Int, v = m * unit
  nearest : ∀ m : Int, |x - v| ≤ |x - m * unit|
  tie : ∀ m : Int, |x - m * unit| = |x - v| → |m * unit| ≤ |v|

/-- Of the integers that are as near to a number above zero as the rounded one, none is larger. -/
theorem abs_le_round
    {y : ℚ} (hy : 0 ≤ y) {m : Int} (h : |y - m| = |y - round y|) :
    |m| ≤ round y := by
  have hlow := Int.floor_le (y + 1 / 2)
  have hhigh := Int.lt_floor_add_one (y + 1 / 2)
  rw [← round_eq] at hlow hhigh
  have hnonneg : 0 ≤ round y := by
    rw [round_eq]
    exact Int.floor_nonneg.mpr (by linarith)
  rcases abs_eq_abs.mp h with hsame | hmirror
  · have heq : m = round y := by exact_mod_cast (by linarith : (m : ℚ) = round y)
    rw [heq, abs_of_nonneg hnonneg]
  · -- the other integer lies as far on the other side
    have hle : m ≤ round y := by
      rw [round_eq, Int.le_floor]
      linarith
    have hge : (-round y : ℚ) ≤ m := by linarith
    exact abs_le.mpr ⟨by exact_mod_cast hge, hle⟩

/-- The rounded multiple is the nearest one. -/
theorem nearestMultiple_round
    {unit x : ℚ} (hunit : 0 < unit) (hx : 0 ≤ x) :
    NearestMultiple unit x (round (x / unit) * unit) := by
  have hdist (m : Int) : |x - m * unit| = |x / unit - m| * unit := by
    rw [← abs_of_pos hunit, ← abs_mul, abs_of_pos hunit, sub_mul, div_mul_cancel₀ _ hunit.ne']
  have hy : 0 ≤ x / unit := by positivity
  constructor
  case multiple => exact ⟨_, rfl⟩
  case nearest =>
    intro m
    rw [hdist, hdist]
    exact mul_le_mul_of_nonneg_right (round_le _ m) hunit.le
  case tie =>
    intro m h
    rw [hdist, hdist] at h
    have hle := abs_le_round hy (mul_right_cancel₀ hunit.ne' h)
    rw [abs_mul, abs_mul]
    have hcast : |(m : ℚ)| ≤ |(round (x / unit) : ℚ)| := by
      exact_mod_cast hle.trans (le_abs_self _)
    exact mul_le_mul_of_nonneg_right hcast (abs_nonneg _)

/-! ### Significands -/

/-- The number that a significand of `p` digits stands for, without a sign. -/
def Significand.magnitude (radix p : Nat) (s : Significand) : ℚ :=
  natOf radix s.digits * (radix : ℚ) ^ (s.exponent - p + 1)

/--
The correctly rounded significand of `p` digits of a number `x` above zero whose
first digit has the exponent `t`.
-/
structure Significand.CorrectlyRounded (radix p : Nat) (x : ℚ) (t : Int) (s : Significand) :
    Prop where
  length : s.digits.length = p
  digits : DigitsOf radix s.digits
  head : s.digits.head? ≠ some '0'
  nearest : NearestMultiple ((radix : ℚ) ^ (t - p + 1)) x (s.magnitude radix p)
  /-- The exponent is one more only if the digits reach the next power of the radix. -/
  exponent :
    s.magnitude radix p < (radix : ℚ) ^ (t + 1) ∧ s.exponent = t ∨
      s.magnitude radix p = (radix : ℚ) ^ (t + 1) ∧ s.exponent = t + 1 ∧
        s.digits = '1' :: List.replicate (p - 1) '0'

variable {radix p : Nat}

/-- The rounded digits are the nearest multiple of the unit of the last one. -/
theorem nearestMultiple_roundedDigits
    (htwo : 2 ≤ radix) {x : ℚ} (hx : 0 < x) :
    NearestMultiple ((radix : ℚ) ^ (Int.log radix x - p + 1)) x
      (roundedDigits radix p x * (radix : ℚ) ^ (Int.log radix x - p + 1)) := by
  have hradix : (0 : ℚ) < radix := by exact_mod_cast (by omega : 0 < radix)
  have hunit : (0 : ℚ) < (radix : ℚ) ^ (Int.log radix x - p + 1) := zpow_pos hradix _
  have hscaled : x * (radix : ℚ) ^ ((p : Int) - 1 - Int.log radix x) =
      x / (radix : ℚ) ^ (Int.log radix x - p + 1) := by
    rw [div_eq_mul_inv, ← zpow_neg]
    congr 2
    ring
  have hnonneg : 0 ≤ round (x / (radix : ℚ) ^ (Int.log radix x - p + 1)) := by
    rw [round_eq]
    exact Int.floor_nonneg.mpr (by positivity)
  have hcast : (roundedDigits radix p x : ℚ) =
      round (x / (radix : ℚ) ^ (Int.log radix x - p + 1)) := by
    rw [roundedDigits, hscaled, ← Int.cast_natCast, Int.toNat_of_nonneg hnonneg]
  rw [hcast]
  exact nearestMultiple_round hunit hx.le

/-- The digits for the exponent of the first digit are correctly rounded. -/
theorem roundAt_correctlyRounded
    {n d : Nat} (hn : 0 < n) (hd : 0 < d) (htwo : 2 ≤ radix) (hradix : radix ≤ 16) (hp : 0 < p) :
    (roundAt (.ofNat n) (.ofNat d) radix p (Int.log radix ((n : ℚ) / d))).CorrectlyRounded
      radix p (n / d) (Int.log radix ((n : ℚ) / d)) := by
  have hpos : (0 : ℚ) < n / d := by positivity
  have hradix' : (0 : ℚ) < radix := by exact_mod_cast (by omega : 0 < radix)
  have hrounds := roundAt_rounds hn hd htwo hradix hp
  have hnearest := nearestMultiple_roundedDigits (p := p) htwo hpos
  have hhigh := (roundedDigits_bounds htwo hp hpos).2
  have hnext : ((radix ^ p : Nat) : ℚ) * (radix : ℚ) ^ (Int.log radix ((n : ℚ) / d) - p + 1) =
      (radix : ℚ) ^ (Int.log radix ((n : ℚ) / d) + 1) := by
    rw [Nat.cast_pow, ← zpow_natCast, ← zpow_add₀ hradix'.ne']
    congr 1
    ring
  constructor
  case length => exact hrounds.length
  case digits => exact hrounds.digits
  case head => exact hrounds.head
  case nearest => rwa [Significand.magnitude, hrounds.value]
  case exponent =>
    rw [Significand.magnitude, hrounds.value]
    by_cases hshort : roundedDigits radix p ((n : ℚ) / d) < radix ^ p
    · have hexponent := hrounds.exponent
      rw [if_pos hshort] at hexponent
      refine Or.inl ⟨?_, hexponent⟩
      rw [← hnext]
      have hcast : (roundedDigits radix p ((n : ℚ) / d) : ℚ) < (radix ^ p : Nat) := by
        exact_mod_cast hshort
      gcongr
    · have hdigits := roundAt_ofNat hn hd htwo hradix hp
      rw [if_neg hshort] at hdigits
      rw [hdigits, show roundedDigits radix p ((n : ℚ) / d) = radix ^ p by omega]
      exact Or.inr ⟨hnext, rfl, rfl⟩

end Ratio
end DeskCalculator
