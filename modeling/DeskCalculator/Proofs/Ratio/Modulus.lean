import DeskCalculator.Proofs.Checked.Ratio

/-!
# Rounding to integers, and the modulus

Truncation rounds toward zero and the floor rounds down; they differ on negative
numbers that are not integers.  The floor is made from the truncation, which is
the quotient of the terms, and the modulus from the floor: it is what is left
when the divisor is taken away as often as the floor of the quotient says.  So it
has the sign of the divisor and is smaller.

Exponents are exact integers here.  Those of ratios in lowest terms fit in words
of 32 bits, and so do their sums, as long as the terms have at most `2 ^ 33` bits.

**Results.**
* `towardZero_rounds`: the truncated quotient of the terms rounds toward zero.
* `isModulus_sub_mul_floor`: what is left by the floor of the quotient.
* `rounding_and_modulus`: truncation, floor and modulus of ratios in lowest terms.
-/

namespace DeskCalculator
namespace Ratio

variable {a b : Ratio} {p q : ℚ}

/-! ### Integers near a number -/

/-- The integer `z` is `q` rounded toward zero. -/
structure RoundsTowardZero (q : ℚ) (z : Int) : Prop where
  of_nonneg : 0 ≤ q → IsGreatest {k : Int | (k : ℚ) ≤ q} z
  of_nonpos : q ≤ 0 → IsLeast {k : Int | q ≤ k} z

theorem towardZero_of_nonneg
    (h : 0 ≤ q) :
    towardZero q = ⌊q⌋ := by
  rw [towardZero, Rat.floor_def', Int.tdiv_eq_ediv_of_nonneg (Rat.num_nonneg.mpr h)]

theorem towardZero_neg
    (q : ℚ) :
    towardZero (-q) = -towardZero q := by
  rw [towardZero, towardZero, Rat.num_neg_eq_neg_num, Rat.den_neg_eq_den, Int.neg_tdiv]

theorem towardZero_of_nonpos
    (h : q ≤ 0) :
    towardZero q = ⌈q⌉ := by
  have hneg := towardZero_of_nonneg (neg_nonneg.mpr h)
  rwa [towardZero_neg, Int.floor_neg, neg_inj] at hneg

/-- The quotient of the terms, truncated, is the number rounded toward zero. -/
theorem towardZero_rounds
    (q : ℚ) :
    RoundsTowardZero q (towardZero q) where
  of_nonneg h := by
    rw [towardZero_of_nonneg h]
    exact Int.gc_coe_floor.isGreatest_u
  of_nonpos h := by
    rw [towardZero_of_nonpos h]
    exact Int.gc_ceil_coe.isLeast_l

/-! ### What is left of a division -/

/-- What is left of `p` when `q` is taken away as often as it goes into `p`, rounded down. -/
structure IsModulus (p q m : ℚ) : Prop where
  quotient : (p - m) / q = ⌊p / q⌋
  of_pos : 0 < q → 0 ≤ m ∧ m < q
  of_neg : q < 0 → q < m ∧ m ≤ 0

/-- The rest is the divisor times the fraction by which the quotient exceeds its floor. -/
theorem isModulus_sub_mul_floor
    (p : ℚ) (hq : q ≠ 0) :
    IsModulus p q (p - q * ⌊p / q⌋) := by
  have hrest : p - q * ⌊p / q⌋ = q * Int.fract (p / q) := by
    rw [Int.fract, mul_sub, mul_div_cancel₀ p hq]
  have hnonneg := Int.fract_nonneg (p / q)
  have hlt := Int.fract_lt_one (p / q)
  constructor
  case quotient => rw [sub_sub_cancel, mul_div_cancel_left₀ _ hq]
  case of_pos =>
    intro hpos
    rw [hrest]
    exact ⟨mul_nonneg hpos.le hnonneg, mul_lt_of_lt_one_right hpos hlt⟩
  case of_neg =>
    intro hneg
    rw [hrest]
    exact ⟨lt_mul_of_lt_one_right hneg hlt, mul_nonpos_of_nonpos_of_nonneg hneg.le hnonneg⟩

/-! ### Ratios in lowest terms -/

/--
Truncation, floor and modulus of ratios in lowest terms divide by no zero.
Truncation rounds toward zero, the floor is the greatest integer that is not
above, and the modulus is refused exactly for a divisor of zero; otherwise it is
in lowest terms, and the rest of the division rounded down.
-/
theorem rounding_and_modulus
    (ha : LowestTerms a) (hb : LowestTerms b) :
    (a.checkedTruncate = some a.truncate ∧
        ∃ z, a.truncate = ofInt z ∧ RoundsTowardZero a.toRat z) ∧
      (a.checkedFloor = some a.floor ∧
        ∃ z, a.floor = ofInt z ∧ IsGreatest {k : Int | (k : ℚ) ≤ a.toRat} z) ∧
      a.checkedMod b = some (a.mod b) ∧
      (a.mod b = .error .divisionByZero ↔ b.toRat = 0) ∧
      (b.toRat ≠ 0 → ∃ m, a.mod b = .ok m ∧ LowestTerms m ∧
        IsModulus a.toRat b.toRat m.toRat) := by
  refine ⟨⟨checkedTruncate_eq ha, ?_⟩, ⟨checkedFloor_eq ha, ?_⟩, checkedMod_eq ha hb, ?_⟩
  · obtain ⟨p, rfl⟩ := ha.exists_ofRat
    rw [toRat_ofRat]
    exact ⟨_, truncate_ofRat p, towardZero_rounds p⟩
  · obtain ⟨p, rfl⟩ := ha.exists_ofRat
    rw [toRat_ofRat]
    exact ⟨_, floor_ofRat p, Int.gc_coe_floor.isGreatest_u⟩
  · obtain ⟨p, rfl⟩ := ha.exists_ofRat
    obtain ⟨q, rfl⟩ := hb.exists_ofRat
    rw [mod_ofRat, toRat_ofRat, toRat_ofRat]
    by_cases hq : q = 0
    · simp [hq]
    · rw [if_neg hq]
      refine ⟨by simp [hq], fun _ => ⟨_, rfl, lowestTerms_ofRat _, ?_⟩⟩
      rw [toRat_ofRat]
      exact isModulus_sub_mul_floor p hq

/-- Seven halves below zero, divided by three quarters below zero. -/
theorem rounding_of_negatives :
    LowestTerms (ofRat (-7 / 2)) ∧ LowestTerms (ofRat (-3 / 4)) ∧
      (ofRat (-7 / 2)).truncate = ofInt (-3) ∧ (ofRat (-7 / 2)).floor = ofInt (-4) ∧
      ∃ m, (ofRat (-7 / 2)).mod (ofRat (-3 / 4)) = .ok m ∧ LowestTerms m ∧
        m.toRat = -1 / 2 := by
  have hdividend := lowestTerms_ofRat (-7 / 2)
  have hdivisor := lowestTerms_ofRat (-3 / 4)
  obtain ⟨⟨-, t, htruncate, htoward⟩, ⟨-, f, hfloor, hgreatest⟩, -, -, hmod⟩ :=
    rounding_and_modulus hdividend hdivisor
  simp only [toRat_ofRat] at htoward hgreatest hmod
  obtain ⟨m, hm, hlowest, hmodulus⟩ := hmod (by norm_num)
  have ht : t = -3 := by
    have hleast := htoward.of_nonpos (by norm_num)
    refine hleast.unique ⟨?_, fun k hk => ?_⟩
    · norm_num
    · have hk : (-7 / 2 : ℚ) ≤ k := hk
      have hlt : (-4 : ℚ) < k := lt_of_lt_of_le (by norm_num) hk
      exact Int.add_one_le_iff.mpr (by exact_mod_cast hlt)
  have hf : f = -4 := by
    refine hgreatest.unique ⟨?_, fun k hk => ?_⟩
    · norm_num
    · have hk : (k : ℚ) ≤ -7 / 2 := hk
      have hlt : (k : ℚ) < -3 := lt_of_le_of_lt hk (by norm_num)
      exact Int.le_sub_one_iff.mpr (by exact_mod_cast hlt)
  refine ⟨hdividend, hdivisor, by rw [htruncate, ht], by rw [hfloor, hf], m, hm, hlowest, ?_⟩
  have hquotient := hmodulus.quotient
  norm_num at hquotient
  linarith

end Ratio
end DeskCalculator
