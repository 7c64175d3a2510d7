import DeskCalculator.Proofs.Ratio.Value

/-!
# The arithmetic of ratios is that of the rational numbers

The operations are exact whatever pairs they start from: reduced or not, with a
denominator of any sign, with exponents below zero.

**Results.**
* `WellFormed.add_eq` and its likes for the other operations: the result is the
  ratio in lowest terms of the result in the rational numbers.
* `WellFormed.compare_eq`: the order of the values.
-/

namespace DeskCalculator
namespace Ratio

variable {a b : Ratio}

/-! ### Well-formed results -/

theorem WellFormed.neg
    (ha : WellFormed a) :
    WellFormed a.neg :=
  ⟨ha.num.neg, ha.den, ha.den_ne⟩

@[simp] theorem toRat_neg
    (a : Ratio) :
    a.neg.toRat = -a.toRat := by
  rw [toRat, neg, ScaledNumber.toRat_neg, neg_div, toRat]

/-- The cross products of a sum. -/
theorem WellFormed.cross
    (ha : WellFormed a) (hb : WellFormed b) :
    WellFormed ⟨a.num * b.den + b.num * a.den, a.den * b.den⟩ ∧
      toRat ⟨a.num * b.den + b.num * a.den, a.den * b.den⟩ = a.toRat + b.toRat := by
  have hden := ScaledNumber.toRat_mul ha.den hb.den
  have hane := ha.den_toRat_ne
  have hbne := hb.den_toRat_ne
  refine ⟨.mk_of_ne ((ha.num.mul hb.den).add (hb.num.mul ha.den)) (ha.den.mul hb.den) ?_, ?_⟩
  · rw [hden]
    exact mul_ne_zero hane hbne
  · simp only [toRat]
    rw [hden, ScaledNumber.toRat_add (ha.num.mul hb.den) (hb.num.mul ha.den),
      ScaledNumber.toRat_mul ha.num hb.den, ScaledNumber.toRat_mul hb.num ha.den]
    field_simp

/-- The numerators of a sum over one denominator. -/
theorem WellFormed.over_den
    (ha : WellFormed a) (hb : WellFormed b) (hden : a.den = b.den) :
    WellFormed ⟨a.num + b.num, a.den⟩ ∧
      toRat ⟨a.num + b.num, a.den⟩ = a.toRat + b.toRat := by
  refine ⟨⟨ha.num.add hb.num, ha.den, ha.den_ne⟩, ?_⟩
  rw [toRat, toRat, toRat, ScaledNumber.toRat_add ha.num hb.num, ← hden, add_div]

/-- The terms of a product. -/
theorem WellFormed.product
    (ha : WellFormed a) (hb : WellFormed b) :
    WellFormed ⟨a.num * b.num, a.den * b.den⟩ := by
  refine .mk_of_ne (ha.num.mul hb.num) (ha.den.mul hb.den) ?_
  rw [ScaledNumber.toRat_mul ha.den hb.den]
  exact mul_ne_zero ha.den_toRat_ne hb.den_toRat_ne

/-- The terms of a quotient by a ratio that is not zero. -/
theorem WellFormed.quotient
    (ha : WellFormed a) (hb : WellFormed b) (hne : ¬b.isZero = true) :
    WellFormed ⟨a.num * b.den, a.den * b.num⟩ := by
  refine .mk_of_ne (ha.num.mul hb.den) (ha.den.mul hb.num) ?_
  rw [ScaledNumber.toRat_mul ha.den hb.num]
  exact mul_ne_zero ha.den_toRat_ne (mt (ScaledNumber.isZero_iff hb.num).mpr hne)

/-! ### The operations -/

theorem WellFormed.add_eq
    (ha : WellFormed a) (hb : WellFormed b) :
    a + b = ofRat (a.toRat + b.toRat) := by
  show a.add b = _
  unfold add
  split
  · rename_i hden
    obtain ⟨hwf, hvalue⟩ := ha.over_den hb hden
    rw [hwf.simplify_eq, hvalue]
  · obtain ⟨hwf, hvalue⟩ := ha.cross hb
    rw [hwf.simplify_eq, hvalue]

theorem WellFormed.sub_eq
    (ha : WellFormed a) (hb : WellFormed b) :
    a - b = ofRat (a.toRat - b.toRat) := by
  have h := ha.add_eq hb.neg
  rwa [toRat_neg, ← sub_eq_add_neg] at h

theorem WellFormed.mul_eq
    (ha : WellFormed a) (hb : WellFormed b) :
    a * b = ofRat (a.toRat * b.toRat) := by
  show a.mul b = _
  rw [mul, (ha.product hb).simplify_eq]
  simp only [toRat]
  rw [ScaledNumber.toRat_mul ha.den hb.den, ScaledNumber.toRat_mul ha.num hb.num,
    mul_div_mul_comm]

theorem WellFormed.div_eq
    (ha : WellFormed a) (hb : WellFormed b) :
    a.div b =
      if b.toRat = 0 then .error .divisionByZero else .ok (ofRat (a.toRat / b.toRat)) := by
  unfold div
  by_cases hzero : b.toRat = 0
  · rw [if_pos (hb.isZero_iff.mpr hzero), if_pos hzero]
  · have hne := mt hb.isZero_iff.mp hzero
    rw [if_neg hne, if_neg hzero, (ha.quotient hb hne).simplify_eq]
    simp only [toRat]
    rw [ScaledNumber.toRat_mul ha.den hb.num, ScaledNumber.toRat_mul ha.num hb.den,
      div_div_div_eq]

/-! ### The order -/

/-- Moving the sign to the numerator makes the denominator positive. -/
theorem WellFormed.withPositiveDen
    (ha : WellFormed a) :
    WellFormed a.withPositiveDen ∧ 0 < a.withPositiveDen.den.toRat ∧
      a.withPositiveDen.toRat = a.toRat := by
  unfold Ratio.withPositiveDen
  split
  · rename_i h
    have hneg := (ScaledNumber.isNegative_iff ha.den).mp h
    refine ⟨.mk_of_ne ha.num.neg ha.den.neg ?_, ?_, ?_⟩
    · rw [ScaledNumber.toRat_neg]
      exact neg_ne_zero.mpr hneg.ne
    · rw [ScaledNumber.toRat_neg]
      exact neg_pos.mpr hneg
    · simp only [toRat, ScaledNumber.toRat_neg, neg_div_neg_eq]
  · rename_i h
    refine ⟨ha, ?_, rfl⟩
    exact lt_of_le_of_ne (not_lt.mp (mt (ScaledNumber.isNegative_iff ha.den).mpr h))
      ha.den_toRat_ne.symm

/-- Ratios compare as their values. -/
theorem WellFormed.compare_eq
    (ha : WellFormed a) (hb : WellFormed b) :
    a.compare b = cmp a.toRat b.toRat := by
  obtain ⟨hawf, hapos, havalue⟩ := ha.withPositiveDen
  obtain ⟨hbwf, hbpos, hbvalue⟩ := hb.withPositiveDen
  -- the cross products are the values times the product of the denominators
  have hleft : a.withPositiveDen.num.toRat * b.withPositiveDen.den.toRat =
      a.withPositiveDen.toRat * (a.withPositiveDen.den.toRat * b.withPositiveDen.den.toRat) := by
    rw [toRat]
    field_simp
  have hright : b.withPositiveDen.num.toRat * a.withPositiveDen.den.toRat =
      b.withPositiveDen.toRat * (a.withPositiveDen.den.toRat * b.withPositiveDen.den.toRat) := by
    rw [toRat]
    field_simp
  unfold Ratio.compare
  dsimp only
  rw [ScaledNumber.compare_eq (hawf.num.mul hbwf.den) (hbwf.num.mul hawf.den),
    ScaledNumber.toRat_mul hawf.num hbwf.den, ScaledNumber.toRat_mul hbwf.num hawf.den, hleft,
    hright, cmp_mul_pos_right (mul_pos hapos hbpos), havalue, hbvalue]

theorem WellFormed.same_iff
    (ha : WellFormed a) (hb : WellFormed b) :
    a.same b = true ↔ a.toRat = b.toRat := by
  rw [same, decide_eq_true_iff, ha.compare_eq hb, cmp_eq_eq_iff]

/-! ### Ratios of numbers -/

/-- A ratio in lowest terms that denotes a given number. -/
def Denotes (r : Ratio) (q : ℚ) : Prop :=
  r.LowestTerms ∧ r.toRat = q

theorem denotes_ofRat
    (q : ℚ) :
    Denotes (ofRat q) q :=
  ⟨lowestTerms_ofRat q, toRat_ofRat q⟩

end Ratio
end DeskCalculator
