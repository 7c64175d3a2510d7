import DeskCalculator.Proofs.Magnitude.Digits
import DeskCalculator.Proofs.ScaledNumber.Value

/-!
# The arithmetic of scaled numbers is that of the rational numbers

Sums and comparisons of canonical numbers are those of the mantissas at the
lower of the two exponents.

**Results.**
* `Canonical.add`, `toRat_add` and their likes for differences, products,
  opposites, absolute values and powers: exact and canonical.
* `compare_eq`: the order of the values.
* `ofInt_quot`, `ofInt_gcd`, `integerMagnitude_ofInt`: the operations on
  integer parts, for integers.
* `toDigits_ofInt`, `toDigits_ofNat`: the digits of integers.
-/

namespace DeskCalculator
namespace ScaledNumber

/-! ### Orders -/

/-- The comparison by less-than and equality is that of a linear order. -/
theorem compareOfLessAndEq_eq_cmp
    {α : Type} [LinearOrder α] (a b : α) :
    compareOfLessAndEq a b = cmp a b := by
  rcases lt_trichotomy a b with h | h | h
  · rw [(cmp_eq_lt_iff a b).mpr h]
    exact if_pos h
  · rw [(cmp_eq_eq_iff a b).mpr h]
    simp [compareOfLessAndEq, h]
  · rw [(cmp_eq_gt_iff a b).mpr h]
    simp [compareOfLessAndEq, h.not_gt, h.ne']

theorem compare_magnitude
    {a b : Magnitude} (ha : a.Normalized) (hb : b.Normalized) (e : Int) :
    a.compare b = cmp ((a.toNat : ℚ) * weight e) (b.toNat * weight e) := by
  rw [ha.compare_eq hb, compareOfLessAndEq_eq_cmp, cmp_mul_pos_right (weight_pos e),
    Nat.strictMono_cast.cmp_map_eq]

/-! ### Signs -/

theorem isNegative_iff
    {x : ScaledNumber} (hx : Canonical x) :
    x.isNegative = true ↔ x.toRat < 0 := by
  rw [isNegative, decide_eq_true_iff, hx.toRat_sign.1]

theorem isZero_iff
    {x : ScaledNumber} (hx : Canonical x) :
    x.isZero = true ↔ x.toRat = 0 := by
  rw [isZero, decide_eq_true_iff, hx.toRat_sign.2.1]

/-- The value by its sign and its absolute value. -/
theorem Canonical.toRat_eq
    {x : ScaledNumber} (hx : Canonical x) :
    x.toRat = signFactor x.isNegative * |x.toRat| := by
  unfold signFactor
  split
  · rename_i h
    rw [abs_of_neg ((isNegative_iff hx).mp h)]
    ring
  · rename_i h
    rw [abs_of_nonneg (not_lt.mp (mt (isNegative_iff hx).mpr h)), one_mul]

@[simp] theorem toRat_neg
    (x : ScaledNumber) :
    (x.neg).toRat = -x.toRat := by
  have h : (x.sign.neg.toInt : ℚ) = -x.sign.toInt := by
    cases x.sign <;> simp [Sign.neg, Sign.toInt]
  simp only [toRat, neg, h]
  ring

@[simp] theorem Canonical.neg
    {x : ScaledNumber} (hx : Canonical x) :
    Canonical x.neg := by
  rcases hx with rfl | ⟨hsign, hrest⟩
  · exact canonical_zero
  · refine Or.inr ⟨?_, hrest⟩
    cases h : x.sign <;> simp_all [ScaledNumber.neg, Sign.neg]

theorem Canonical.abs
    {x : ScaledNumber} (hx : Canonical x) :
    Canonical x.abs := by
  unfold ScaledNumber.abs
  split
  · rename_i h
    rcases hx with rfl | ⟨_, hrest⟩
    · simp [zero, isNegative] at h
    · exact Or.inr ⟨by simp, hrest⟩
  · exact hx

theorem toRat_abs
    {x : ScaledNumber} (hx : Canonical x) :
    x.abs.toRat = |x.toRat| := by
  unfold ScaledNumber.abs
  split
  · rw [hx.abs_toRat]
    simp [toRat, Sign.toInt]
  · rename_i h
    rw [abs_of_nonneg (not_lt.mp (mt (isNegative_iff hx).mpr h))]

/-! ### Sums and differences -/

/-- The common exponent is not above that of an operand that is not zero. -/
theorem magnitudeAt_min_left
    {x : ScaledNumber} (hx : Canonical x) (e : Int) :
    (x.magnitudeAt (min x.exponent e)).Normalized ∧
      ((x.magnitudeAt (min x.exponent e)).toNat : ℚ) * weight (min x.exponent e) = |x.toRat| :=
  hx.magnitudeAt_spec fun _ => min_le_left _ _

theorem magnitudeAt_min_right
    {x : ScaledNumber} (hx : Canonical x) (e : Int) :
    (x.magnitudeAt (min e x.exponent)).Normalized ∧
      ((x.magnitudeAt (min e x.exponent)).toNat : ℚ) * weight (min e x.exponent) = |x.toRat| :=
  hx.magnitudeAt_spec fun _ => min_le_right _ _

theorem isNegative_eq_not
    {x y : ScaledNumber} (hx : x.isZero = false) (hy : y.isZero = false)
    (h : x.sign ≠ y.sign) :
    signFactor y.isNegative = -signFactor x.isNegative := by
  cases hxs : x.sign <;> cases hys : y.sign <;> simp_all [isZero, isNegative, signFactor]

/-- Sums are exact and canonical. -/
theorem add_spec
    {x y : ScaledNumber} (hx : Canonical x) (hy : Canonical y) :
    Canonical (x + y) ∧ (x + y).toRat = x.toRat + y.toRat := by
  show Canonical (x.add y) ∧ (x.add y).toRat = x.toRat + y.toRat
  unfold ScaledNumber.add
  split
  · rename_i hzero
    rw [(isZero_iff hx).mp hzero]
    exact ⟨hy, by ring⟩
  rename_i hxzero
  split
  · rename_i hzero
    rw [(isZero_iff hy).mp hzero]
    exact ⟨hx, by ring⟩
  rename_i hyzero
  obtain ⟨hanorm, ha⟩ := magnitudeAt_min_left hx y.exponent
  obtain ⟨hbnorm, hb⟩ := magnitudeAt_min_right hy x.exponent
  rw [hx.toRat_eq, hy.toRat_eq, ← ha, ← hb]
  dsimp only
  generalize x.magnitudeAt (min x.exponent y.exponent) = a at *
  generalize y.magnitudeAt (min x.exponent y.exponent) = b at *
  generalize min x.exponent y.exponent = e at *
  split
  · -- of one sign, the absolute values are added
    rename_i hsign
    have hsame : y.isNegative = x.isNegative := by rw [isNegative, isNegative, hsign]
    refine ⟨canonical_ofParts _ _ _, ?_⟩
    rw [toRat_ofParts, Magnitude.toNat_add, hsame]
    push_cast
    ring
  · -- of two signs, the smaller absolute value is taken from the larger one
    rename_i hsign
    have hopposite := isNegative_eq_not (by simpa using hxzero) (by simpa using hyzero) hsign
    have hcmp := compare_magnitude hanorm hbnorm 0
    rw [weight_zero, mul_one, mul_one] at hcmp
    split
    · rename_i hord
      rw [hcmp, cmp_eq_eq_iff] at hord
      refine ⟨canonical_zero, ?_⟩
      rw [toRat_zero, hopposite, hord]
      ring
    · rename_i hord
      rw [hcmp, cmp_eq_gt_iff, Nat.cast_lt] at hord
      refine ⟨canonical_ofParts _ _ _, ?_⟩
      rw [toRat_ofParts, Magnitude.toNat_sub hord.le, hopposite, Nat.cast_sub hord.le]
      ring
    · rename_i hord
      rw [hcmp, cmp_eq_lt_iff, Nat.cast_lt] at hord
      refine ⟨canonical_ofParts _ _ _, ?_⟩
      rw [toRat_ofParts, Magnitude.toNat_sub hord.le, hopposite, Nat.cast_sub hord.le]
      ring

theorem Canonical.add
    {x y : ScaledNumber} (hx : Canonical x) (hy : Canonical y) :
    Canonical (x + y) :=
  (add_spec hx hy).1

theorem toRat_add
    {x y : ScaledNumber} (hx : Canonical x) (hy : Canonical y) :
    (x + y).toRat = x.toRat + y.toRat :=
  (add_spec hx hy).2

theorem Canonical.sub
    {x y : ScaledNumber} (hx : Canonical x) (hy : Canonical y) :
    Canonical (x - y) :=
  hx.add hy.neg

theorem toRat_sub
    {x y : ScaledNumber} (hx : Canonical x) (hy : Canonical y) :
    (x - y).toRat = x.toRat - y.toRat := by
  rw [show x - y = x + y.neg from rfl, toRat_add hx hy.neg, toRat_neg, sub_eq_add_neg]

/-! ### Products and powers -/

theorem signFactor_mul
    {x y : ScaledNumber} (hx : x.isZero = false) (hy : y.isZero = false) :
    signFactor (decide (x.sign ≠ y.sign)) =
      signFactor x.isNegative * signFactor y.isNegative := by
  cases hxs : x.sign <;> cases hys : y.sign <;> simp_all [isZero, isNegative, signFactor]

/-- Products are exact and canonical. -/
theorem mul_spec
    {x y : ScaledNumber} (hx : Canonical x) (hy : Canonical y) :
    Canonical (x * y) ∧ (x * y).toRat = x.toRat * y.toRat := by
  show Canonical (x.mul y) ∧ (x.mul y).toRat = x.toRat * y.toRat
  unfold ScaledNumber.mul
  split
  · rename_i h
    refine ⟨canonical_zero, ?_⟩
    rcases h with hzero | hzero
    · rw [(isZero_iff hx).mp hzero, zero_mul, toRat_zero]
    · rw [(isZero_iff hy).mp hzero, mul_zero, toRat_zero]
  · rename_i h
    rw [not_or, Bool.not_eq_true, Bool.not_eq_true] at h
    refine ⟨canonical_ofParts _ _ _, ?_⟩
    rw [toRat_ofParts, signFactor_mul h.1 h.2, Magnitude.toNat_mul, weight_add, hx.toRat_eq,
      hy.toRat_eq, hx.abs_toRat, hy.abs_toRat]
    push_cast
    ring

theorem Canonical.mul
    {x y : ScaledNumber} (hx : Canonical x) (hy : Canonical y) :
    Canonical (x * y) :=
  (mul_spec hx hy).1

theorem toRat_mul
    {x y : ScaledNumber} (hx : Canonical x) (hy : Canonical y) :
    (x * y).toRat = x.toRat * y.toRat :=
  (mul_spec hx hy).2

@[simp] theorem canonical_one : Canonical one :=
  canonical_ofNat 1

@[simp] theorem toRat_one : one.toRat = 1 := by
  simp [one]

/-- Powers are exact and canonical. -/
theorem pow_spec
    {x : ScaledNumber} (hx : Canonical x) (n : Nat) :
    Canonical (x.pow n) ∧ (x.pow n).toRat = x.toRat ^ n := by
  have h := mulPow_eq toRat Canonical (fun a b ha hb => ha.mul hb)
    (fun a b ha hb => toRat_mul ha hb) one x canonical_one hx n
  rwa [toRat_one, one_mul] at h

theorem Canonical.pow
    {x : ScaledNumber} (hx : Canonical x) (n : Nat) :
    Canonical (x.pow n) :=
  (pow_spec hx n).1

theorem toRat_pow
    {x : ScaledNumber} (hx : Canonical x) (n : Nat) :
    (x.pow n).toRat = x.toRat ^ n :=
  (pow_spec hx n).2

theorem radixPow_eq
    (radix n : Nat) :
    radixPow radix n = ofNat (radix ^ n) := by
  rw [radixPow, ofNat, (Magnitude.normalized_radixPow radix n).eq_ofNat,
    Magnitude.toNat_radixPow]

/-! ### The order -/

/-- A smaller sign means a smaller value. -/
theorem toRat_lt_of_sign_lt
    {x y : ScaledNumber} (hx : Canonical x) (hy : Canonical y)
    (h : x.sign.toInt < y.sign.toInt) :
    x.toRat < y.toRat := by
  have hxs := hx.toRat_sign
  have hys := hy.toRat_sign
  cases hsx : x.sign <;> cases hsy : y.sign <;> simp [hsx, hsy, Sign.toInt] at h
  · rw [hys.2.1.mp hsy]
    exact hxs.1.mp hsx
  · exact (hxs.1.mp hsx).trans (hys.2.2.mp hsy)
  · rw [hxs.2.1.mp hsx]
    exact hys.2.2.mp hsy

theorem sign_eq_of_toInt_eq
    {s t : Sign} (h : s.toInt = t.toInt) :
    s = t := by
  cases s <;> cases t <;> simp_all [Sign.toInt]

/-- Canonical numbers compare as their values. -/
theorem compare_eq
    {x y : ScaledNumber} (hx : Canonical x) (hy : Canonical y) :
    x.compare y = cmp x.toRat y.toRat := by
  unfold ScaledNumber.compare
  have hxs := hx.toRat_sign
  have hys := hy.toRat_sign
  by_cases hne : x.sign ≠ y.sign
  · -- of two signs, the sign decides
    rw [if_pos hne, compareOfLessAndEq_eq_cmp]
    rcases lt_trichotomy x.sign.toInt y.sign.toInt with h | h | h
    · rw [(cmp_eq_lt_iff _ _).mpr h, (cmp_eq_lt_iff _ _).mpr (toRat_lt_of_sign_lt hx hy h)]
    · exact absurd (sign_eq_of_toInt_eq h) hne
    · rw [(cmp_eq_gt_iff _ _).mpr h, (cmp_eq_gt_iff _ _).mpr (toRat_lt_of_sign_lt hy hx h)]
  · have hsign := not_not.mp hne
    rw [if_neg hne]
    by_cases hzero : x.isZero = true
    · rw [if_pos hzero]
      rw [isZero, decide_eq_true_iff] at hzero
      rw [hxs.2.1.mp hzero, hys.2.1.mp (hsign ▸ hzero), cmp_self_eq_eq]
    · obtain ⟨hanorm, ha⟩ := magnitudeAt_min_left hx y.exponent
      obtain ⟨hbnorm, hb⟩ := magnitudeAt_min_right hy x.exponent
      rw [if_neg hzero]
      dsimp only
      rw [compare_magnitude hanorm hbnorm (min x.exponent y.exponent), ha, hb]
      by_cases hneg : x.isNegative = true
      · rw [if_pos hneg]
        have hxneg := (isNegative_iff hx).mp hneg
        have hyneg : y.toRat < 0 := by
          rw [isNegative, decide_eq_true_iff, hsign] at hneg
          exact hys.1.mp hneg
        have hanti : StrictAnti fun q : ℚ => -q := fun _ _ h => neg_lt_neg h
        rw [cmp_swap, abs_of_neg hxneg, abs_of_neg hyneg]
        exact hanti.cmp_map_eq y.toRat x.toRat
      · rw [if_neg hneg]
        have hxpos := not_lt.mp (mt (isNegative_iff hx).mpr hneg)
        have hypos : 0 ≤ y.toRat := by
          rw [isNegative, decide_eq_true_iff, hsign, hys.1] at hneg
          exact not_lt.mp hneg
        rw [abs_of_nonneg hxpos, abs_of_nonneg hypos]

/-! ### Integers -/

theorem ofInt_add
    (a b : Int) :
    ofInt a + ofInt b = ofInt (a + b) :=
  ((canonical_ofInt a).add (canonical_ofInt b)).eq_ofInt (by
    rw [toRat_add (canonical_ofInt a) (canonical_ofInt b), toRat_ofInt, toRat_ofInt]
    push_cast
    rfl)

theorem ofInt_mul
    (a b : Int) :
    ofInt a * ofInt b = ofInt (a * b) :=
  ((canonical_ofInt a).mul (canonical_ofInt b)).eq_ofInt (by
    rw [toRat_mul (canonical_ofInt a) (canonical_ofInt b), toRat_ofInt, toRat_ofInt]
    push_cast
    rfl)

theorem ofInt_neg
    (a : Int) :
    (ofInt a).neg = ofInt (-a) :=
  (canonical_ofInt a).neg.eq_ofInt (by
    rw [toRat_neg, toRat_ofInt]
    push_cast
    rfl)

theorem ofInt_abs
    (a : Int) :
    (ofInt a).abs = ofNat a.natAbs := by
  rw [← ofInt_natCast]
  refine (canonical_ofInt a).abs.eq_ofInt ?_
  rw [toRat_abs (canonical_ofInt a), toRat_ofInt, ← Int.cast_abs, Int.abs_eq_natAbs]

theorem ofInt_pow
    (a : Int) (n : Nat) :
    (ofInt a).pow n = ofInt (a ^ n) :=
  ((canonical_ofInt a).pow n).eq_ofInt (by
    rw [toRat_pow (canonical_ofInt a), toRat_ofInt]
    push_cast
    rfl)

theorem isNegative_ofInt
    (a : Int) :
    (ofInt a).isNegative = decide (a < 0) := by
  rw [Bool.eq_iff_iff, isNegative_iff (canonical_ofInt a), toRat_ofInt, decide_eq_true_iff]
  exact Int.cast_lt_zero

theorem isZero_ofInt
    (a : Int) :
    (ofInt a).isZero = decide (a = 0) := by
  rw [Bool.eq_iff_iff, isZero_iff (canonical_ofInt a), toRat_ofInt, decide_eq_true_iff]
  exact Int.cast_eq_zero

/-- The magnitude of an integer. -/
theorem integerMagnitude_ofInt
    (a : Int) :
    (ofInt a).integerMagnitude = Magnitude.ofNat a.natAbs := by
  obtain ⟨hnorm, hvalue⟩ := (canonical_ofInt a).magnitudeAt_spec fun _ => exponent_ofInt_nonneg a
  rw [weight_zero, mul_one, toRat_ofInt, ← Int.cast_abs, Int.abs_eq_natAbs] at hvalue
  rw [integerMagnitude, if_pos (exponent_ofInt_nonneg a), hnorm.eq_ofNat]
  congr 1
  exact_mod_cast hvalue

/-- The digits of an integer, without its sign. -/
theorem toDigits_ofInt
    {radix : Nat} (htwo : 2 ≤ radix) (hradix : radix ≤ 16) (a : Int) :
    (ofInt a).toDigits radix = digitsOf radix a.natAbs := by
  rw [toDigits, integerMagnitude_ofInt,
    Magnitude.toDigits_eq htwo hradix (Magnitude.normalized_ofNat _), Magnitude.toNat_ofNat]

theorem isOne_iff
    {x : ScaledNumber} (hx : Canonical x) :
    x.isOne = true ↔ x.toRat = 1 := by
  have hcanonical : Canonical ⟨.positive, 0, [1]⟩ := Or.inr (by decide)
  have hvalue : toRat ⟨.positive, 0, [1]⟩ = 1 := by
    simp [toRat, Sign.toInt]
  constructor
  · intro h
    obtain ⟨sign, exponent, mantissa⟩ := x
    simp only [isOne, decide_eq_true_iff] at h
    obtain ⟨rfl, rfl, rfl⟩ := h
    exact hvalue
  · intro h
    rw [hx.eq_of_toRat_eq hcanonical (h.trans hvalue.symm)]
    rfl

/-- The greatest common divisor of integers. -/
theorem ofInt_gcd
    (a b : Int) :
    (ofInt a).gcd (ofInt b) = ofNat (Int.gcd a b) := by
  have ha := Magnitude.normalized_ofNat a.natAbs
  have hb := Magnitude.normalized_ofNat b.natAbs
  rw [gcd, integerMagnitude_ofInt, integerMagnitude_ofInt, ofNat,
    (Magnitude.normalized_gcd ha hb).eq_ofNat, Magnitude.toNat_gcd ha hb,
    Magnitude.toNat_ofNat, Magnitude.toNat_ofNat]
  rfl

/-- Quotients of integers are rounded toward zero. -/
theorem ofInt_quot
    (a b : Int) :
    (ofInt a).quot (ofInt b) = ofInt (a.tdiv b) := by
  have ha := Magnitude.normalized_ofNat a.natAbs
  have hb := Magnitude.normalized_ofNat b.natAbs
  have hquot : (ofInt a).quot (ofInt b) =
      ofParts (decide ((ofInt a).sign ≠ (ofInt b).sign)) 0
        ((ofInt a).integerMagnitude.divMod (ofInt b).integerMagnitude).1 := rfl
  rw [hquot]
  refine Canonical.eq_ofInt (canonical_ofParts _ _ _) ?_
  rw [toRat_ofParts, integerMagnitude_ofInt, integerMagnitude_ofInt,
    Magnitude.toNat_divMod_fst ha hb, Magnitude.toNat_ofNat, Magnitude.toNat_ofNat,
    weight_zero, mul_one]
  rcases eq_or_ne a 0 with rfl | hane
  · simp
  rcases eq_or_ne b 0 with rfl | hbne
  · simp
  rw [signFactor_mul (by rw [isZero_ofInt]; simpa using hane)
    (by rw [isZero_ofInt]; simpa using hbne), isNegative_ofInt, isNegative_ofInt]
  have habs : ((a.natAbs / b.natAbs : Nat) : Int) = Int.tdiv a.natAbs b.natAbs := rfl
  rw [← Int.cast_natCast, habs]
  -- the quotient of the absolute values has the product of the signs
  rcases lt_or_gt_of_ne hane with hneg | hpos <;> rcases lt_or_gt_of_ne hbne with hneg' | hpos'
  · rw [Int.ofNat_natAbs_of_nonpos hneg.le, Int.ofNat_natAbs_of_nonpos hneg'.le]
    simp [signFactor, hneg, hneg']
  · rw [Int.ofNat_natAbs_of_nonpos hneg.le, Int.natAbs_of_nonneg hpos'.le]
    simp [signFactor, hneg, hpos'.not_gt]
  · rw [Int.natAbs_of_nonneg hpos.le, Int.ofNat_natAbs_of_nonpos hneg'.le]
    simp [signFactor, hpos.not_gt, hneg']
  · rw [Int.natAbs_of_nonneg hpos.le, Int.natAbs_of_nonneg hpos'.le]
    simp [signFactor, hpos.not_gt, hpos'.not_gt]

/-! ### Natural numbers -/

theorem ofNat_add
    (a b : Nat) :
    ofNat a + ofNat b = ofNat (a + b) := by
  rw [← ofInt_natCast, ← ofInt_natCast, ofInt_add, ← Int.natCast_add, ofInt_natCast]

theorem ofNat_mul
    (a b : Nat) :
    ofNat a * ofNat b = ofNat (a * b) := by
  rw [← ofInt_natCast, ← ofInt_natCast, ofInt_mul, ← Int.natCast_mul, ofInt_natCast]

theorem ofNat_pow
    (a n : Nat) :
    (ofNat a).pow n = ofNat (a ^ n) := by
  rw [← ofInt_natCast, ofInt_pow, ← Int.natCast_pow, ofInt_natCast]

theorem ofNat_quot
    (a b : Nat) :
    (ofNat a).quot (ofNat b) = ofNat (a / b) := by
  rw [← ofInt_natCast, ← ofInt_natCast, ofInt_quot, ← Int.ofNat_tdiv, ofInt_natCast]

theorem integerMagnitude_ofNat
    (a : Nat) :
    (ofNat a).integerMagnitude = Magnitude.ofNat a := by
  rw [← ofInt_natCast, integerMagnitude_ofInt, Int.natAbs_natCast]

theorem toDigits_ofNat
    {radix : Nat} (htwo : 2 ≤ radix) (hradix : radix ≤ 16) (a : Nat) :
    (ofNat a).toDigits radix = digitsOf radix a := by
  rw [← ofInt_natCast, toDigits_ofInt htwo hradix, Int.natAbs_natCast]

theorem isZero_ofNat
    (a : Nat) :
    (ofNat a).isZero = decide (a = 0) := by
  rw [← ofInt_natCast, isZero_ofInt]
  simp

theorem ofNat_injective
    {a b : Nat} (h : ofNat a = ofNat b) :
    a = b := by
  rw [← ofInt_natCast, ← ofInt_natCast] at h
  exact_mod_cast ofInt_injective h

theorem compare_ofNat
    (a b : Nat) :
    (ofNat a).compare (ofNat b) = cmp a b := by
  rw [compare_eq (canonical_ofNat a) (canonical_ofNat b), toRat_ofNat, toRat_ofNat,
    Nat.strictMono_cast.cmp_map_eq]

theorem atLeast_ofNat
    (a b : Nat) :
    (ofNat a).atLeast (ofNat b) = true ↔ b ≤ a := by
  rw [atLeast, compare_ofNat, decide_eq_true_iff, Ne, cmp_eq_lt_iff, not_lt]

/-- The number of bits of an integer. -/
theorem bitLength_ofInt_le_iff
    (a : Int) (n : Nat) :
    (ofInt a).bitLength ≤ n ↔ a.natAbs < 2 ^ n := by
  rw [bitLength, integerMagnitude_ofInt, (Magnitude.normalized_ofNat _).bitLength_le_iff,
    Magnitude.toNat_ofNat]

end ScaledNumber
end DeskCalculator
