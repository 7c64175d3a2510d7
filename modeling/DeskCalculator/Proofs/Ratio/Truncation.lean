import DeskCalculator.Proofs.Ratio.Arithmetic
import DeskCalculator.Ratio.Chop

/-!
# Truncation, floor, modulus and chopping

**Results.**
* `truncate_ofRat`, `floor_ofRat`: rounding toward zero and down.
* `mod_ofRat`: the modulus is `a - b * ⌊a / b⌋`.
* `chop_ofRat`: chopping is reduction of the truncation modulo `2 ^ bits`.
-/

namespace DeskCalculator
namespace Ratio

/-- A rational number rounded toward zero. -/
def towardZero (q : ℚ) : Int := q.num.tdiv q.den

/-! ### Predicates on ratios in lowest terms -/

theorem den_ofRat
    (q : ℚ) :
    (ofRat q).den = .ofInt q.den :=
  (ScaledNumber.ofInt_natCast q.den).symm

theorem abs_num_ofRat
    (q : ℚ) :
    (ofRat q).num.abs = .ofNat q.num.natAbs :=
  ScaledNumber.ofInt_abs q.num

theorem abs_den_ofRat
    (q : ℚ) :
    (ofRat q).den.abs = .ofNat q.den := by
  rw [den_ofRat, ScaledNumber.ofInt_abs, Int.natAbs_natCast]

/-- The absolute value from its terms. -/
theorem abs_eq_terms
    (q : ℚ) :
    |q| = (q.num.natAbs : ℚ) / (q.den : ℚ) := by
  rw [Rat.abs_def, Rat.divInt_eq_div, Int.cast_natCast, Int.cast_natCast]

theorem isInteger_ofRat
    (q : ℚ) :
    (ofRat q).isInteger = true ↔ q.den = 1 := by
  rw [isInteger, den_ofRat, ScaledNumber.isOne_iff (ScaledNumber.canonical_ofInt _).abs,
    ScaledNumber.toRat_abs (ScaledNumber.canonical_ofInt _), ScaledNumber.toRat_ofInt,
    Int.cast_natCast, Nat.abs_cast, Nat.cast_eq_one]

theorem isNegative_ofRat
    (q : ℚ) :
    (ofRat q).isNegative = true ↔ q < 0 := by
  rw [isNegative, den_ofRat, ofRat, ScaledNumber.isNegative_ofInt, ScaledNumber.isNegative_ofInt,
    ScaledNumber.isZero_ofInt, decide_eq_true_iff]
  have hden : ¬(q.den : Int) < 0 := by omega
  rw [← Rat.num_neg]
  simp only [hden, decide_false, decide_eq_true_iff]
  constructor
  · rintro ⟨h, _⟩
    simpa using h
  · intro h
    simp [h, h.ne]

theorem isNegative_ofRat_eq_false
    (q : ℚ) :
    (ofRat q).isNegative = false ↔ 0 ≤ q := by
  rw [← Bool.not_eq_true, isNegative_ofRat, not_lt]

/-- The absolute value with its sign. -/
theorem signFactor_mul_abs
    (q : ℚ) :
    ScaledNumber.signFactor (ofRat q).isNegative * |q| = q := by
  rcases lt_or_ge q 0 with hneg | hnonneg
  · rw [(isNegative_ofRat q).mpr hneg, abs_of_neg hneg]
    exact (neg_one_mul (-q)).trans (neg_neg q)
  · rw [(isNegative_ofRat_eq_false q).mpr hnonneg, abs_of_nonneg hnonneg]
    exact one_mul q

theorem isZero_ofRat
    (q : ℚ) :
    (ofRat q).isZero = true ↔ q = 0 := by
  rw [(lowestTerms_ofRat q).wellFormed.isZero_iff, toRat_ofRat]

/-! ### Operations on ratios in lowest terms -/

theorem ofRat_add
    (p q : ℚ) :
    ofRat p + ofRat q = ofRat (p + q) := by
  rw [(lowestTerms_ofRat p).wellFormed.add_eq (lowestTerms_ofRat q).wellFormed, toRat_ofRat,
    toRat_ofRat]

theorem ofRat_sub
    (p q : ℚ) :
    ofRat p - ofRat q = ofRat (p - q) := by
  rw [(lowestTerms_ofRat p).wellFormed.sub_eq (lowestTerms_ofRat q).wellFormed, toRat_ofRat,
    toRat_ofRat]

theorem ofRat_mul
    (p q : ℚ) :
    ofRat p * ofRat q = ofRat (p * q) := by
  rw [(lowestTerms_ofRat p).wellFormed.mul_eq (lowestTerms_ofRat q).wellFormed, toRat_ofRat,
    toRat_ofRat]

theorem ofNat_add
    (m n : Nat) :
    ofNat m + ofNat n = ofNat (m + n) := by
  rw [← ofRat_natCast, ← ofRat_natCast, ← ofRat_natCast, ofRat_add, Nat.cast_add]

theorem ofNat_mul
    (m n : Nat) :
    ofNat m * ofNat n = ofNat (m * n) := by
  rw [← ofRat_natCast, ← ofRat_natCast, ← ofRat_natCast, ofRat_mul, Nat.cast_mul]

theorem ofInt_add
    (s t : Int) :
    ofInt s + ofInt t = ofInt (s + t) := by
  rw [← ofRat_intCast, ← ofRat_intCast, ← ofRat_intCast, ofRat_add, Int.cast_add]

theorem ofInt_sub
    (s t : Int) :
    ofInt s - ofInt t = ofInt (s - t) := by
  rw [← ofRat_intCast, ← ofRat_intCast, ← ofRat_intCast, ofRat_sub, Int.cast_sub]

theorem ofInt_mul
    (s t : Int) :
    ofInt s * ofInt t = ofInt (s * t) := by
  rw [← ofRat_intCast, ← ofRat_intCast, ← ofRat_intCast, ofRat_mul, Int.cast_mul]

theorem ofRat_div_ofRat
    (p q : ℚ) :
    (ofRat p).div (ofRat q) =
      if q = 0 then .error .divisionByZero else .ok (ofRat (p / q)) := by
  rw [(lowestTerms_ofRat p).wellFormed.div_eq (lowestTerms_ofRat q).wellFormed, toRat_ofRat,
    toRat_ofRat]

theorem ofRat_neg
    (q : ℚ) :
    (ofRat q).neg = ofRat (-q) := by
  rw [neg, ofRat, ofRat, ScaledNumber.ofInt_neg, Rat.num_neg_eq_neg_num, Rat.den_neg_eq_den]

theorem abs_ofRat
    (q : ℚ) :
    (ofRat q).abs = ofRat |q| := by
  rw [Ratio.abs]
  split
  · rename_i hneg
    rw [ofRat_neg, abs_of_neg ((isNegative_ofRat q).mp hneg)]
  · rename_i hneg
    rw [abs_of_nonneg (not_lt.mp (mt (isNegative_ofRat q).mpr hneg))]

theorem inv_ofRat
    (q : ℚ) :
    (ofRat q).inv = if q = 0 then .error .divisionByZero else .ok (ofRat q⁻¹) := by
  rw [inv, ← ofRat_one, ofRat_div_ofRat, one_div]

/-- A reciprocal is undefined at most. -/
theorem inv_ofRat_ne_domain
    (q : ℚ) (reason : DomainReason) :
    (ofRat q).inv ≠ .error (.domain reason) := by
  rw [inv_ofRat]
  split <;> exact nofun

theorem inv_ofRat_neg
    (q : ℚ) :
    (ofRat (-q)).inv = (ofRat q).inv.map Ratio.neg := by
  rw [inv_ofRat, inv_ofRat]
  by_cases hzero : q = 0
  · rw [if_pos (neg_eq_zero.mpr hzero), if_pos hzero]
    rfl
  · rw [if_neg (mt neg_eq_zero.mp hzero), if_neg hzero, inv_neg, ← ofRat_neg]
    rfl

/-- A mantissa times a power of a radix, the exponent of any sign. -/
theorem ofMantissaScale_eq
    (m : Nat) (negative : Bool) {radix : Nat} (hradix : radix ≠ 0) (scale : Int) :
    ofMantissaScale (.ofNat m) negative radix scale =
      ofRat (ScaledNumber.signFactor negative * m * (radix : ℚ) ^ scale) := by
  have hsigned : (if negative then (ScaledNumber.ofNat m).neg else .ofNat m) =
      .ofInt (if negative then -m else m) := by
    cases negative
    · exact (ScaledNumber.ofInt_natCast m).symm
    · rw [if_pos rfl, if_pos rfl, ← ScaledNumber.ofInt_natCast, ScaledNumber.ofInt_neg]
  have hvalue : ScaledNumber.signFactor negative * m =
      ((if negative then -m else m : Int) : ℚ) := by
    cases negative <;> simp [ScaledNumber.signFactor]
  unfold ofMantissaScale
  dsimp only
  rw [hsigned, ScaledNumber.radixPow_eq, hvalue]
  generalize (if negative then -(m : Int) else m) = z
  have hradix' : (radix : ℚ) ≠ 0 := by exact_mod_cast hradix
  split
  · rename_i h
    obtain ⟨k, rfl⟩ := Int.eq_ofNat_of_zero_le h
    rw [Int.natAbs_natCast, ← ScaledNumber.ofInt_natCast, ScaledNumber.ofInt_mul,
      zpow_natCast, ← ofInt, ← ofRat_intCast]
    push_cast
    rfl
  · rename_i h
    obtain ⟨k, hk⟩ : ∃ k : Nat, scale = -k := ⟨scale.natAbs, by omega⟩
    have hpow : ((radix ^ k : Nat) : ℚ) ≠ 0 := by
      push_cast
      exact pow_ne_zero k hradix'
    have hwf : WellFormed ⟨.ofInt z, .ofNat (radix ^ k)⟩ :=
      .mk_of_ne (ScaledNumber.canonical_ofInt z) (ScaledNumber.canonical_ofNat _)
        (by rwa [ScaledNumber.toRat_ofNat])
    rw [hk, Int.natAbs_neg, Int.natAbs_natCast, hwf.simplify_eq, toRat,
      ScaledNumber.toRat_ofInt, ScaledNumber.toRat_ofNat, zpow_neg, zpow_natCast, div_eq_mul_inv]
    push_cast
    rfl

/-! ### Rounding -/

theorem towardZero_intCast
    (n : Int) :
    towardZero n = n := by
  simp [towardZero]

/-- Truncation rounds toward zero. -/
theorem truncate_ofRat
    (q : ℚ) :
    (ofRat q).truncate = ofInt (towardZero q) := by
  unfold truncate
  split
  · rename_i h
    rw [isInteger_ofRat] at h
    rw [towardZero, h, Nat.cast_one, Int.tdiv_one, ← ofRat_intCast,
      (Rat.den_eq_one_iff q).mp h]
  · rw [den_ofRat, ofRat, ScaledNumber.ofInt_quot]
    rfl

/-- The largest integer that is not above. -/
theorem floor_ofRat
    (q : ℚ) :
    (ofRat q).floor = ofInt ⌊q⌋ := by
  unfold floor
  rw [Rat.floor_def']
  split
  · rename_i h
    rw [isInteger_ofRat] at h
    rw [h, Nat.cast_one, Int.ediv_one, ← ofRat_intCast, (Rat.den_eq_one_iff q).mp h]
  · rename_i hint
    rw [isInteger_ofRat] at hint
    have hpos : (0 : Int) < q.den := by exact_mod_cast q.den_pos
    rw [truncate_ofRat, towardZero]
    split
    · -- a negative fraction is truncated upward
      rename_i hneg
      rw [isNegative_ofRat, ← Rat.num_neg] at hneg
      have hdvd : ¬(q.den : Int) ∣ q.num := by
        intro hdvd
        have hcoprime := q.reduced
        rw [Nat.Coprime, Nat.gcd_eq_right (Int.natCast_dvd.mp hdvd)] at hcoprime
        exact hint hcoprime
      rw [Int.tdiv_eq_ediv, if_neg (not_or.mpr ⟨not_le.mpr hneg, hdvd⟩),
        Int.sign_eq_one_of_pos hpos, ← ofRat_one, ← ofRat_intCast, ofRat_sub, ← ofRat_intCast]
      push_cast
      rw [add_sub_cancel_right]
    · rename_i hneg
      rw [isNegative_ofRat, ← Rat.num_neg, not_lt] at hneg
      rw [Int.tdiv_eq_ediv_of_nonneg hneg]

/-- What is left when the largest integer multiple is taken away. -/
theorem mod_ofRat
    (p q : ℚ) :
    (ofRat p).mod (ofRat q) =
      if q = 0 then .error .divisionByZero else .ok (ofRat (p - q * ⌊p / q⌋)) := by
  rw [mod, ofRat_div_ofRat]
  split
  · rfl
  · show Except.ok (ofRat p - ofRat q * (ofRat (p / q)).floor) = _
    rw [floor_ofRat, ← ofRat_intCast, ofRat_mul, ofRat_sub]

/-- The modulus of integers is the remainder that is not negative. -/
theorem ofInt_mod_ofNat
    (a : Int) {n : Nat} (hn : 0 < n) :
    (ofInt a).mod (ofNat n) = .ok (ofInt (a % n)) := by
  have hne : ((n : Nat) : ℚ) ≠ 0 := by exact_mod_cast hn.ne'
  rw [← ofRat_intCast, ← ofRat_natCast, mod_ofRat, if_neg hne, Rat.floor_intCast_div_natCast,
    ← ofRat_intCast, Int.emod_def]
  push_cast
  rfl

/-! ### Chopping -/

theorem ofScaled_radixPow
    (radix n : Nat) :
    ofScaled (.radixPow radix n) = ofNat (radix ^ n) := by
  rw [ScaledNumber.radixPow_eq, ofNat]

/-- Chopping reduces the truncation modulo `2 ^ bits`. -/
theorem chop_ofRat
    (q : ℚ) (bits : Nat) :
    (ofRat q).chop bits = ofInt (towardZero q % 2 ^ bits) := by
  rw [chop, truncate_ofRat, ofScaled_radixPow, ofInt_mod_ofNat _ (Nat.two_pow_pos bits)]
  push_cast
  rfl

theorem chop_ofInt
    (n : Int) (bits : Nat) :
    (ofInt n).chop bits = ofInt (n % 2 ^ bits) := by
  rw [← ofRat_intCast, chop_ofRat, towardZero_intCast]

theorem chop_ofNat
    (n bits : Nat) :
    (ofNat n).chop bits = ofNat (n % 2 ^ bits) := by
  have h := chop_ofInt n bits
  rwa [ofInt, ScaledNumber.ofInt_natCast, ← ofNat, ofInt,
    show ((n : Int) % 2 ^ bits) = ((n % 2 ^ bits : Nat) : Int) by push_cast; rfl,
    ScaledNumber.ofInt_natCast, ← ofNat] at h

end Ratio
end DeskCalculator
