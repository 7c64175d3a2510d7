import DeskCalculator.Proofs.Scientific.TenPower

/-!
# Decimal logarithms of powers of ten

A ratio is a power of ten exactly if both of its terms are written as a one with
zeros, and then one of them is one, as they have no common factor.  The
logarithm is the number of zeros above less the number of zeros below.

**Results.**
* `zerosAfterOne?_digitsOf`: the digit strings of powers of ten.
* `num_den_ten_zpow`: the terms of a power of ten.
* `exactLog10?_eq_some_iff`: where the exact logarithm is known.
* `decimal_logarithm_exact`: logarithms and powers of ten are inverse.
-/

namespace DeskCalculator

open Ratio

namespace Scientific

/-! ### Texts of powers of ten -/

theorem zerosAfterOne?_eq_some_iff
    {cs : List Char} {k : Nat} :
    zerosAfterOne? cs = some k ↔ cs = '1' :: List.replicate k '0' := by
  constructor
  · intro h
    unfold zerosAfterOne? at h
    split at h
    · rename_i rest
      split at h
      · rename_i hzeros
        obtain rfl := Option.some.inj h
        have hall : ∀ c ∈ rest, c = '0' := by simpa using hzeros
        rw [← List.eq_replicate_of_mem hall]
      · cases h
    · cases h
  · rintro rfl
    simp [zerosAfterOne?]

/-- A number is written as a one with zeros if it is a power of ten. -/
theorem zerosAfterOne?_digitsOf
    {n k : Nat} :
    zerosAfterOne? (digitsOf 10 n) = some k ↔ n = 10 ^ k := by
  rw [zerosAfterOne?_eq_some_iff, ← digitsOf_pow (by decide : 2 ≤ 10)]
  constructor
  · intro h
    have hvalue := congrArg (natOf 10) h
    rwa [natOf_digitsOf (by decide) (by decide), natOf_digitsOf (by decide) (by decide)] at hvalue
  · rintro rfl
    rfl

/-! ### The terms of a power of ten -/

/-- One of the terms of a power of ten is one, the other one is a power. -/
theorem num_den_ten_zpow
    (k : Int) :
    ((10 : ℚ) ^ k).num.natAbs = 10 ^ k.toNat ∧ ((10 : ℚ) ^ k).den = 10 ^ (-k).toNat := by
  obtain ⟨n, rfl | rfl⟩ := k.eq_nat_or_neg
  · have hcast : (10 : ℚ) ^ (n : Int) = ((10 ^ n : Nat) : ℚ) := by
      rw [zpow_natCast, Nat.cast_pow, Nat.cast_ofNat]
    rw [hcast, Rat.num_natCast, Rat.den_natCast]
    simp
  · have hcast : (10 : ℚ) ^ (-n : Int) = ((10 ^ n : Nat) : ℚ)⁻¹ := by
      rw [zpow_neg, zpow_natCast, Nat.cast_pow, Nat.cast_ofNat]
    have hpos : 0 < 10 ^ n := Nat.pow_pos (by decide)
    rw [hcast, Rat.inv_natCast_num_of_pos hpos, Rat.inv_natCast_den_of_pos hpos]
    simp

/-! ### The exact logarithm -/

variable {F : RealFunctions} {q : ℚ} {k : Int}

/-- A positive ratio is not refused. -/
theorem not_refused_of_pos
    (hq : 0 < q) :
    ¬((ofRat q).isNegative = true ∨ (ofRat q).isZero = true) := by
  rw [isNegative_ofRat, isZero_ofRat]
  rintro (hneg | hzero)
  · exact absurd hq hneg.asymm
  · exact hq.ne' hzero

/-- The logarithm is read off the digits of the terms. -/
theorem exactLog10?_ofRat
    (hq : 0 < q) :
    exactLog10? (ofRat q) = (zerosAfterOne? (digitsOf 10 q.num.natAbs)).bind fun n =>
      (zerosAfterOne? (digitsOf 10 q.den)).map fun d : Nat => (n : Int) - d := by
  have hnum : (ofRat q).num.toDigits 10 = digitsOf 10 q.num.natAbs :=
    ScaledNumber.toDigits_ofInt (by decide) (by decide) q.num
  have hden : (ofRat q).den.toDigits 10 = digitsOf 10 q.den :=
    ScaledNumber.toDigits_ofNat (by decide) (by decide) q.den
  rw [exactLog10?, if_neg (not_refused_of_pos hq), hnum, hden]
  cases zerosAfterOne? (digitsOf 10 q.num.natAbs) <;> cases zerosAfterOne? (digitsOf 10 q.den) <;>
    rfl

/-- The logarithm is known exactly for the powers of ten. -/
theorem exactLog10?_eq_some_iff
    (hq : 0 < q) :
    exactLog10? (ofRat q) = some k ↔ q = 10 ^ k := by
  rw [exactLog10?_ofRat hq]
  constructor
  · intro h
    obtain ⟨n, hn, h⟩ := Option.bind_eq_some_iff.mp h
    obtain ⟨d, hd, rfl⟩ := Option.map_eq_some_iff.mp h
    rw [zerosAfterOne?_digitsOf] at hn hd
    have hnum : (q.num : ℚ) = 10 ^ n := by
      rw [← Int.natAbs_of_nonneg (Rat.num_nonneg.mpr hq.le), hn]
      push_cast
      rfl
    have hden : (q.den : ℚ) = 10 ^ d := by
      rw [hd]
      push_cast
      rfl
    rw [← Rat.num_div_den q, hnum, hden, zpow_sub₀ (by norm_num), zpow_natCast, zpow_natCast]
  · rintro rfl
    obtain ⟨hnum, hden⟩ := num_den_ten_zpow k
    rw [zerosAfterOne?_digitsOf.mpr hnum, zerosAfterOne?_digitsOf.mpr hden, Option.bind_some,
      Option.map_some, Option.some.injEq]
    omega

/-- The logarithm of a power of ten is its exponent. -/
theorem log10_ten_zpow
    (F : RealFunctions) (k : Int) :
    log10 F (ofRat (10 ^ k)) = .ok (ofInt k) := by
  have hpos : (0 : ℚ) < 10 ^ k := zpow_pos (by norm_num) k
  rw [log10, if_neg (not_refused_of_pos hpos), (exactLog10?_eq_some_iff hpos).mpr rfl]

/-- **Decimal logarithms and powers of ten are inverse.** The exact logarithm of
a positive ratio is known exactly for the powers of ten; the logarithm of a power
of ten is its exponent; and up to ten thousand, up or down, the power of ten with
an integer exponent is exact, by the bounds of the binary logarithm that its size
is estimated with, and has this exponent as its logarithm. -/
theorem decimal_logarithm_exact
    (F : RealFunctions) {x : Ratio} (hx : LowestTerms x) (hpos : 0 < x.toRat) (k : Int) :
    (exactLog10? x = some k ↔ x.toRat = 10 ^ k) ∧
      (x.toRat = 10 ^ k → log10 F x = .ok (ofInt k)) ∧
      (BinaryLogarithm F.log2 → |k| ≤ 10000 → ∃ y, tenPow F (ofInt k) = .ok y ∧ LowestTerms y ∧ y.toRat = 10 ^ k ∧
        log10 F y = .ok (ofInt k)) := by
  obtain ⟨q, rfl⟩ := hx.exists_ofRat
  rw [toRat_ofRat] at hpos ⊢
  refine ⟨exactLog10?_eq_some_iff hpos, ?_, fun hlog hk => ?_⟩
  · rintro rfl
    exact log10_ten_zpow F k
  · have hlimit : k.natAbs ≤ tenPowLimit := by
      rw [Int.abs_eq_natAbs] at hk
      exact_mod_cast hk
    exact ⟨ofRat (10 ^ k), tenPow_ofInt_of_le hlog hlimit, lowestTerms_ofRat _, toRat_ofRat _,
      log10_ten_zpow F k⟩

/-- A thousandth, and the smallest power of ten that is exact. -/
theorem logarithm_of_thousandth :
    LowestTerms (ofRat (1 / 1000)) ∧ 0 < (ofRat (1 / 1000)).toRat ∧
      log10 clampedLogarithm (ofRat (1 / 1000)) = .ok (ofInt (-3)) ∧
      ∃ y, tenPow clampedLogarithm (ofInt (-10000)) = .ok y ∧
        log10 clampedLogarithm y = .ok (ofInt (-10000)) := by
  have hx := lowestTerms_ofRat (1 / 1000)
  have hpos : 0 < (ofRat (1 / 1000)).toRat := by
    rw [toRat_ofRat]
    norm_num
  have hvalue : (ofRat (1 / 1000)).toRat = 10 ^ (-3 : Int) := by
    rw [toRat_ofRat]
    norm_num
  obtain ⟨y, hy, -, -, hlog⟩ :=
    (decimal_logarithm_exact clampedLogarithm hx hpos (-10000)).2.2 binaryLogarithm_clamped
      (by decide)
  exact ⟨hx, hpos, (decimal_logarithm_exact clampedLogarithm hx hpos (-3)).2.1 hvalue, y, hy,
    hlog⟩

end Scientific
end DeskCalculator
