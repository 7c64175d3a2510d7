import DeskCalculator.Proofs.Ratio.Truncation
import DeskCalculator.Ratio.Word64

/-!
# Ratios as words

**Results.**
* `toNat_toWordMod`: the word of a ratio is its truncation modulo `2 ^ 64`.
* `toWord_ofNat`: the word of a natural number, if it is one.
* `checkSize_ofRat`: which ratios are refused for their size.
* `toNat_mulPow_word`: repeated squaring of words is a power modulo `2 ^ 64`.
-/

namespace DeskCalculator
namespace Ratio

theorem ofInt_natCast
    (n : Nat) :
    ofInt n = ofNat n := by
  rw [ofInt, ScaledNumber.ofInt_natCast, ofNat]

theorem towardZero_natCast
    (n : Nat) :
    towardZero n = n := by
  simp [towardZero]

theorem truncate_ofInt
    (z : Int) :
    (ofInt z).truncate = ofInt z := by
  rw [← ofRat_intCast, truncate_ofRat, towardZero_intCast, ofRat_intCast]

theorem isNegative_ofInt
    (z : Int) :
    (ofInt z).isNegative = true ↔ z < 0 := by
  rw [← ofRat_intCast, isNegative_ofRat, Int.cast_lt_zero]

theorem isZero_ofInt
    (z : Int) :
    (ofInt z).isZero = true ↔ z = 0 := by
  rw [← ofRat_intCast, isZero_ofRat, Int.cast_eq_zero]

theorem isInteger_ofInt
    (z : Int) :
    (ofInt z).isInteger = true := by
  rw [← ofRat_intCast, isInteger_ofRat, Rat.den_intCast]

theorem abs_ofInt
    (z : Int) :
    (ofInt z).abs = ofNat z.natAbs := by
  rw [← ofRat_intCast, abs_ofRat, ← Int.cast_abs, Int.abs_eq_natAbs, Int.cast_natCast,
    ofRat_natCast]

theorem integerMagnitude_num_ofInt
    (z : Int) :
    (ofInt z).num.integerMagnitude = Magnitude.ofNat z.natAbs :=
  ScaledNumber.integerMagnitude_ofInt z

/-! ### The word of a ratio -/

/-- The word is the truncation modulo `2 ^ 64`. -/
theorem toNat_toWordMod
    (q : ℚ) :
    ((ofRat q).toWordMod.toNat : Int) = towardZero q % 2 ^ 64 := by
  rw [toWordMod, truncate_ofRat]
  have hlow := Magnitude.toNat_lowWord (ofInt (towardZero q)).num.integerMagnitude
  rw [integerMagnitude_num_ofInt, Magnitude.toNat_ofNat] at hlow
  rw [integerMagnitude_num_ofInt]
  split
  · rename_i hneg
    rw [isNegative_ofInt] at hneg
    rw [UInt64.toNat_neg, hlow, show UInt64.size = 2 ^ 64 from rfl]
    omega
  · rename_i hneg
    rw [isNegative_ofInt] at hneg
    rw [hlow]
    omega

theorem toNat_toWordMod_ofNat
    (n : Nat) :
    (ofNat n).toWordMod.toNat = n % 2 ^ 64 := by
  have h := toNat_toWordMod n
  rw [ofRat_natCast, towardZero_natCast] at h
  exact_mod_cast h

/-- A natural number is a word if it fits in 64 bits. -/
theorem toWord_ofNat
    (n : Nat) :
    (ofNat n).toWord = if n < 2 ^ 64 then .ok (UInt64.ofNat n) else .error .overflow := by
  have hneg : (ofInt (n : Int)).isNegative = false := by
    rw [← Bool.not_eq_true, isNegative_ofInt]
    omega
  rw [toWord, ← ofInt_natCast, truncate_ofInt]
  simp only [hneg, Bool.false_eq_true, if_false]
  rw [integerMagnitude_num_ofInt, Magnitude.toWord?_eq (Magnitude.normalized_ofNat _),
    Magnitude.toNat_ofNat, Int.natAbs_natCast]
  by_cases h : n < 2 ^ 64
  · rw [if_pos h, if_pos h]
  · rw [if_neg h, if_neg h]

/-! ### Sizes -/

/-- The number of bits of a ratio is that of its larger term. -/
theorem bitLength_ofRat_le_iff
    (q : ℚ) (n : Nat) :
    (ofRat q).bitLength ≤ n ↔ q.num.natAbs < 2 ^ n ∧ q.den < 2 ^ n := by
  have hden := ScaledNumber.bitLength_ofInt_le_iff q.den n
  rw [Int.natAbs_natCast] at hden
  rw [bitLength, den_ofRat, ofRat, ← ScaledNumber.bitLength_ofInt_le_iff, ← hden]
  exact Nat.max_le

/-- A ratio is refused if one of its terms has too many bits. -/
theorem checkSize_ofRat
    (q : ℚ) :
    (ofRat q).checkSize =
      if q.num.natAbs < 2 ^ bitLimit ∧ q.den < 2 ^ bitLimit then .ok (ofRat q)
      else .error .overflow := by
  have hiff := bitLength_ofRat_le_iff q bitLimit
  rw [← Nat.not_lt] at hiff
  rw [checkSize]
  by_cases h : bitLimit < (ofRat q).bitLength
  · rw [if_pos h, if_neg (fun hsmall => hiff.mpr hsmall h)]
  · rw [if_neg h, if_pos (hiff.mp h)]

/-- Whatever the check lets pass is unchanged. -/
theorem eq_of_checkSize
    {r s : Ratio} (h : r.checkSize = .ok s) :
    s = r := by
  unfold checkSize at h
  split at h
  · cases h
  · exact (Except.ok.inj h).symm

theorem checkSize_ofNat
    {n k : Nat} (hn : n < 2 ^ k) (hk : k ≤ bitLimit) :
    (ofNat n).checkSize = .ok (ofNat n) := by
  have hpow : 2 ^ k ≤ 2 ^ bitLimit := Nat.pow_le_pow_right (by decide) hk
  have hone : 1 < 2 ^ bitLimit := Nat.one_lt_two_pow (by decide)
  have h := checkSize_ofRat n
  rwa [Rat.num_natCast, Rat.den_natCast, Int.natAbs_natCast,
    if_pos ⟨hn.trans_le hpow, hone⟩, ofRat_natCast] at h

theorem checkSize_ofInt
    {z : Int} {k : Nat} (hz : z.natAbs < 2 ^ k) (hk : k ≤ bitLimit) :
    (ofInt z).checkSize = .ok (ofInt z) := by
  have hpow : 2 ^ k ≤ 2 ^ bitLimit := Nat.pow_le_pow_right (by decide) hk
  have hone : 1 < 2 ^ bitLimit := Nat.one_lt_two_pow (by decide)
  have h := checkSize_ofRat z
  rwa [Rat.num_intCast, Rat.den_intCast, if_pos ⟨hz.trans_le hpow, hone⟩, ofRat_intCast] at h

/-! ### Powers of words -/

/-- Powers by repeated squaring of words are powers modulo `2 ^ 64`. -/
theorem toNat_mulPow_word
    (x : UInt64) (n : Nat) :
    (mulPow (· * ·) 1 x n).toNat = x.toNat ^ n % 2 ^ 64 := by
  have h := mulPow_eq (fun u : UInt64 => (u.toNat : ZMod (2 ^ 64))) (fun _ => True)
    (fun _ _ _ _ => trivial)
    (fun a b _ _ => by
      rw [UInt64.toNat_mul, ZMod.natCast_mod, Nat.cast_mul])
    1 x trivial trivial n
  have hpow : ((mulPow (· * ·) 1 x n).toNat : ZMod (2 ^ 64)) = ((x.toNat ^ n : Nat) : ZMod _) := by
    rw [h.2, UInt64.toNat_one, Nat.cast_one, one_mul, Nat.cast_pow]
  have hmod := (ZMod.natCast_eq_natCast_iff' _ _ _).mp hpow
  rwa [Nat.mod_eq_of_lt (UInt64.toNat_lt _)] at hmod

end Ratio
end DeskCalculator
