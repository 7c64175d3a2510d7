import DeskCalculator.Proofs.Binary64.Arithmetic
import DeskCalculator.Ratio.Binary64

/-!
# Decimal numbers as binary64 numbers

The number `m * 10 ^ s` is a product, or a quotient if the exponent is below
zero.  Both are computed exactly as far as the bits of the result go, with the
accuracy of what is left, and rounded once.  An exponent so large or so small
that the number is beyond the format is settled without computing the power.

**Results.**
* `nearestFloat_rounds`: a mantissa of more than 53 bits with any exponent is
  rounded correctly.
* `ofNat_rounds`: natural numbers of any size are rounded correctly.
-/

namespace DeskCalculator
namespace Binary64

open Float.Model Float.Model.UnpackedFloat

/-! ### Products and quotients -/

/-- A product of natural numbers, the first with 53 bits behind the point. -/
theorem mul_rounds
    {m d : Nat} (hm : 0 < m) (hd : 0 < d) (hshift : 0 < m <<< 53) :
    ∃ w, RoundsTo (m * d) w ∧
      Holds .positive
        (UnpackedFloat.mul .binary64 (.finite .positive (m <<< 53) (-53) hshift)
          (.finite .positive d 0 hd)) w := by
  have hvalue : ((m <<< 53 * d : Nat) : ℚ) * 2 ^ (-53 + 0 : Int) = m * d := by
    have hpow : (2 : ℚ) ^ (-53 + 0 : Int) = 1 / 2 ^ 53 := by norm_num
    rw [Nat.shiftLeft_eq, hpow]
    push_cast
    field_simp
    norm_num
  have hone : (1 : ℚ) ≤ m * d := by
    exact_mod_cast Nat.mul_pos hm hd
  have hexponent := ulpExponent_ge (k := 0) (by simpa using hone)
  have hrounds := roundWithAccuracy_rounds .positive (describes_exact (m <<< 53 * d))
    (by exact_mod_cast Nat.mul_pos hshift hd) (e := -53 + 0) (by rw [hvalue]; omega)
  rwa [hvalue] at hrounds

/-- The sizes of the terms tell the size of a quotient. -/
theorem zpow_log2_sub_le_div
    {m d : Nat} (hm : 0 < m) (hd : 0 < d) :
    (2 : ℚ) ^ ((m.log2 : Int) - d.log2 - 1) ≤ m / d := by
  have hlow : ((2 ^ m.log2 : Nat) : ℚ) ≤ m := by exact_mod_cast Nat.log2_self_le hm.ne'
  have hhigh : (d : ℚ) ≤ (2 ^ (d.log2 + 1) : Nat) := by exact_mod_cast Nat.lt_log2_self.le
  rw [le_div_iff₀ (by exact_mod_cast hd)]
  calc (2 : ℚ) ^ ((m.log2 : Int) - d.log2 - 1) * d
      ≤ 2 ^ ((m.log2 : Int) - d.log2 - 1) * (2 ^ (d.log2 + 1) : Nat) := by gcongr
    _ = (2 ^ m.log2 : Nat) := by
        push_cast
        rw [← zpow_natCast, ← zpow_natCast, ← zpow_add₀ two_ne_zero]
        congr 1
        push_cast
        ring
    _ ≤ m := hlow

/-- A division is carried on until the quotient has all the bits of the result. -/
theorem divCore_eq
    {m d : Nat} (hm : 0 < m) (hd : 0 < d) :
    ∃ k : Nat, -(k : Int) ≤ ulpExponent ((m : ℚ) / d) ∧
      divCore .binary64 m 0 d 0 =
        ((m <<< k) / d, -(k : Int), accuracyOfFraction ((m <<< k) % d) d) := by
  have hsize := ulpExponent_ge (zpow_log2_sub_le_div hm hd)
  have hmin : -1074 ≤ ulpExponent ((m : ℚ) / d) := le_max_right _ _
  have htarget : min (0 - 0)
      (Format.binary64.targetExponent (totalExponent m 0 - totalExponent d 0)) =
        min 0 (max ((m.log2 : Int) - d.log2 - 53) (-1074)) := by
    have hlimit : Format.binary64.minExponent = -1074 := by decide
    have hbits : Format.binary64.mantissaBits = 53 := by decide
    rw [Format.targetExponent, totalExponent, totalExponent, hlimit, hbits]
    omega
  unfold divCore
  dsimp only
  rw [htarget]
  refine ⟨(0 - 0 - min 0 (max ((m.log2 : Int) - d.log2 - 53) (-1074))).toNat, ?_, ?_⟩
  · omega
  · congr 2
    omega

/-- A quotient of natural numbers is rounded correctly. -/
theorem div_rounds
    {m d : Nat} (hm : 0 < m) (hd : 0 < d) :
    ∃ w, RoundsTo (m / d) w ∧
      Holds .positive
        (UnpackedFloat.div .binary64 (.finite .positive m 0 hm) (.finite .positive d 0 hd)) w := by
  obtain ⟨k, hk, hcore⟩ := divCore_eq hm hd
  have hm' : (0 : ℚ) < m := by exact_mod_cast hm
  have hd' : (0 : ℚ) < d := by exact_mod_cast hd
  have hvalue : ((m <<< k : Nat) : ℚ) / d * 2 ^ (-(k : Int)) = m / d := by
    rw [Nat.shiftLeft_eq, zpow_neg, zpow_natCast]
    push_cast
    field_simp
  have hpos : (0 : ℚ) < (m <<< k : Nat) / d := by
    rw [Nat.shiftLeft_eq]
    positivity
  have hrounds := roundWithAccuracy_rounds .positive (describes_fraction (m <<< k) hd) hpos
    (e := -(k : Int)) (by rwa [hvalue])
  rw [hvalue] at hrounds
  rw [UnpackedFloat.div, hcore]
  exact hrounds

/-! ### Numbers beyond the format -/

/-- A number that is too large is rounded to one that is too large. -/
theorem RoundsTo.large
    {v w : ℚ} (h : RoundsTo v w) (hv : 2 ^ 1024 ≤ v) :
    2 ^ 1024 ≤ w := by
  have hpow : ((2 ^ 52 : Nat) : ℚ) * 2 ^ (972 : Int) = 2 ^ 1024 := by
    rw [Nat.cast_pow, Nat.cast_two]
    exact two_pow_mul_zpow 52 972
  have hpos : (0 : ℚ) < v := (by positivity : (0 : ℚ) < 2 ^ 1024).trans_le hv
  have hge := h.ge_of_ge hpos (canonical_two_pow_52 (e := 972) (by decide))
  rw [hpow] at hge
  exact hge hv

/-- A number below half of the least unit is rounded to zero. -/
theorem roundsTo_zero
    {v : ℚ} (hv : 0 < v) (hsmall : v < 2 ^ (-1075 : Int)) :
    RoundsTo v 0 := by
  have hlog := (Int.lt_zpow_iff_log_lt (b := 2) (by decide) hv).mp (by exact_mod_cast hsmall)
  have hulp : ulp v = 2 ^ (-1074 : Int) := by
    rw [ulp, ulpExponent, max_eq_right (by omega)]
  refine ⟨0, nearestEven_of_lt ?_, by simp⟩
  have hhalf : v / ulp v < 1 / 2 := by
    rw [div_lt_iff₀ (ulp_pos v), hulp]
    calc v < 2 ^ (-1075 : Int) := hsmall
      _ = 1 / 2 * 2 ^ (-1074 : Int) := by
        rw [show (-1075 : Int) = -1 + -1074 by norm_num, zpow_add₀ two_ne_zero]
        norm_num
  rw [Nat.cast_zero, sub_zero, abs_of_pos (div_pos hv (ulp_pos v))]
  exact hhalf

/-! ### Decimal numbers -/

variable {m : Nat} {s : Int}

/-- An exponent above the bound makes the number too large. -/
theorem large_of_exponent
    (hm : 0 < m) (hs : 2048 < s) :
    (2 : ℚ) ^ 1024 ≤ m * 10 ^ s := by
  have hone : (1 : ℚ) ≤ m := by exact_mod_cast hm
  calc (2 : ℚ) ^ 1024 ≤ 10 ^ 1024 := by gcongr; norm_num
    _ = 10 ^ (1024 : Int) := (zpow_natCast 10 1024).symm
    _ ≤ 10 ^ s := zpow_le_zpow_right₀ (by norm_num) (by omega)
    _ ≤ m * 10 ^ s := le_mul_of_one_le_left (by positivity) hone

/-- An exponent below the bound leaves less than half of the least unit. -/
theorem small_of_exponent
    (hs : s < -(2048 + m.log2)) :
    (m * 10 ^ s : ℚ) < 2 ^ (-1075 : Int) := by
  have hlow : (m : ℚ) < (2 ^ (m.log2 + 1) : Nat) := by exact_mod_cast Nat.lt_log2_self
  obtain ⟨k, rfl⟩ : ∃ k : Nat, s = -k := ⟨(-s).toNat, by omega⟩
  have hten : (10 : ℚ) ^ (-(k : Int)) ≤ 2 ^ (-(k : Int)) := by
    rw [zpow_neg, zpow_neg, zpow_natCast, zpow_natCast]
    gcongr
    norm_num
  calc (m * 10 ^ (-(k : Int)) : ℚ)
      < (2 ^ (m.log2 + 1) : Nat) * 10 ^ (-(k : Int)) := by gcongr
    _ ≤ (2 ^ (m.log2 + 1) : Nat) * 2 ^ (-(k : Int)) := by gcongr
    _ = 2 ^ ((m.log2 + 1 : Nat) + -(k : Int)) := by
        rw [zpow_add₀ two_ne_zero, zpow_natCast, Nat.cast_pow, Nat.cast_two]
    _ ≤ 2 ^ (-1075 : Int) := zpow_le_zpow_right₀ one_le_two (by push_cast; omega)

theorem ofScientific_rounds
    (hm : 0 < m) (s : Int) :
    ∃ w, RoundsTo (m * 10 ^ s) w ∧
      Represents (Float.Model.pack (UnpackedFloat.ofScientific .binary64 m s)).unpack w := by
  have hm' : (0 : ℚ) < m := by exact_mod_cast hm
  have hv : (0 : ℚ) < m * 10 ^ s := by positivity
  have hpositive : ∀ w : ℚ, factor .positive * w = w := one_mul
  unfold UnpackedFloat.ofScientific
  rw [dif_neg hm.ne']
  split
  · rename_i hlarge
    obtain ⟨w, hw⟩ := exists_roundsTo hv
    have hexponent : 2048 < s := by simpa using hlarge
    have hinfinite := Represents.infinity .positive (hw.large (large_of_exponent hm hexponent))
    rw [hpositive] at hinfinite
    exact ⟨w, hw, by rwa [unpack_pack_infinity]⟩
  split
  · rename_i hsmall
    refine ⟨0, roundsTo_zero hv (small_of_exponent (by simpa using hsmall)), ?_⟩
    rw [unpack_pack_zero]
    exact .zero .positive
  split
  · rename_i hnonneg
    obtain ⟨k, rfl⟩ := Int.eq_ofNat_of_zero_le hnonneg
    obtain ⟨w, hw, hholds⟩ := mul_rounds hm (Nat.pow_pos (n := k) (by decide : 0 < 10))
      (by rw [Nat.shiftLeft_eq]; positivity)
    have hstored := unpack_pack_of_holds hholds
    rw [hpositive] at hstored
    refine ⟨w, ?_, hstored⟩
    rwa [zpow_natCast, ← Nat.cast_ofNat, ← Nat.cast_pow]
  · rename_i hneg
    obtain ⟨k, rfl⟩ : ∃ k : Nat, s = -k := ⟨(-s).toNat, by omega⟩
    obtain ⟨w, hw, hholds⟩ := div_rounds hm (Nat.pow_pos (n := k) (by decide : 0 < 10))
    have hstored := unpack_pack_of_holds hholds
    rw [hpositive] at hstored
    have hk : (- -(k : Int)).toNat = k := by omega
    refine ⟨w, ?_, by simpa only [hk] using hstored⟩
    rwa [zpow_neg, zpow_natCast, ← div_eq_mul_inv, ← Nat.cast_ofNat, ← Nat.cast_pow]

/-- A mantissa of more than 53 bits does not fit the tables for small numbers. -/
theorem nearestFloat_rounds
    {m : Nat} (hm : 2 ^ 53 ≤ m) (s : Int) :
    ∃ w, RoundsTo (m * 10 ^ s) w ∧ Denotes (Ratio.nearestFloat m s) w := by
  obtain ⟨w, hw, hrepresents⟩ := ofScientific_rounds ((Nat.two_pow_pos 53).trans_le hm) s
  refine ⟨w, hw, ?_⟩
  have hsigned : (if decide (s < 0) = true then Int.negOfNat s.natAbs else Int.ofNat s.natAbs) =
      s := by
    rw [Int.negOfNat_eq, Int.ofNat_eq_natCast]
    split <;> rename_i hs <;> simp at hs <;> omega
  have hslow : Ratio.nearestFloat m s = Float.ofModel (Float.Model.ofScientific m s) := by
    unfold Ratio.nearestFloat Float.ofScientific
    rw [dif_neg (by omega)]
    dsimp only
    rw [hsigned]
  rw [Denotes, hslow]
  exact hrepresents

/-- A natural number is a decimal number with the exponent zero. -/
theorem ofNat_rounds
    (n : Nat) :
    ∃ w, RoundsTo n w ∧ Denotes (Float.ofNat n) w := by
  rcases lt_or_ge n (2 ^ 53) with hn | hn
  · exact ⟨n, roundsTo_self n.cast_nonneg (exact_natCast hn), denotes_ofNat hn⟩
  · have hrounds := nearestFloat_rounds hn 0
    rwa [zpow_zero, mul_one] at hrounds

end Binary64
end DeskCalculator
