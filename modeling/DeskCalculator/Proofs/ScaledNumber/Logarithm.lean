import DeskCalculator.Proofs.Binary64.Decimal
import DeskCalculator.Proofs.ScaledNumber.Arithmetic
import DeskCalculator.RealFunctions
import DeskCalculator.ScaledNumber.Root

/-!
# Estimates of binary logarithms

The binary logarithm of an integer is estimated from its 64 top bits, the bits
below them are counted.  What is relied on is that the logarithm of a binary64
number is between those of the powers of two around it.  The estimate is then at
most the number of bits, and it is zero for one.

**Results.**
* `binaryLogarithm_clamped`: a function that does what is relied on.
* `log2Estimate_word`, `log2Estimate_atMost`: the estimate and the number of bits.
-/

namespace DeskCalculator

open Binary64

/-! ### Logarithms of binary64 numbers -/

/--
What is relied on of a binary logarithm: for numbers from one up to a power of
two it is from zero up to the exponent.
-/
def BinaryLogarithm (log2 : Float → Float) : Prop :=
  ∀ (a : Float) (x : ℚ) (k : Nat), k ≤ 64 → Denotes a x → 1 ≤ x → x ≤ 2 ^ k → AtMost (log2 a) k

/-- The bounds that the powers of two above a number give for its logarithm. -/
def LogarithmBounds (a l : Float) : Prop :=
  0.0 ≤ l ∧ ∀ k < 65, a ≤ Float.ofNat (2 ^ k) → l ≤ Float.ofNat k

instance (a l : Float) : Decidable (LogarithmBounds a l) :=
  inferInstanceAs (Decidable (_ ∧ _))

/-- The machine's logarithm wherever it is within the bounds. -/
def clampedLog2 (a : Float) : Float :=
  if LogarithmBounds a a.log2 then a.log2 else 0.0

theorem binaryLogarithm_clamped : BinaryLogarithm clampedLog2 := by
  intro a x k hk ha hone hle
  have hexponent : k < 2 ^ 53 := by omega
  have hpower : Denotes (Float.ofNat (2 ^ k)) (2 ^ k : Nat) := by
    obtain ⟨w, hw, hdenotes⟩ := ofNat_rounds (2 ^ k)
    rwa [hw.eq_of_exact (Nat.cast_nonneg _) (by exact_mod_cast exact_two_pow k)] at hdenotes
  have hfinite : |((2 ^ k : Nat) : ℚ)| < 2 ^ 1024 := by
    rw [abs_of_nonneg (Nat.cast_nonneg _)]
    rw [Nat.cast_pow, Nat.cast_two]
    exact pow_lt_pow_right₀ one_lt_two (by omega)
  unfold clampedLog2
  split
  · rename_i hbounds
    obtain ⟨hlow, hhigh⟩ := hbounds
    have hbelow := hhigh k (by omega) ((ha.le_iff hpower (Or.inr hfinite)).mpr
      (by exact_mod_cast hle))
    obtain ⟨l, hl⟩ := exists_denotes_of_le hlow
    refine ⟨l, hl, ?_, ?_⟩
    · exact (denotes_zero.le_iff hl (Or.inl (by rw [abs_zero]; positivity))).mp hlow
    · refine (hl.le_iff (denotes_ofNat hexponent) (Or.inr ?_)).mp hbelow
      rw [abs_of_nonneg k.cast_nonneg]
      exact natCast_lt_large hexponent
  · exact ⟨0, denotes_zero, le_rfl, k.cast_nonneg⟩

/-- The machine's functions, the logarithm within the bounds. -/
def clampedLogarithm : RealFunctions := { RealFunctions.native with log2 := clampedLog2 }

namespace ScaledNumber

variable {log2 : Float → Float} {x : ScaledNumber}

/-! ### The estimate -/

theorem integerMagnitude_ofNat_spec
    (t : Nat) :
    Magnitude.Normalized (ofNat t).integerMagnitude ∧ (ofNat t).integerMagnitude.toNat = t := by
  rw [integerMagnitude_ofNat]
  exact ⟨Magnitude.normalized_ofNat t, Magnitude.toNat_ofNat t⟩

/-- The top bits of a number with more than 64 of them are not all zero. -/
theorem topWord_pos
    {m : Magnitude} (hm : Magnitude.Normalized m) (hlong : 64 < m.bitLength) :
    0 < (m.shiftRight (m.bitLength - 64)).lowWord.toNat := by
  have hlt := (hm.bitLength_le_iff _).mp le_rfl
  have hge : 2 ^ (m.bitLength - 64) ≤ m.toNat := by
    refine not_lt.mp fun h => ?_
    have hle := (hm.bitLength_le_iff _).mpr h
    omega
  rw [Magnitude.toNat_lowWord, Magnitude.toNat_shiftRight, Nat.mod_eq_of_lt]
  · exact Nat.div_pos hge (Nat.two_pow_pos _)
  · rw [Nat.div_lt_iff_lt_mul (Nat.two_pow_pos _), ← pow_add]
    exact hlt.trans_le (Nat.pow_le_pow_right two_pos (by omega))

variable (hlog : BinaryLogarithm log2) (hnorm : Magnitude.Normalized x.integerMagnitude)
  (hpos : 0 < x.integerMagnitude.toNat)

include hlog hnorm hpos

/-- The logarithm of a word is taken as it is. -/
theorem log2Estimate_word
    (hshort : x.bitLength ≤ 64) {k : Nat} (hk : k ≤ 64)
    (hle : x.integerMagnitude.toNat ≤ 2 ^ k) :
    AtMost (x.log2Estimate log2) k := by
  have hlt := ((hnorm.bitLength_le_iff _).mp le_rfl).trans_le (Nat.pow_le_pow_right two_pos hshort)
  have hword : x.integerMagnitude.lowWord.toNat = x.integerMagnitude.toNat := by
    rw [Magnitude.toNat_lowWord, Nat.mod_eq_of_lt hlt]
  rw [← hword] at hpos hle
  obtain ⟨v, hv, hone, hpower⟩ := toFloat_bounds hpos hle
  have hbound := hlog _ v k hk hv hone hpower
  unfold log2Estimate
  rw [bitLength] at hshort
  simp only [if_pos hshort]
  split
  · exact hbound
  · exact ⟨0, denotes_zero, le_rfl, k.cast_nonneg⟩

/-- The estimate for an integer above zero is at most its number of bits. -/
theorem log2Estimate_atMost
    (hbits : x.bitLength < 2 ^ 53) :
    AtMost (x.log2Estimate log2) x.bitLength := by
  by_cases hshort : x.bitLength ≤ 64
  · exact log2Estimate_word hlog hnorm hpos hshort hshort
      ((hnorm.bitLength_le_iff _).mp le_rfl).le
  · have htop := topWord_pos hnorm (not_le.mp hshort)
    obtain ⟨v, hv, hone, hpower⟩ := toFloat_bounds (k := 64) htop (UInt64.toNat_lt _).le
    have hsum := (hlog _ v 64 le_rfl hv hone hpower).add
      (atMost_ofNat (n := x.bitLength - 64) (by omega)) (by omega)
    rw [Nat.add_sub_cancel' (by omega)] at hsum
    unfold log2Estimate
    rw [bitLength] at hshort
    simp only [if_neg hshort]
    exact hsum

end ScaledNumber
end DeskCalculator
