import DeskCalculator.Proofs.Ratio.Words
import DeskCalculator.Proofs.ScaledNumber.Logarithm
import DeskCalculator.Ratio.Power

/-!
# Integer powers of ratios

Powers of terms without a common divisor have none either, so that a power is
in lowest terms without being simplified.  A negative exponent takes the power of
the reciprocal, whose terms are the same two, so that it is of the same size.

What is refused is too large by the bounds that are relied on of the logarithm;
what is returned is exact whatever the logarithm is.

**Results.**
* `PowerOutcome`: what a power with an integer exponent can be: exact, undefined
  or too large.
* `intPow_outcome`: a power has one of these outcomes.
* `intPow_ofNat`: powers of natural numbers within the limit.
-/

namespace DeskCalculator
namespace Ratio

variable {log2 : Float → Float} {q : ℚ} {n : Int}

/-! ### Powers of the terms -/

/-- The powers of the terms are the terms of the power. -/
theorem ofRat_pow
    (q : ℚ) (n : Nat) :
    (⟨(ofRat q).num.pow n, (ofRat q).den.pow n⟩ : Ratio) = ofRat (q ^ n) := by
  rw [ofRat, ofRat, ScaledNumber.ofInt_pow, ScaledNumber.ofNat_pow, Rat.num_pow, Rat.den_pow]

/-- A power of a number that is not zero is that of the number or its reciprocal. -/
theorem intPow_ofRat_eq
    (hq : q ≠ 0) (hn : n ≠ 0) :
    (ofRat q).intPow log2 n =
      if powerTooLarge log2 ((ofRat (if n < 0 then q⁻¹ else q)).num.abs.max
          (ofRat (if n < 0 then q⁻¹ else q)).den) n.natAbs then .error .overflow
      else .ok (ofRat (q ^ n)) := by
  have hpow : (if n < 0 then q⁻¹ else q) ^ n.natAbs = q ^ n := by
    split
    · rename_i hneg
      rw [inv_pow, ← zpow_natCast, ← zpow_neg, Int.ofNat_natAbs_of_nonpos hneg.le, neg_neg]
    · rename_i hneg
      rw [← zpow_natCast, Int.natAbs_of_nonneg (not_lt.mp hneg)]
  have hinv : (ofRat q).inv = .ok (ofRat q⁻¹) := by rw [inv_ofRat, if_neg hq]
  rw [← hpow, ← ofRat_pow, intPow, if_neg hn, if_neg (mt (isZero_ofRat q).mp hq)]
  by_cases hneg : n < 0
  · simp only [if_pos hneg, hinv]
    rfl
  · simp only [if_neg hneg]
    rfl

/-! ### Sizes -/

/-- The reciprocal has the same two terms. -/
theorem bitLength_ofRat_inv
    (q : ℚ) :
    (ofRat q⁻¹).bitLength = (ofRat q).bitLength := by
  rcases eq_or_ne q 0 with rfl | hq
  · rw [inv_zero]
  have hnum : q⁻¹.num.natAbs = q.den := by
    rw [Rat.num_inv, Int.natAbs_mul, Int.natAbs_sign_of_ne_zero (Rat.num_ne_zero.mpr hq),
      Nat.one_mul, Int.natAbs_natCast]
  apply eq_of_forall_ge_iff
  intro k
  rw [bitLength_ofRat_le_iff, bitLength_ofRat_le_iff, hnum, Rat.den_inv_of_ne_zero hq]
  exact and_comm

theorem bitLength_max_le
    {x y : ScaledNumber} {b : Nat} (hx : x.bitLength ≤ b) (hy : y.bitLength ≤ b) :
    (x.max y).bitLength ≤ b := by
  unfold ScaledNumber.max
  split
  · exact hx
  · exact hy

/-- The term that the size of a power is estimated from is one of the two. -/
theorem bitLength_larger_term_le
    (q : ℚ) :
    ((ofRat q).num.abs.max (ofRat q).den).bitLength ≤ (ofRat q).bitLength := by
  obtain ⟨hnum, hden⟩ := (bitLength_ofRat_le_iff q _).mp le_rfl
  apply bitLength_max_le
  · rwa [abs_num_ofRat, ← ScaledNumber.ofInt_natCast, ScaledNumber.bitLength_ofInt_le_iff,
      Int.natAbs_natCast]
  · rwa [den_ofRat, ScaledNumber.bitLength_ofInt_le_iff, Int.natAbs_natCast]

/-- Only zero, one and minus one have terms of one bit. -/
theorem bitLength_ofRat_le_one_iff
    (q : ℚ) :
    (ofRat q).bitLength ≤ 1 ↔ q = 0 ∨ |q| = 1 := by
  have hden := q.den_pos
  rw [bitLength_ofRat_le_iff]
  constructor
  · rintro ⟨hnum, hlt⟩
    have hq : (q.num : ℚ) = q := (Rat.den_eq_one_iff q).mp (by omega)
    have hcases : q.num = 0 ∨ q.num.natAbs = 1 := by omega
    rw [← hq, Int.cast_eq_zero, ← Int.cast_abs, Int.abs_eq_natAbs]
    exact hcases.imp_right fun h => by rw [h]; rfl
  · rintro (rfl | habs)
    · decide
    · rcases eq_or_eq_neg_of_abs_eq habs with rfl | rfl <;> decide

theorem exists_larger_term
    (hq : q ≠ 0) :
    ∃ t, 0 < t ∧ (ofRat q).num.abs.max (ofRat q).den = .ofNat t := by
  unfold ScaledNumber.max
  split
  · exact ⟨_, Int.natAbs_pos.mpr (Rat.num_ne_zero.mpr hq), abs_num_ofRat q⟩
  · exact ⟨_, q.den_pos, rfl⟩

section

variable {t k : Nat} (hlog : BinaryLogarithm log2) (ht : 0 < t)

include hlog ht

/-- The bounds of the logarithm of one leave only zero. -/
theorem one_lt_of_powerTooLarge
    (h : powerTooLarge log2 (.ofNat t) k = true) :
    1 < t := by
  refine lt_of_le_of_ne ht fun hone => ?_
  obtain ⟨hnorm, hvalue⟩ := ScaledNumber.integerMagnitude_ofNat_spec t
  have hshort := (hnorm.bitLength_le_iff 64).mpr (by rw [hvalue, ← hone]; decide)
  have hestimate := (ScaledNumber.log2Estimate_word hlog hnorm (by rwa [hvalue]) hshort
    (Nat.zero_le 64) (by rw [hvalue, ← hone]; decide)).denotes_zero
  have hlimit := Binary64.denotes_ofNat (n := bitLimit + 1) (by decide)
  exact Binary64.not_lt_zero_mul hestimate hlimit (Nat.cast_nonneg _) _ (of_decide_eq_true h)

/-- By the bounds of the logarithm a power that is refused is of more bits than allowed. -/
theorem lt_bitLength_of_powerTooLarge
    (hk : 0 < k) (h : powerTooLarge log2 (.ofNat t) k = true) :
    1 < (ScaledNumber.ofNat t).bitLength ∧
      bitLimit + 1 < (ScaledNumber.ofNat t).bitLength * k := by
  obtain ⟨hnorm, hvalue⟩ := ScaledNumber.integerMagnitude_ofNat_spec t
  have hbits : 1 < (ScaledNumber.ofNat t).bitLength := by
    refine not_le.mp fun hle => ?_
    have hlt := (hnorm.bitLength_le_iff 1).mp hle
    rw [hvalue] at hlt
    exact (one_lt_of_powerTooLarge hlog ht h).not_ge (Nat.lt_succ_iff.mp hlt)
  refine ⟨hbits, not_le.mp fun hle => ?_⟩
  have hlimit : bitLimit + 1 < 2 ^ 53 := by decide
  have hsize := (Nat.le_mul_of_pos_right _ hk).trans hle
  have hexponent := (Nat.le_mul_of_pos_left k (Nat.zero_lt_of_lt hbits)).trans hle
  have hestimate := ScaledNumber.log2Estimate_atMost hlog hnorm (by rwa [hvalue])
    (hsize.trans_lt hlimit)
  have hproduct := hestimate.mul (Binary64.atMost_ofNat (hexponent.trans_lt hlimit))
    (hsize.trans_lt hlimit) (hexponent.trans_lt hlimit) (hle.trans_lt hlimit)
  exact (hproduct.mono hle).not_lt hlimit (of_decide_eq_true h)

end

/-! ### Outcomes -/

/--
The power `q ^ n`: undefined for a negative exponent of zero, else exact, unless
the product of size and exponent is beyond the limit.  The powers of zero, one
and minus one are never too large.  A power may be refused for another reason if
the logarithm is not within its bounds.
-/
inductive PowerOutcome (log2 : Float → Float) (q : ℚ) (n : Int) : Except CalcError Ratio → Prop
  | undefined (hq : q = 0) (hn : n < 0) :
      PowerOutcome log2 q n (.error .divisionByZero)
  | exact (h : ¬(q = 0 ∧ n < 0)) :
      PowerOutcome log2 q n (.ok (ofRat (q ^ n)))
  | tooLarge (hzero : q ≠ 0)
      (hsize : BinaryLogarithm log2 →
        |q| ≠ 1 ∧ bitLimit + 1 < (ofRat q).bitLength * n.natAbs) :
      PowerOutcome log2 q n (.error .overflow)

theorem intPow_outcome
    (log2 : Float → Float) (q : ℚ) (n : Int) :
    PowerOutcome log2 q n ((ofRat q).intPow log2 n) := by
  rcases eq_or_ne n 0 with rfl | hn
  · rw [intPow, if_pos rfl, ← ofRat_one, ← zpow_zero q]
    exact .exact (fun h => h.2.false)
  rcases eq_or_ne q 0 with rfl | hq
  · rw [intPow, if_neg hn, if_pos ((isZero_ofRat 0).mpr rfl)]
    by_cases hneg : n < 0
    · rw [if_pos hneg]
      exact .undefined rfl hneg
    · have hexact : PowerOutcome log2 0 n (.ok (ofRat (0 ^ n))) := .exact (fun h => hneg h.2)
      rw [if_neg hneg]
      rwa [zero_zpow n hn, ofRat_zero] at hexact
  rw [intPow_ofRat_eq hq hn]
  have hbase : (ofRat (if n < 0 then q⁻¹ else q)).bitLength = (ofRat q).bitLength := by
    split
    · exact bitLength_ofRat_inv q
    · rfl
  have hbase' : (if n < 0 then q⁻¹ else q) ≠ 0 := by
    split
    · exact inv_ne_zero hq
    · exact hq
  have hterm := bitLength_larger_term_le (if n < 0 then q⁻¹ else q)
  obtain ⟨t, ht, hmax⟩ := exists_larger_term hbase'
  rw [hbase, hmax] at hterm
  rw [hmax]
  split
  · rename_i hlarge
    refine .tooLarge hq fun hlog => ?_
    obtain ⟨hbits, hsize⟩ := lt_bitLength_of_powerTooLarge hlog ht (by omega) hlarge
    have hunit := mt (bitLength_ofRat_le_one_iff q).mpr (not_le.mpr (hbits.trans_le hterm))
    exact ⟨fun h => hunit (Or.inr h), hsize.trans_le (Nat.mul_le_mul_right _ hterm)⟩
  · exact .exact (fun h => hq h.1)

namespace PowerOutcome

variable {o : Except CalcError Ratio}

theorem of_ok
    {r : Ratio} (h : PowerOutcome log2 q n o) (hr : o = .ok r) :
    ¬(q = 0 ∧ n < 0) ∧ r = ofRat (q ^ n) := by
  cases h with
  | undefined => cases hr
  | exact hdefined => exact ⟨hdefined, (Except.ok.inj hr).symm⟩
  | tooLarge => cases hr

theorem divisionByZero_iff
    (h : PowerOutcome log2 q n o) :
    o = .error .divisionByZero ↔ q = 0 ∧ n < 0 := by
  cases h with
  | undefined hq hn => exact iff_of_true rfl ⟨hq, hn⟩
  | exact hdefined => exact iff_of_false nofun hdefined
  | tooLarge hzero => exact iff_of_false nofun (fun h => hzero h.1)

/-- A power that is defined is returned, of zero, one, minus one, or within the limit. -/
theorem eq_ok
    (h : PowerOutcome log2 q n o) (hdefined : ¬(q = 0 ∧ n < 0))
    (hsmall : q = 0 ∨ BinaryLogarithm log2 ∧
      (|q| = 1 ∨ (ofRat q).bitLength * n.natAbs ≤ bitLimit + 1)) :
    o = .ok (ofRat (q ^ n)) := by
  cases h with
  | undefined hq hn => exact absurd ⟨hq, hn⟩ hdefined
  | exact => rfl
  | tooLarge hzero hlarge =>
      rcases hsmall with hq | ⟨hlog, hsmall⟩
      · exact absurd hq hzero
      · obtain ⟨hone, hsize⟩ := hlarge hlog
        exact absurd hsize (hsmall.resolve_left hone).not_gt

theorem refused
    {e : CalcError} (h : PowerOutcome log2 q n o) (he : o = .error e) :
    e = .divisionByZero ∨ e = .overflow ∧ q ≠ 0 ∧ (BinaryLogarithm log2 →
      |q| ≠ 1 ∧ bitLimit + 1 < (ofRat q).bitLength * n.natAbs) := by
  cases h with
  | undefined => exact Or.inl (Except.error.inj he).symm
  | exact => cases he
  | tooLarge hzero hsize => exact Or.inr ⟨(Except.error.inj he).symm, hzero, hsize⟩

end PowerOutcome

/-! ### Powers of natural numbers -/

/-- A natural number of `b` bits has powers as long as the products of `b` are within the limit. -/
theorem intPow_ofNat
    (hlog : BinaryLogarithm log2) {n b k : Nat} (hn : n < 2 ^ b) (hb : 0 < b)
    (hk : b * k ≤ bitLimit + 1) :
    (ofNat n).intPow log2 k = .ok (.ofNat (n ^ k)) := by
  have hbits : (ofRat n).bitLength ≤ b := by
    rw [bitLength_ofRat_le_iff, Rat.num_natCast, Rat.den_natCast, Int.natAbs_natCast]
    exact ⟨hn, Nat.one_lt_two_pow hb.ne'⟩
  have hpow := (intPow_outcome log2 n k).eq_ok (fun h => by omega)
    (Or.inr ⟨hlog, Or.inr ((Nat.mul_le_mul_right _ hbits).trans hk)⟩)
  rwa [ofRat_natCast, zpow_natCast, ← Nat.cast_pow, ofRat_natCast] at hpow

end Ratio
end DeskCalculator
