import DeskCalculator.Proofs.Checked.Scientific

/-!
# Powers with an integer exponent of any size

An exponent below `2 ^ 63` in absolute value gives an exact power, and the powers
with a larger one are settled by what is known of zero, one and minus one.  Both
ways have the outcomes of an integer power, with one exception: the larger
negative powers of zero are reported as too large, and not as undefined.

**Results.**
* `pow_ofInt`: which way an integer exponent goes.
* `pow_outcome`: the outcome of a power, the exception apart.
* `integer_exponents_classified`: values and errors of powers with an integer exponent.
-/

namespace DeskCalculator

open Ratio

namespace Scientific

variable {F : RealFunctions} {q : ℚ} {n : Int} {x y : Ratio}

/-! ### Two ways -/

/-- The sign of an integer and its absolute value give it back. -/
theorem signed_natAbs
    (n : Int) :
    (if (ofInt n).isNegative = true then -(n.natAbs : Int) else n.natAbs) = n := by
  simp only [isNegative_ofInt]
  split <;> omega

theorem exponent?_ofInt
    (n : Int) :
    exponent? (ofInt n) = if n.natAbs < 2 ^ 63 then some n else none := by
  unfold exponent?
  rw [abs_ofInt, toWord_ofNat]
  by_cases hword : n.natAbs < 2 ^ 64
  · rw [if_pos hword]
    simp only [UInt64.toNat_ofNat_of_lt' hword, signed_natAbs]
  · rw [if_neg hword, if_neg (by omega)]

/-- Exponents below `2 ^ 63` in absolute value, and the others. -/
theorem pow_ofInt
    (F : RealFunctions) (x : Ratio) (n : Int) :
    pow F x (ofInt n) = if n.natAbs < 2 ^ 63 then x.intPow F.log2 n else hugePow x (ofInt n) := by
  rw [pow, if_pos (isInteger_ofInt n), exponent?_ofInt]
  by_cases h : n.natAbs < 2 ^ 63
  · rw [if_pos h, if_pos h]
  · rw [if_neg h, if_neg h]

/-- What is known of zero, one and minus one. -/
theorem hugePow_ofInt
    (q : ℚ) (n : Int) :
    hugePow (ofRat q) (ofInt n) =
      if q = 0 ∧ 0 ≤ n then .ok .zero else if q = 1 then .ok .one
      else if q = -1 then .ok (if n % 2 = 0 then .one else ofInt (-1)) else .error .overflow := by
  have hnonneg : (!(ofInt n).isNegative) = true ↔ 0 ≤ n := by
    rw [Bool.not_eq_true', ← Bool.not_eq_true, isNegative_ofInt, not_lt]
  have hone : (ofRat q).isOne = true ↔ q = 1 := by
    rw [isOne, (lowestTerms_ofRat q).wellFormed.same_iff lowestTerms_one.wellFormed, toRat_ofRat,
      ← ofRat_one, toRat_ofRat]
  have hminus : (ofRat q).same (ofInt (-1)) = true ↔ q = -1 := by
    rw [(lowestTerms_ofRat q).wellFormed.same_iff (lowestTerms_ofInt (-1)).wellFormed, toRat_ofRat,
      toRat_ofInt, Int.cast_neg, Int.cast_one]
  have hparity : (ofInt n).mod (ofInt 2) = .ok (ofInt (n % 2)) := ofInt_mod_ofNat n two_pos
  have hsign : (do return if (← (ofInt n).mod (ofInt 2)).isZero then one else ofInt (-1) :
      Except CalcError Ratio) = .ok (if n % 2 = 0 then one else ofInt (-1)) := by
    rw [hparity]
    simp only [← isZero_ofInt]
    rfl
  simp only [hugePow, isZero_ofRat, hnonneg, hone, hminus, ← hsign]

theorem ofRat_neg_one_zpow
    (n : Int) :
    ofRat ((-1) ^ n) = if n % 2 = 0 then one else ofInt (-1) := by
  split
  · rename_i heven
    rw [(Int.even_iff.mpr heven).neg_one_zpow, ofRat_one]
  · rename_i hodd
    rw [(Int.not_even_iff_odd.mp (mt Int.even_iff.mp hodd)).neg_one_zpow, ← ofRat_intCast,
      Int.cast_neg, Int.cast_one]

/-- A large power of zero, one or minus one is exact, all others are too large. -/
theorem hugePow_outcome
    (log2 : Float → Float) (hn : 2 ^ 63 ≤ n.natAbs) (h : ¬(q = 0 ∧ n < 0)) :
    PowerOutcome log2 q n (hugePow (ofRat q) (ofInt n)) := by
  have hexact : PowerOutcome log2 q n (.ok (ofRat (q ^ n))) := .exact h
  rw [hugePow_ofInt]
  rcases eq_or_ne q 0 with rfl | hzero
  · have hnonneg : 0 ≤ n := not_lt.mp fun hneg => h ⟨rfl, hneg⟩
    rw [if_pos ⟨rfl, hnonneg⟩]
    rwa [zero_zpow n (by omega), ofRat_zero] at hexact
  rw [if_neg (fun hand => hzero hand.1)]
  rcases eq_or_ne q 1 with rfl | hone
  · rw [if_pos rfl]
    rwa [one_zpow, ofRat_one] at hexact
  rw [if_neg hone]
  rcases eq_or_ne q (-1) with rfl | hminus
  · rw [if_pos rfl]
    rwa [ofRat_neg_one_zpow] at hexact
  rw [if_neg hminus]
  have hunit : |q| ≠ 1 := fun habs => (eq_or_eq_neg_of_abs_eq habs).elim hone hminus
  have hbits : 1 < (ofRat q).bitLength :=
    not_le.mp (mt (bitLength_ofRat_le_one_iff q).mp (not_or.mpr ⟨hzero, hunit⟩))
  have hlimit : bitLimit + 1 < 2 ^ 63 := by decide
  refine .tooLarge hzero fun _ => ⟨hunit, ?_⟩
  calc
    bitLimit + 1 < 1 * n.natAbs := by omega
    _ ≤ (ofRat q).bitLength * n.natAbs := Nat.mul_le_mul_right _ hbits.le

/-! ### One classification -/

/-- The two ways have the same outcomes, apart from the larger negative powers of zero. -/
theorem pow_outcome
    (F : RealFunctions) (h : ¬(q = 0 ∧ n ≤ -2 ^ 63)) :
    PowerOutcome F.log2 q n (pow F (ofRat q) (ofInt n)) := by
  rw [pow_ofInt]
  split
  · exact intPow_outcome F.log2 q n
  · rename_i hlarge
    exact hugePow_outcome F.log2 (by omega) (fun hand => h ⟨hand.1, by omega⟩)

theorem pow_zero_of_le
    (F : RealFunctions) (hn : n ≤ -2 ^ 63) :
    pow F (ofRat 0) (ofInt n) = .error .overflow := by
  rw [pow_ofInt, if_neg (by omega), hugePow_ofInt, if_neg (by omega), if_neg (by norm_num),
    if_neg (by norm_num)]

/--
The outcome of the power `q ^ n`, as the errors and the values of zero, one and
minus one classify it.  Zero with an exponent of at most `-2 ^ 63` is an
exception: it is refused for its size.  That one and minus one are not refused
for theirs is a matter of their logarithm.
-/
structure ClassifiedPower (log2 : Float → Float) (q : ℚ) (n : Int)
    (o : Except CalcError Ratio) : Prop where
  exact : ∀ r, o = .ok r → Denotes r (q ^ n)
  undefined : o = .error .divisionByZero ↔ q = 0 ∧ n < 0 ∧ -2 ^ 63 < n
  returned : q = 0 ∨ BinaryLogarithm log2 ∧ |q| = 1 → ¬(q = 0 ∧ n < 0) →
    ∃ r, o = .ok r ∧ Denotes r (q ^ n)
  overflow : o = .error .overflow →
    q ≠ 0 ∧ (BinaryLogarithm log2 → |q| ≠ 1) ∨ q = 0 ∧ n ≤ -2 ^ 63
  exception : q = 0 → n ≤ -2 ^ 63 → o = .error .overflow
  refused : ∀ e, o = .error e → e = .divisionByZero ∨ e = .overflow

theorem classified_of_outcome
    {log2 : Float → Float} {o : Except CalcError Ratio} (h : PowerOutcome log2 q n o)
    (hle : ¬(q = 0 ∧ n ≤ -2 ^ 63)) :
    ClassifiedPower log2 q n o := by
  constructor
  case exact =>
    intro r hr
    obtain ⟨-, rfl⟩ := h.of_ok hr
    exact denotes_ofRat _
  case undefined =>
    rw [h.divisionByZero_iff]
    constructor
    · rintro ⟨hq, hn⟩
      exact ⟨hq, hn, not_le.mp fun hle' => hle ⟨hq, hle'⟩⟩
    · rintro ⟨hq, hn, -⟩
      exact ⟨hq, hn⟩
  case returned =>
    intro hunit hdefined
    exact ⟨_, h.eq_ok hdefined (hunit.imp_right fun h => ⟨h.1, Or.inl h.2⟩), denotes_ofRat _⟩
  case overflow =>
    intro he
    obtain ⟨-, hzero, hlarge⟩ := (h.refused he).resolve_left nofun
    exact Or.inl ⟨hzero, fun hlog => (hlarge hlog).1⟩
  case exception => exact fun hq hn => absurd ⟨hq, hn⟩ hle
  case refused => exact fun e he => (h.refused he).imp_right And.left

theorem classified_exception
    (log2 : Float → Float) (hn : n ≤ -2 ^ 63) :
    ClassifiedPower log2 0 n (.error .overflow) := by
  constructor
  case exact => exact nofun
  case undefined => exact iff_of_false nofun fun h => absurd h.2.2 hn.not_gt
  case returned => exact fun _ hdefined => absurd ⟨rfl, by omega⟩ hdefined
  case overflow => exact fun _ => Or.inr ⟨rfl, hn⟩
  case exception => exact fun _ _ => rfl
  case refused => exact fun e he => Or.inr (Except.error.inj he).symm

/--
A power of a ratio with an integer exponent of any size is classified, the two
ways alike; it is computed by divisions that are defined.
-/
theorem integer_exponents_classified
    (F : RealFunctions) (hx : LowestTerms x) (hy : LowestTerms y) (hn : y.toRat = n) :
    checkedPow F x y = some (pow F x y) ∧ ClassifiedPower F.log2 x.toRat n (pow F x y) := by
  refine ⟨checkedPow_eq F hx hy, ?_⟩
  obtain ⟨q, rfl⟩ := hx.exists_ofRat
  obtain rfl := hy.eq_ofInt hn
  rw [toRat_ofRat]
  by_cases hle : q = 0 ∧ n ≤ -2 ^ 63
  · obtain ⟨rfl, hle⟩ := hle
    rw [pow_zero_of_le F hle]
    exact classified_exception F.log2 hle
  · exact classified_of_outcome (pow_outcome F hle) hle

/-- Minus one with an odd exponent of 65 bits. -/
theorem large_power_of_minus_one :
    LowestTerms (ofInt (-1)) ∧ LowestTerms (ofInt (2 ^ 64 + 1)) ∧
      (ofInt (2 ^ 64 + 1)).toRat = ((2 ^ 64 + 1 : Int) : ℚ) ∧
      ∃ r, pow clampedLogarithm (ofInt (-1)) (ofInt (2 ^ 64 + 1)) = .ok r ∧ Denotes r (-1) := by
  have hbase := lowestTerms_ofInt (-1)
  have hexponent := lowestTerms_ofInt (2 ^ 64 + 1)
  have hvalue := toRat_ofInt (2 ^ 64 + 1)
  have hminus : (ofInt (-1)).toRat = -1 := by
    rw [toRat_ofInt, Int.cast_neg, Int.cast_one]
  have hclassified := (integer_exponents_classified clampedLogarithm hbase hexponent hvalue).2
  have hodd : Odd (2 ^ 64 + 1 : Int) := by decide
  rw [hminus] at hclassified
  have hreturned := hclassified.returned (Or.inr ⟨binaryLogarithm_clamped, by norm_num⟩)
    (fun h => by norm_num at h)
  rw [hodd.neg_one_zpow] at hreturned
  exact ⟨hbase, hexponent, hvalue, hreturned⟩

/--
The power of zero with the exponent `-2 ^ 63` is reported as too large, although
a division by zero is reported for the exponent after it.
-/
theorem large_power_of_zero :
    LowestTerms zero ∧ LowestTerms (ofInt (-2 ^ 63)) ∧ zero.toRat = 0 ∧
      (ofInt (-2 ^ 63)).toRat < 0 ∧
      pow .native zero (ofInt (-2 ^ 63)) = .error .overflow ∧
      pow .native zero (ofInt (-2 ^ 63 + 1)) = .error .divisionByZero := by
  refine ⟨lowestTerms_zero, lowestTerms_ofInt _, ?_, ?_, ?_, ?_⟩
  · rw [← ofRat_zero, toRat_ofRat]
  · rw [toRat_ofInt]
    norm_num
  · rw [← ofRat_zero]
    exact pow_zero_of_le .native le_rfl
  · rw [← ofRat_zero]
    have houtcome := pow_outcome (q := 0) (n := -2 ^ 63 + 1) .native (by norm_num)
    exact houtcome.divisionByZero_iff.mpr ⟨rfl, by norm_num⟩

end Scientific
end DeskCalculator
