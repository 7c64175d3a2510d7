import DeskCalculator.Proofs.Checked.Root

/-!
# Laws of integer powers

A power is computed on the terms, by repeated squaring, and never simplified.
What is returned is the exact power in lowest terms all the same, so that the
laws of exponents hold of whatever powers are returned.

**Results.**
* `zpow_add_of_intPow`: exponents of returned powers add up, also for zero.
* `integer_powers_exact`: the powers of a ratio in lowest terms.
-/

namespace DeskCalculator
namespace Ratio

variable {log2 : Float → Float} {q : ℚ} {n : Int} {x : Ratio}

/--
The powers of one ratio.  What is returned is exact and in lowest terms; what is
not is a negative power of zero, or, if the logarithm is within its bounds, larger
than the limit allows.
-/
structure IntegerPowers (log2 : Float → Float) (x : Ratio) : Prop where
  /-- The reciprocal is taken only of a base that is not zero. -/
  checked : ∀ n, x.checkedIntPow log2 n = some (x.intPow log2 n)
  exact : ∀ n r, x.intPow log2 n = .ok r → Denotes r (x.toRat ^ n)
  zero : x.intPow log2 0 = .ok one
  undefined : ∀ n, x.intPow log2 n = .error .divisionByZero ↔ x.toRat = 0 ∧ n < 0
  refused : ∀ n e, x.intPow log2 n = .error e → e = .divisionByZero ∨
    e = .overflow ∧ (BinaryLogarithm log2 → bitLimit + 1 < x.bitLength * n.natAbs)
  add : ∀ m n a b c, x.intPow log2 m = .ok a → x.intPow log2 n = .ok b →
    x.intPow log2 (m + n) = .ok c → c = a * b
  mul : ∀ m n a b c, x.intPow log2 m = .ok a → a.intPow log2 n = .ok b →
    x.intPow log2 (m * n) = .ok c → c = b

/-- Zero has no negative power, so that the exponents of returned powers add up for it as well. -/
theorem zpow_add_of_intPow
    {m : Int} {a b : Ratio} (hm : (ofRat q).intPow log2 m = .ok a)
    (hn : (ofRat q).intPow log2 n = .ok b) :
    q ^ (m + n) = q ^ m * q ^ n := by
  apply zpow_add'
  by_cases hq : q = 0
  · right
    have hm' : ¬m < 0 := fun h => ((intPow_outcome log2 q m).of_ok hm).1 ⟨hq, h⟩
    have hn' : ¬n < 0 := fun h => ((intPow_outcome log2 q n).of_ok hn).1 ⟨hq, h⟩
    omega
  · exact Or.inl hq

/-- The integer powers of a ratio in lowest terms are exact, and their exponents obey the laws. -/
theorem integer_powers_exact
    (log2 : Float → Float) (hx : LowestTerms x) :
    IntegerPowers log2 x := by
  have hchecked := checkedIntPow_eq hx.wellFormed log2
  obtain ⟨q, rfl⟩ := hx.exists_ofRat
  constructor
  case checked => exact hchecked
  case exact =>
    intro n r h
    obtain ⟨-, rfl⟩ := (intPow_outcome log2 q n).of_ok h
    rw [toRat_ofRat]
    exact denotes_ofRat _
  case zero => rfl
  case undefined =>
    intro n
    rw [toRat_ofRat]
    exact (intPow_outcome log2 q n).divisionByZero_iff
  case refused =>
    intro n e he
    exact ((intPow_outcome log2 q n).refused he).imp_right fun h =>
      ⟨h.1, fun hlog => (h.2.2 hlog).2⟩
  case add =>
    intro m n a b c hm hn hc
    have hsum := zpow_add_of_intPow hm hn
    obtain ⟨-, rfl⟩ := (intPow_outcome log2 q m).of_ok hm
    obtain ⟨-, rfl⟩ := (intPow_outcome log2 q n).of_ok hn
    obtain ⟨-, rfl⟩ := (intPow_outcome log2 q (m + n)).of_ok hc
    rw [hsum, ofRat_mul]
  case mul =>
    intro m n a b c hm hn hc
    obtain ⟨-, rfl⟩ := (intPow_outcome log2 q m).of_ok hm
    obtain ⟨-, rfl⟩ := (intPow_outcome log2 _ n).of_ok hn
    obtain ⟨-, rfl⟩ := (intPow_outcome log2 q (m * n)).of_ok hc
    rw [zpow_mul]

/-- A negative power of a number below zero, by way of the reciprocal. -/
theorem powers_of_two_thirds :
    LowestTerms (ofRat (-2 / 3)) ∧ IntegerPowers clampedLog2 (ofRat (-2 / 3)) ∧
      ∃ r, (ofRat (-2 / 3)).intPow clampedLog2 (-3) = .ok r ∧ Denotes r (-27 / 8) := by
  have hterms := lowestTerms_ofRat (-2 / 3)
  have hpowers := integer_powers_exact clampedLog2 hterms
  have hbits : (ofRat (-2 / 3)).bitLength ≤ 2 := by
    rw [bitLength_ofRat_le_iff]
    decide +kernel
  refine ⟨hterms, hpowers, ?_⟩
  cases h : (ofRat (-2 / 3)).intPow clampedLog2 (-3) with
  | error e =>
      rcases hpowers.refused _ _ h with rfl | ⟨-, hlarge⟩
      · rw [hpowers.undefined, toRat_ofRat] at h
        norm_num at h
      · have hsmall := Nat.mul_le_mul_right (-3 : Int).natAbs hbits
        exact absurd ((hlarge binaryLogarithm_clamped).trans_le hsmall) (by decide)
  | ok r =>
      have hexact := hpowers.exact _ _ h
      rw [toRat_ofRat, show (-2 / 3 : ℚ) ^ (-3 : Int) = -27 / 8 by norm_num] at hexact
      exact ⟨r, rfl, hexact⟩

end Ratio
end DeskCalculator
