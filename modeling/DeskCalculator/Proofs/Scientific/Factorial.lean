import DeskCalculator.Proofs.Ratio.Words
import DeskCalculator.Scientific.Factorial
import Mathlib.Data.Nat.Factorial.Basic

/-!
# The factorial of a word

The product stops as soon as it is zero modulo `2 ^ 64`: every further product
is zero as well, so that nothing is lost.

**Results.**
* `toNat_mulRangeMod`: the product of consecutive numbers modulo `2 ^ 64`.
* `wordFactorial_ofNat`: the factorial modulo `2 ^ 64`.
-/

namespace DeskCalculator
namespace Scientific

theorem toNat_mulRangeMod
    (acc : UInt64) (k count : Nat) :
    (mulRangeMod acc k count).toNat = acc.toNat * k.ascFactorial count % 2 ^ 64 := by
  induction count generalizing acc k with
  | zero =>
      rw [mulRangeMod, Nat.ascFactorial_zero, Nat.mul_one, Nat.mod_eq_of_lt acc.toNat_lt]
  | succ count ih =>
      rw [mulRangeMod]
      split
      · rename_i hzero
        rw [hzero, UInt64.toNat_zero, Nat.zero_mul, Nat.zero_mod]
      · rw [ih, UInt64.toNat_mul, UInt64.toNat_ofNat', Nat.mod_mul_mod, Nat.ascFactorial_succ,
          ← Nat.succ_ascFactorial, ← Nat.mul_assoc]
        exact ((Nat.mod_modEq k (2 ^ 64)).mul_left acc.toNat).mul_right _

/-- The factorial of a word is taken modulo `2 ^ 64`. -/
theorem wordFactorial_ofNat
    {n : Nat} (hn : n < 2 ^ 64) :
    wordFactorial (.ofNat n) = .ofNat (n.factorial % 2 ^ 64) := by
  have hfactorial : Nat.ascFactorial 2 (n - 1) = n.factorial := by
    cases n with
    | zero => rfl
    | succ n =>
        have h := Nat.factorial_mul_ascFactorial 1 n
        rw [Nat.factorial_one, Nat.one_mul, Nat.add_comm 1 n] at h
        exact h
  rw [wordFactorial, Ratio.toNat_toWordMod_ofNat, Nat.mod_eq_of_lt hn, Ratio.ofWord,
    toNat_mulRangeMod, UInt64.toNat_one, Nat.one_mul, hfactorial]

end Scientific
end DeskCalculator
