import DeskCalculator.Ratio.Word64

/-!
# Factorials

The exact factorial of a natural number up to a limit, and the factorial modulo
`2 ^ 64` of any word.  The latter is zero from `66!` on, which has 64 factors
two, so that the product stops as soon as it is zero.
-/

namespace DeskCalculator
namespace Scientific

/-- The largest number whose factorial is computed exactly. -/
def factorialLimit : Nat := 3000

/-- Product of `acc` and the `count` numbers from `k` on. -/
def mulRange (acc : Ratio) (k : Nat) : Nat → Ratio
  | 0 => acc
  | count + 1 => mulRange (acc.mul (.ofNat k)) (k + 1) count

/-- The factorial of a natural number. -/
def factorial (x : Ratio) : Except CalcError Ratio :=
  if x.isNegative ∨ !x.isInteger then .error (.domain .factorialNotNatural)
  else
    match x.toWord with
    | .error e => .error e
    | .ok n =>
        if factorialLimit < n.toNat then .error .overflow
        else .ok (mulRange .one 2 (n.toNat - 1))

/-- Product of `acc` and the `count` numbers from `k` on, modulo `2 ^ 64`. -/
def mulRangeMod (acc : UInt64) (k : Nat) : Nat → UInt64
  | 0 => acc
  | count + 1 =>
      if acc = 0 then 0 else mulRangeMod (acc * UInt64.ofNat k) (k + 1) count

/-- The factorial of a word, modulo `2 ^ 64`. -/
def wordFactorial (x : Ratio) : Ratio :=
  .ofWord (mulRangeMod 1 2 (x.toWordMod.toNat - 1))

end Scientific
end DeskCalculator
