import DeskCalculator.Ratio.Root
import DeskCalculator.Ratio.Word64

/-!
# Powers of ratios

A power with an integer exponent is exact: powers of terms without a common
divisor have none either.  It is refused if an estimate of its size is beyond
the limit.  `x ^ 0` is one for every `x`.
-/

namespace DeskCalculator
namespace Ratio

variable (log2 : Float → Float)

/-- Whether the estimated number of bits of `x ^ n` is beyond the limit. -/
def powerTooLarge (x : ScaledNumber) (n : Nat) : Bool :=
  Float.ofNat (bitLimit + 1) < x.log2Estimate log2 * Float.ofNat n

/-- The `n`-th power. -/
def intPow (r : Ratio) (n : Int) : Except CalcError Ratio :=
  if n = 0 then .ok one
  else if r.isZero then if n < 0 then .error .divisionByZero else .ok zero
  else do
    let base ← if n < 0 then r.inv else .ok r
    if powerTooLarge log2 (base.num.abs.max base.den) n.natAbs then .error .overflow
    else .ok ⟨base.num.pow n.natAbs, base.den.pow n.natAbs⟩

/-- The power of two words, modulo `2 ^ 64`. -/
def wordPow (x y : Ratio) : Ratio :=
  ofWord (mulPow (· * ·) 1 x.toWordMod y.toWordMod.toNat)

end Ratio
end DeskCalculator
