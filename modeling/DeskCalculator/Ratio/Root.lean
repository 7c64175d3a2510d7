import DeskCalculator.Ratio.Basic
import DeskCalculator.ScaledNumber.Root

/-!
# Roots of ratios

A root is exact if both terms are powers of the order; a root of odd order
keeps the sign of a negative ratio.  Otherwise it is truncated at a number of
decimal places.
-/

namespace DeskCalculator
namespace Ratio

/-- Decimal places of a root that is not exact. -/
def rootPlaces : Nat := 40

/-- The root of order `k`, if it is a ratio. -/
def exactRoot? (r : Ratio) (k : Nat) : Option Ratio :=
  if r.isZero then some zero
  else if r.isNegative ∧ k % 2 = 0 then none
  else do
    let n ← r.num.abs.exactRoot? k
    let d ← r.den.exactRoot? k
    (make (if r.isNegative then n.neg else n) d).toOption

/--
The root of order `k`, truncated toward zero at `places` decimal places.  The
decimal places of the power below the root are a word for `places * k < 2 ^ 64`,
those of the root a signed one for `places < 2 ^ 63`; beyond, the power of ten has
too many limbs for any memory.
-/
def truncatedRoot (r : Ratio) (k places : Nat) : Ratio :=
  let target := (r.num.abs * .radixPow 10 (places * k)).quot r.den
  ofMantissaScale (target.rootFloor k) r.isNegative 10 (-places)

/-- The root of order `k`: exact if it can be, else truncated. -/
def root (r : Ratio) (k : Nat) : Except CalcError Ratio :=
  if k = 0 then .error (.domain .rootOrderZero)
  else if r.isNegative ∧ k % 2 = 0 then .error (.domain .evenRootOfNegative)
  else .ok ((r.exactRoot? k).getD (r.truncatedRoot k rootPlaces))

end Ratio
end DeskCalculator
