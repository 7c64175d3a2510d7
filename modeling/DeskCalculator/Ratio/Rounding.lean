import DeskCalculator.MachineWord
import DeskCalculator.Ratio.Basic

/-!
# Significant digits of a ratio

The digits of a ratio that is not zero, rounded to a given number of them, a
half away from zero, with the exponent of the first digit.

**Exponent.**  The exponent is the largest `e` with `radix ^ e` not above the
absolute value.  The search starts from an estimate and compares exactly: it
goes down until the power is not above, then up as long as the next power is
not above.  Bounds taken from the sizes of the terms make both loops finite
whatever the estimate is; the estimate decides only how long they take.

**Digits.**  The ratio is scaled so that the wanted digits stand before the
point and divided.  If rounding up reaches the next power of the radix, the
exponent grows by one.

**Words.**  The machine reads the number of digits as a signed word of 64 bits
and computes the scale in such words.  The operations with a rule for them are
the others as long as the numbers fit.
-/

namespace DeskCalculator
namespace Ratio

/-- Whether `radix ^ e` is not above `n / d`, both above zero. -/
def powerAtMost (n d : ScaledNumber) (radix : Nat) (e : Int) : Bool :=
  if 0 ≤ e then n.atLeast (d * .radixPow radix e.toNat)
  else (n * .radixPow radix (-e).toNat).atLeast d

/-- A power of two that is not above `n / d`. -/
def lowestExponent (n d : ScaledNumber) : Int :=
  min 0 (32 * (n.exponent - d.exponent - d.mantissa.length))

/-- A power of two that is above `n / d`. -/
def highestExponent (n d : ScaledNumber) : Int :=
  max 0 (32 * (n.exponent + n.mantissa.length - d.exponent))

/-- The first exponent from `e` down whose power is not above `n / d`. -/
def descendExponent (n d : ScaledNumber) (radix : Nat) (e : Int) : Int :=
  if _h : lowestExponent n d < e then
    if powerAtMost n d radix e then e else descendExponent n d radix (e - 1)
  else e
termination_by (e - lowestExponent n d).toNat
decreasing_by omega

/-- The last exponent from `e` up to which the powers stay not above `n / d`. -/
def ascendExponent (n d : ScaledNumber) (radix : Nat) (e : Int) : Int :=
  if _h : e < highestExponent n d then
    if powerAtMost n d radix (e + 1) then ascendExponent n d radix (e + 1) else e
  else e
termination_by (highestExponent n d - e).toNat
decreasing_by omega

/-- The exponent of the first digit of `n / d`, searched from `start`. -/
def leadingExponent (n d : ScaledNumber) (radix : Nat) (start : Int) : Int :=
  ascendExponent n d radix (descendExponent n d radix start)

/-- Estimate of the exponent of the first digit, from the sizes of the terms. -/
def estimateExponent (n d : ScaledNumber) (radix : Nat) : Int :=
  let gap := Float.ofInt (n.bitLength - d.bitLength)
  (gap / (Float.ofNat radix).log2).floor.toInt64.toInt

/-- Significant digits with the exponent of the first of them. -/
structure Significand where
  digits : List Char
  exponent : Int
deriving DecidableEq, Repr

/-- The terms of `n / d * radix ^ k`. -/
def scaleTerms (n d : ScaledNumber) (radix : Nat) (k : Int) : ScaledNumber × ScaledNumber :=
  let power := ScaledNumber.radixPow radix k.natAbs
  if 0 ≤ k then (n * power, d) else (n, d * power)

/-- The integer nearest to `n / d`, the one further from zero for a half. -/
def roundQuotient (n d : ScaledNumber) : ScaledNumber :=
  let (q, r) := n.divMod d
  if (r + r).atLeast d then q + .one else q

/--
Rounds `n / d * radix ^ k` to an integer and cuts its digits to `precision`; the
first digit of `n / d` has the exponent `e`.
-/
def roundScaled (n d : ScaledNumber) (radix precision : Nat) (k e : Int) : Significand :=
  let (n', d') := scaleTerms n d radix k
  let digits := (roundQuotient n' d').toDigits radix
  if precision < digits.length then ⟨digits.take precision, e + 1⟩ else ⟨digits, e⟩

/-- Rounds `n / d`, whose first digit has the exponent `e`, to `precision` digits. -/
def roundAt (n d : ScaledNumber) (radix precision : Nat) (e : Int) : Significand :=
  roundScaled n d radix precision (precision - 1 - e) e

/-- The significand, the search for its exponent starting from `start`. -/
def significandFrom (r : Ratio) (radix precision : Nat) (start : Int) : Option Significand :=
  if r.isZero then none
  else
    let n := r.num.abs
    let d := r.den.abs
    some (roundAt n d radix (Nat.max precision 1) (leadingExponent n d radix start))

/-- The digits of a ratio rounded to `precision` of them, at least one; none for zero. -/
def significand? (r : Ratio) (radix precision : Nat) : Option Significand :=
  r.significandFrom radix precision (estimateExponent r.num.abs r.den.abs radix)

/-! ### Scales in words -/

section

variable (keep : WordRule)

/--
The scale for `precision` digits from the exponent `e` on.  The precision is
read as a signed word; below zero the opposite of the scale is computed as well.
-/
def scaleBy (precision : Nat) (e : Int) : Except WordFault Int := do
  let last ← keep (signedWord 64 precision - 1)
  let k ← keep (last - e)
  if k < 0 then
    let _ ← keep (-k)
  return k

/-- Rounds `n / d`, whose first digit has the exponent `e`, to `precision` digits. -/
def roundAtBy (n d : ScaledNumber) (radix precision : Nat) (e : Int) :
    Except WordFault Significand := do
  return roundScaled n d radix precision (← scaleBy keep precision e) e

/-- The significand, the search for its exponent starting from `start`. -/
def significandFromBy (r : Ratio) (radix precision : Nat) (start : Int) :
    Except WordFault (Option Significand) :=
  if r.isZero then .ok none
  else do
    let n := r.num.abs
    let d := r.den.abs
    let e := leadingExponent n d radix start
    return some (← roundAtBy keep n d radix (Nat.max precision 1) e)

/-- The digits of a ratio rounded to `precision` of them, at least one; none for zero. -/
def significandBy (r : Ratio) (radix precision : Nat) : Except WordFault (Option Significand) :=
  r.significandFromBy keep radix precision (estimateExponent r.num.abs r.den.abs radix)

end

end Ratio
end DeskCalculator
