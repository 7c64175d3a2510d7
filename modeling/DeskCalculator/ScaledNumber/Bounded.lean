import DeskCalculator.MachineWord
import DeskCalculator.ScaledNumber.Arithmetic

/-!
# Scaled numbers with exponents in words

The operations on scaled numbers again, with a rule for every exponent that is
computed on the way: sums, differences and opposites of exponents, and the count
of zero limbs that goes into an exponent.  With exact exponents they are the
operations of the module before; exponents of 32 bits are those of the machine.

A shift of a mantissa is a difference of exponents as a count of limbs.  A
difference that wraps below zero is no count; the opposite of an exponent that
wraps below zero is one beyond the length of every mantissa.
-/

namespace DeskCalculator
namespace ScaledNumber

variable (keep : WordRule)

/-- The canonical form, if the low zero limbs can be counted in its exponent. -/
def ofPartsBy (negative : Bool) (exponent : Int) (mantissa : Magnitude) :
    Except WordFault ScaledNumber :=
  let m := mantissa.normalize
  if m = [] then .ok zero
  else do
    let low ← keep (m.takeWhile (· = 0)).length
    let e ← keep (exponent + low)
    return {
      sign := if negative then .negative else .positive
      exponent := e
      mantissa := m.dropWhile (· = 0) }

/-- The mantissa written with an exponent not above that of the number. -/
def magnitudeAtBy (x : ScaledNumber) (exponent : Int) : Except WordFault Magnitude :=
  if x.mantissa = [] then .ok []
  else do
    let shift ← keep (x.exponent - exponent)
    if shift < 0 then .error .capacity
    else return List.replicate shift.toNat 0 ++ x.mantissa

/-- The magnitude of the integer part. -/
def integerMagnitudeBy (x : ScaledNumber) : Except WordFault Magnitude :=
  if 0 ≤ x.exponent then x.magnitudeAtBy keep 0
  else do
    let cut ← keep (-x.exponent)
    return if cut < 0 then [] else x.mantissa.drop cut.toNat

/-- Sum of two numbers. -/
def addBy (x y : ScaledNumber) : Except WordFault ScaledNumber :=
  if x.isZero then .ok y
  else if y.isZero then .ok x
  else do
    let e := min x.exponent y.exponent
    let a ← x.magnitudeAtBy keep e
    let b ← y.magnitudeAtBy keep e
    if x.sign = y.sign then ofPartsBy keep x.isNegative e (a.add b)
    else
      match a.compare b with
      | .eq => .ok zero
      | .gt => ofPartsBy keep x.isNegative e (a.sub b)
      | .lt => ofPartsBy keep y.isNegative e (b.sub a)

/-- Difference of two numbers. -/
def subBy (x y : ScaledNumber) : Except WordFault ScaledNumber := x.addBy keep y.neg

/-- Product of two numbers. -/
def mulBy (x y : ScaledNumber) : Except WordFault ScaledNumber :=
  if x.isZero ∨ y.isZero then .ok zero
  else do
    let e ← keep (x.exponent + y.exponent)
    ofPartsBy keep (x.sign ≠ y.sign) e (x.mantissa.mul y.mantissa)

/-- Quotient of the integer parts, rounded toward zero, and the remainder. -/
def divModBy (x y : ScaledNumber) : Except WordFault (ScaledNumber × ScaledNumber) := do
  let a ← x.integerMagnitudeBy keep
  let b ← y.integerMagnitudeBy keep
  if b = [] then .error .zeroDivisor
  else
    let quotient ← ofPartsBy keep (x.sign ≠ y.sign) 0 (a.divMod b).1
    let remainder ← ofPartsBy keep x.isNegative 0 (a.divMod b).2
    return (quotient, remainder)

/-- Greatest common divisor of the integer parts. -/
def gcdBy (x y : ScaledNumber) : Except WordFault ScaledNumber := do
  let a ← x.integerMagnitudeBy keep
  let b ← y.integerMagnitudeBy keep
  ofPartsBy keep false 0 (a.gcd b)

/-- Order of the values. -/
def compareBy (x y : ScaledNumber) : Except WordFault Ordering :=
  if x.sign ≠ y.sign then .ok (compareOfLessAndEq x.sign.toInt y.sign.toInt)
  else if x.isZero then .ok .eq
  else do
    let e := min x.exponent y.exponent
    let a ← x.magnitudeAtBy keep e
    let b ← y.magnitudeAtBy keep e
    return if x.isNegative then (a.compare b).swap else a.compare b

end ScaledNumber
end DeskCalculator
