import DeskCalculator.ScaledNumber.Basic

/-!
# Arithmetic of scaled numbers

Sums and comparisons bring both operands to the lower of the two exponents;
products add exponents.  Division and greatest common divisor are those of the
integer parts.  Every result is canonical.
-/

namespace DeskCalculator
namespace ScaledNumber

/-- Sum of two numbers. -/
def add (x y : ScaledNumber) : ScaledNumber :=
  if x.isZero then y
  else if y.isZero then x
  else
    let e := min x.exponent y.exponent
    let a := x.magnitudeAt e
    let b := y.magnitudeAt e
    if x.sign = y.sign then ofParts x.isNegative e (a.add b)
    else
      match a.compare b with
      | .eq => zero
      | .gt => ofParts x.isNegative e (a.sub b)
      | .lt => ofParts y.isNegative e (b.sub a)

/-- Difference of two numbers. -/
def sub (x y : ScaledNumber) : ScaledNumber := x.add y.neg

/-- Product of two numbers. -/
def mul (x y : ScaledNumber) : ScaledNumber :=
  if x.isZero ∨ y.isZero then zero
  else ofParts (x.sign ≠ y.sign) (x.exponent + y.exponent) (x.mantissa.mul y.mantissa)

instance : Add ScaledNumber := ⟨add⟩
instance : Sub ScaledNumber := ⟨sub⟩
instance : Mul ScaledNumber := ⟨mul⟩

/--
Quotient of the integer parts, rounded toward zero, and the remainder, which
has the sign of the dividend.
-/
def divMod (x y : ScaledNumber) : ScaledNumber × ScaledNumber :=
  let (q, r) := x.integerMagnitude.divMod y.integerMagnitude
  (ofParts (x.sign ≠ y.sign) 0 q, ofParts x.isNegative 0 r)

/-- Quotient and remainder, for a divisor with an integer part that is not zero. -/
def divMod? (x y : ScaledNumber) : Option (ScaledNumber × ScaledNumber) :=
  if y.integerMagnitude = [] then none else some (x.divMod y)

/-- Quotient of the integer parts, rounded toward zero. -/
def quot (x y : ScaledNumber) : ScaledNumber := (x.divMod y).1

/-- Greatest common divisor of the integer parts. -/
def gcd (x y : ScaledNumber) : ScaledNumber :=
  ofParts false 0 (x.integerMagnitude.gcd y.integerMagnitude)

/-- Order of the values. -/
def compare (x y : ScaledNumber) : Ordering :=
  if x.sign ≠ y.sign then compareOfLessAndEq x.sign.toInt y.sign.toInt
  else if x.isZero then .eq
  else
    let e := min x.exponent y.exponent
    let o := (x.magnitudeAt e).compare (y.magnitudeAt e)
    if x.isNegative then o.swap else o

/-- Whether the first number is at least the second. -/
def atLeast (x y : ScaledNumber) : Bool := x.compare y ≠ .lt

/-- The larger of two numbers, the second if they are equal. -/
def max (x y : ScaledNumber) : ScaledNumber :=
  if x.compare y = .gt then x else y

/-- The `n`-th power of a small radix. -/
def radixPow (radix n : Nat) : ScaledNumber :=
  ofParts false 0 (Magnitude.radixPow radix n)

/-- The `n`-th power of a number. -/
def pow (x : ScaledNumber) (n : Nat) : ScaledNumber := mulPow mul one x n

end ScaledNumber
end DeskCalculator
