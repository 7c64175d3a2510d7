import DeskCalculator.RealFunctions
import DeskCalculator.Ratio.Binary64
import DeskCalculator.Ratio.Power

/-!
# Functions that leave the rational numbers

Where a result is known exactly it is given exactly: sines, cosines and
tangents of whole quarter turns, logarithms of one and of powers of ten,
`exp 0`, and integer powers of ten of moderate size.  Elsewhere the argument is
turned into a binary64 number, the function is evaluated there, and the result
is rounded to 15 significant decimal digits.
-/

namespace DeskCalculator
namespace Scientific

/-- Significant digits kept of a binary64 result. -/
def keptDigits : Nat := 15

/-- The ratio of a binary64 result. -/
def ofFloat (x : Float) : Except CalcError Ratio := Ratio.ofFloatRounded x keptDigits

/-! ### Angles -/

/-- The constant π. -/
def pi : Float := 3.141592653589793

/-- A quarter turn, in units where it is a ratio. -/
def quarterTurn? : AngleUnit → Option Ratio
  | .degrees => some (.ofInt 90)
  | .gradians => some (.ofInt 100)
  | .radians => none

/-- An angle in radians. -/
def toRadians (x : Float) : AngleUnit → Float
  | .degrees => x * (pi / 180.0)
  | .gradians => x * pi / 200.0
  | .radians => x

/-- An angle given in radians, in another unit. -/
def ofRadians (x : Float) : AngleUnit → Float
  | .degrees => x * (180.0 / pi)
  | .gradians => x * 200.0 / pi
  | .radians => x

/-- Number of quarter turns modulo four, if the angle is a whole number of them. -/
def quarterTurns? (x : Ratio) (u : AngleUnit) : Option UInt64 :=
  if x.isZero then some 0
  else do
    let quarter ← quarterTurn? u
    let turns ← (x.div quarter).toOption
    if turns.isInteger then
      let rest ← (turns.mod (.ofInt 4)).toOption
      rest.toWord.toOption
    else none

/-- Sine. -/
def sin (F : RealFunctions) (x : Ratio) (u : AngleUnit) : Except CalcError Ratio :=
  match quarterTurns? x u with
  | some k => .ok (if k = 1 then .one else if k = 0 ∨ k = 2 then .zero else .ofInt (-1))
  | none => ofFloat (F.sin (toRadians x.toFloat u))

/-- Cosine. -/
def cos (F : RealFunctions) (x : Ratio) (u : AngleUnit) : Except CalcError Ratio :=
  match quarterTurns? x u with
  | some k => .ok (if k = 0 then .one else if k = 1 ∨ k = 3 then .zero else .ofInt (-1))
  | none => ofFloat (F.cos (toRadians x.toFloat u))

/-- Tangent, not defined at odd numbers of quarter turns. -/
def tan (F : RealFunctions) (x : Ratio) (u : AngleUnit) : Except CalcError Ratio :=
  match quarterTurns? x u with
  | some k => if k = 0 ∨ k = 2 then .ok .zero else .error (.domain .tangentUndefined)
  | none => ofFloat (F.tan (toRadians x.toFloat u))

/-- Whether a binary64 number lies between minus one and one. -/
def inUnitInterval (x : Float) : Bool := -1.0 ≤ x && x ≤ 1.0

/-- Inverse sine. -/
def arcSin (F : RealFunctions) (x : Ratio) (u : AngleUnit) : Except CalcError Ratio :=
  if inUnitInterval x.toFloat then ofFloat (ofRadians (F.asin x.toFloat) u)
  else .error (.domain .outsideUnitInterval)

/-- Inverse cosine. -/
def arcCos (F : RealFunctions) (x : Ratio) (u : AngleUnit) : Except CalcError Ratio :=
  if inUnitInterval x.toFloat then ofFloat (ofRadians (F.acos x.toFloat) u)
  else .error (.domain .outsideUnitInterval)

/-- Inverse tangent. -/
def arcTan (F : RealFunctions) (x : Ratio) (u : AngleUnit) : Except CalcError Ratio :=
  ofFloat (ofRadians (F.atan x.toFloat) u)

/-! ### Hyperbolic functions -/

/-- Hyperbolic sine. -/
def sinh (F : RealFunctions) (x : Ratio) : Except CalcError Ratio := ofFloat (F.sinh x.toFloat)

/-- Hyperbolic cosine. -/
def cosh (F : RealFunctions) (x : Ratio) : Except CalcError Ratio := ofFloat (F.cosh x.toFloat)

/-- Hyperbolic tangent. -/
def tanh (F : RealFunctions) (x : Ratio) : Except CalcError Ratio := ofFloat (F.tanh x.toFloat)

/-- Inverse hyperbolic sine. -/
def areaSinh (F : RealFunctions) (x : Ratio) : Except CalcError Ratio :=
  ofFloat (F.asinh x.toFloat)

/-- Inverse hyperbolic cosine. -/
def areaCosh (F : RealFunctions) (x : Ratio) : Except CalcError Ratio :=
  if x.toFloat < 1.0 then .error (.domain .acoshBelowOne) else ofFloat (F.acosh x.toFloat)

/-- Inverse hyperbolic tangent. -/
def areaTanh (F : RealFunctions) (x : Ratio) : Except CalcError Ratio :=
  if 1.0 ≤ x.toFloat.abs then .error (.domain .atanhOutsideInterval)
  else ofFloat (F.atanh x.toFloat)

/-! ### Logarithms and exponentials -/

/-- Number of zeros in a digit string that is a one followed by zeros. -/
def zerosAfterOne? : List Char → Option Nat
  | '1' :: rest => if rest.all (· = '0') then some rest.length else none
  | _ => none

/-- The integer `k`, if the ratio is `10 ^ k`. -/
def exactLog10? (x : Ratio) : Option Int :=
  if x.isNegative ∨ x.isZero then none
  else do
    let n ← zerosAfterOne? (x.num.toDigits 10)
    let d ← zerosAfterOne? (x.den.toDigits 10)
    return (n : Int) - d

/-- Natural logarithm. -/
def ln (F : RealFunctions) (x : Ratio) : Except CalcError Ratio :=
  if x.isNegative ∨ x.isZero then .error (.domain .logarithmNotPositive)
  else if x.isOne then .ok .zero
  else ofFloat (F.ln x.toFloat)

/-- Decimal logarithm. -/
def log10 (F : RealFunctions) (x : Ratio) : Except CalcError Ratio :=
  if x.isNegative ∨ x.isZero then .error (.domain .logarithmNotPositive)
  else
    match exactLog10? x with
    | some k => .ok (.ofInt k)
    | none => ofFloat (F.log10 x.toFloat)

/-- Exponential. -/
def exp (F : RealFunctions) (x : Ratio) : Except CalcError Ratio :=
  if x.isZero then .ok .one else ofFloat (F.exp x.toFloat)

/-- The largest exponent, up or down, of an exact power of ten. -/
def tenPowLimit : Nat := 10000

/-- Ten to the power of an integer within the limit. -/
def tenPowExponent? (x : Ratio) : Option Int :=
  if x.isInteger then
    match x.abs.toWord with
    | .ok n =>
        if n.toNat ≤ tenPowLimit then some (if x.isNegative then -n.toNat else n.toNat) else none
    | .error _ => none
  else none

/-- Ten to the power of `x`. -/
def tenPow (F : RealFunctions) (x : Ratio) : Except CalcError Ratio :=
  match tenPowExponent? x with
  | some k => (Ratio.ofInt 10).intPow F.log2 k
  | none => ofFloat (F.pow 10.0 x.toFloat)

end Scientific
end DeskCalculator
