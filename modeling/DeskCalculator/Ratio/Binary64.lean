import DeskCalculator.Ratio.Decimal
import DeskCalculator.Ratio.Rounding

/-!
# Ratios and binary64 numbers

**From a ratio.**  The ratio is rounded to 17 significant decimal digits, and
these to the nearest binary64 number.

**To a ratio.**  A finite number is `± m * 2 ^ q`.  This exact value is rounded
to a number of significant decimal digits, a half to the even digit, and the
rounded decimal is the ratio.
-/

namespace DeskCalculator

-- The powers of the core library, whatever else is imported.
attribute [local instance (high)] instPowNat

/-! ### Exact value of a binary64 number -/

/-- The number `± mantissa * 2 ^ exponent`. -/
structure BinaryFraction where
  negative : Bool
  mantissa : Nat
  exponent : Int
deriving DecidableEq, Repr

namespace BinaryFraction

/-- The parts of a finite binary64 number given by its bits. -/
def ofBits (bits : UInt64) : BinaryFraction :=
  let n := bits.toNat
  let fraction := n % 2 ^ (52 : Nat)
  let biased := n / 2 ^ (52 : Nat) % 2 ^ (11 : Nat)
  { negative := n / 2 ^ (63 : Nat) = 1
    mantissa := if biased = 0 then fraction else fraction + 2 ^ (52 : Nat)
    exponent := Nat.max biased 1 - 1075 }

/-- Numerator and denominator of the absolute value. -/
def terms (b : BinaryFraction) : Nat × Nat :=
  if 0 ≤ b.exponent then (b.mantissa * 2 ^ b.exponent.toNat, 1)
  else (b.mantissa, 2 ^ (-b.exponent).toNat)

/-- The exponent of the first decimal digit of `n / d`, for a value of at least `10 ^ -324`. -/
def decimalExponent (n d : Nat) : Int :=
  (Nat.toDigits 10 (n * 10 ^ (324 : Nat) / d)).length - 325

/-- The natural number nearest to `n / d`, the even one for a half. -/
def roundHalfEven (n d : Nat) : Nat :=
  let q := n / d
  let r := n % d
  if d < 2 * r ∨ (2 * r = d ∧ q % 2 = 1) then q + 1 else q

/-- The scale of the last of `count` digits, and the digits as a number. -/
def roundDecimal (b : BinaryFraction) (count : Nat) : Nat × Int :=
  let (n, d) := b.terms
  let e := decimalExponent n d
  let scale : Int := e - (count - 1)
  let digits :=
    if 0 ≤ scale then roundHalfEven n (d * 10 ^ scale.toNat)
    else roundHalfEven (n * 10 ^ (-scale).toNat) d
  if digits = 10 ^ count then (10 ^ (count - 1), scale + 1) else (digits, scale)

end BinaryFraction

namespace Ratio

/-- The ratio of a finite binary64 number rounded to `count` significant digits, at least one. -/
def ofFloatRounded (x : Float) (count : Nat) : Except CalcError Ratio :=
  if !x.isFinite then .error .overflow
  else if x == 0.0 then .ok zero
  else
    let b := BinaryFraction.ofBits x.toBits
    let (digits, scale) := b.roundDecimal (Nat.max count 1)
    if DecimalLiteral.scaleLimit < scale.natAbs then .error .overflow
    else .ok (ofMantissaScale (.ofNat digits) b.negative 10 scale)

/-- Number of decimal digits from which the binary64 number is taken. -/
def floatDigits : Nat := 17

/-- The number `digits * 10 ^ scale` as the nearest binary64 number. -/
def nearestFloat (digits : Nat) (scale : Int) : Float :=
  Float.ofScientific digits (scale < 0) scale.natAbs

/-- The binary64 number nearest to the ratio rounded to 17 digits. -/
def toFloat (r : Ratio) : Float :=
  match r.significand? 10 floatDigits with
  | none => 0.0
  | some s =>
      let digits := (Magnitude.ofDigits? s.digits 10).getD []
      let x := nearestFloat digits.toNat (s.exponent - (s.digits.length - 1))
      if r.isNegative then -x else x

end Ratio
end DeskCalculator
