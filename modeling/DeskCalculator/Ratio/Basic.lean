import DeskCalculator.CalcError
import DeskCalculator.ScaledNumber.Arithmetic

/-!
# Ratios: exact rational numbers

A ratio is a pair of scaled numbers with a denominator that is not zero.  It is
in lowest terms when both are integers, the denominator is above zero, they
have no common divisor, and zero is written `0 / 1`.

**Lowest terms.**  `simplify` makes both terms integers by raising their
exponents together, divides them by their greatest common divisor and moves the
sign to the numerator.  Sums, differences, products and quotients simplify
their result, whatever pairs they start from.

**Conventions.**  The modulus is `a - b * ⌊a / b⌋`, with the sign of the
divisor, and the truncation of a ratio is that of the quotient of the integer
parts of its terms.
-/

namespace DeskCalculator

-- The powers of the core library, whatever else is imported.
attribute [local instance (high)] instPowNat

/-- The quotient of two scaled numbers. -/
structure Ratio where
  num : ScaledNumber
  den : ScaledNumber
deriving DecidableEq, Repr, Inhabited

namespace Ratio

/-- A scaled number as a ratio. -/
def ofScaled (n : ScaledNumber) : Ratio := ⟨n, .one⟩

/-- A natural number as a ratio. -/
def ofNat (n : Nat) : Ratio := ofScaled (.ofNat n)

/-- An integer as a ratio. -/
def ofInt (n : Int) : Ratio := ofScaled (.ofInt n)

/-- Zero. -/
def zero : Ratio := ofScaled .zero

/-- One. -/
def one : Ratio := ofScaled .one

/-! ### Predicates -/

/-- Whether the ratio is zero. -/
def isZero (r : Ratio) : Bool := r.num.isZero

/-- Whether the ratio is below zero. -/
def isNegative (r : Ratio) : Bool :=
  r.num.isNegative ≠ r.den.isNegative ∧ ¬r.num.isZero

/-- The sign as a factor. -/
def sign (r : Ratio) : Int := r.num.sign.toInt * r.den.sign.toInt

/-- Whether the denominator is one, up to its sign. -/
def isInteger (r : Ratio) : Bool := r.den.abs.isOne

/-- Number of bits of the larger of the two terms. -/
def bitLength (r : Ratio) : Nat := Nat.max r.num.bitLength r.den.bitLength

/-! ### Lowest terms -/

/-- The terms with exponents raised together until none is below zero. -/
def clearExponents (r : Ratio) : Ratio :=
  let k := max (max (-r.num.exponent) (-r.den.exponent)) 0
  if 0 < k then
    ⟨.ofParts r.num.isNegative (r.num.exponent + k) r.num.mantissa,
      .ofParts r.den.isNegative (r.den.exponent + k) r.den.mantissa⟩
  else r

/-- The same ratio in lowest terms. -/
def simplify (r : Ratio) : Ratio :=
  if r.num.isZero then zero
  else
    let c := r.clearExponents
    let g := c.num.gcd c.den
    let d := if g.isOne then c else ⟨c.num.quot g, c.den.quot g⟩
    if d.den.isNegative then ⟨d.num.neg, d.den.neg⟩ else d

/-- The ratio of two numbers in lowest terms. -/
def make (num den : ScaledNumber) : Except CalcError Ratio :=
  if den.isZero then .error .divisionByZero else .ok (simplify ⟨num, den⟩)

/-! ### Arithmetic -/

/-- The opposite ratio. -/
def neg (r : Ratio) : Ratio := ⟨r.num.neg, r.den⟩

/-- The absolute value. -/
def abs (r : Ratio) : Ratio := if r.isNegative then r.neg else r

/-- Sum; terms over one denominator are added as they are. -/
def add (a b : Ratio) : Ratio :=
  if a.den = b.den then simplify ⟨a.num + b.num, a.den⟩
  else simplify ⟨a.num * b.den + b.num * a.den, a.den * b.den⟩

/-- Difference. -/
def sub (a b : Ratio) : Ratio := a.add b.neg

/-- Product. -/
def mul (a b : Ratio) : Ratio := simplify ⟨a.num * b.num, a.den * b.den⟩

/-- Quotient. -/
def div (a b : Ratio) : Except CalcError Ratio :=
  if b.isZero then .error .divisionByZero
  else .ok (simplify ⟨a.num * b.den, a.den * b.num⟩)

/-- The reciprocal. -/
def inv (r : Ratio) : Except CalcError Ratio := one.div r

instance : Neg Ratio := ⟨neg⟩
instance : Add Ratio := ⟨add⟩
instance : Sub Ratio := ⟨sub⟩
instance : Mul Ratio := ⟨mul⟩

/-- Rounded toward zero. -/
def truncate (r : Ratio) : Ratio :=
  if r.isInteger then r else ofScaled (r.num.quot r.den)

/-- Rounded toward zero, where the denominator has an integer part to divide by. -/
def truncate? (r : Ratio) : Option Ratio :=
  if r.isInteger then some r
  else (r.num.divMod? r.den).map fun (q, _) => ofScaled q

/-- Rounded down. -/
def floor (r : Ratio) : Ratio :=
  if r.isInteger then r
  else if r.isNegative then r.truncate - one
  else r.truncate

/-- What is left of `a` when the largest integer multiple of `b` is taken away. -/
def mod (a b : Ratio) : Except CalcError Ratio := do
  let q ← a.div b
  return a - b * q.floor

/-! ### Order -/

/-- The same ratio with a denominator above zero. -/
def withPositiveDen (r : Ratio) : Ratio :=
  if r.den.isNegative then ⟨r.num.neg, r.den.neg⟩ else r

/-- Order of the values. -/
def compare (a b : Ratio) : Ordering :=
  let a := a.withPositiveDen
  let b := b.withPositiveDen
  (a.num * b.den).compare (b.num * a.den)

/-- Whether two ratios have the same value. -/
def same (a b : Ratio) : Bool := a.compare b = .eq

/-- Whether the ratio is one. -/
def isOne (r : Ratio) : Bool := r.same one

/-! ### Size -/

/-- The largest number of bits that a term may have. -/
def bitLimit : Nat := 2 ^ (18 : Nat)

/-- Refuses a ratio with a term above the limit. -/
def checkSize (r : Ratio) : Except CalcError Ratio :=
  if bitLimit < r.bitLength then .error .overflow else .ok r

/-- The number `± mantissa * radix ^ scale`. -/
def ofMantissaScale (mantissa : ScaledNumber) (negative : Bool) (radix : Nat)
    (scale : Int) : Ratio :=
  let signed := if negative then mantissa.neg else mantissa
  let power := ScaledNumber.radixPow radix scale.natAbs
  if 0 ≤ scale then ofScaled (signed * power) else simplify ⟨signed, power⟩

end Ratio
end DeskCalculator
