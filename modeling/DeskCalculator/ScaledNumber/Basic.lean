import DeskCalculator.Magnitude.Digits

/-!
# Scaled numbers

A scaled number is a sign, a mantissa and an exponent, and stands for
`sign * mantissa * (2 ^ 32) ^ exponent`.  In canonical form the mantissa has no
zero limb at either end and zero is written with an empty mantissa and exponent
zero, so that equal values are equal structures.  `ofParts` makes the canonical
form of any parts.

**Exponents.**  They are exact integers here.  The machine has words of 32 bits
for them, which integers of at most `2 ^ 33` bits do not fill; `addBy`, `mulBy`
and their likes are the operations with a rule for exponents in words.
-/

namespace DeskCalculator

/-- The sign of a number. -/
inductive Sign where
  | negative
  | zero
  | positive
deriving DecidableEq, Repr, Inhabited

namespace Sign

/-- The sign as a factor. -/
def toInt : Sign → Int
  | negative => -1
  | zero => 0
  | positive => 1

/-- The sign of the opposite number. -/
def neg : Sign → Sign
  | negative => positive
  | zero => zero
  | positive => negative

end Sign

/-- The number `sign * mantissa * (2 ^ 32) ^ exponent`. -/
structure ScaledNumber where
  sign : Sign
  exponent : Int
  mantissa : Magnitude
deriving DecidableEq, Repr, Inhabited

namespace ScaledNumber

/-- The canonical zero. -/
def zero : ScaledNumber := ⟨.zero, 0, []⟩

/-- Zero in its one form, or a mantissa that is not zero at either end. -/
def Canonical (x : ScaledNumber) : Prop :=
  x = zero ∨
    (x.sign ≠ .zero ∧ x.mantissa ≠ [] ∧
      x.mantissa.head? ≠ some 0 ∧ x.mantissa.getLast? ≠ some 0)

/-- The canonical form of `mantissa * (2 ^ 32) ^ exponent` with the given sign. -/
def ofParts (negative : Bool) (exponent : Int) (mantissa : Magnitude) : ScaledNumber :=
  let m := mantissa.normalize
  if m = [] then zero
  else
    let low := m.takeWhile (· = 0)
    { sign := if negative then .negative else .positive
      exponent := exponent + low.length
      mantissa := m.dropWhile (· = 0) }

/-- The canonical form of a natural number. -/
def ofNat (n : Nat) : ScaledNumber :=
  ofParts false 0 (Magnitude.ofNat n)

/-- The canonical form of an integer. -/
def ofInt (n : Int) : ScaledNumber :=
  ofParts (n < 0) 0 (Magnitude.ofNat n.natAbs)

/-- One. -/
def one : ScaledNumber := ofNat 1

/-- The natural number with the given digits. -/
def ofDigits? (digits : List Char) (radix : Nat) : Option ScaledNumber :=
  (Magnitude.ofDigits? digits radix).map (ofParts false 0)

/-! ### Changing one part -/

/-- Gives a number that is not zero the sign `s`; the zero sign changes nothing. -/
def withSign (x : ScaledNumber) (s : Sign) : ScaledNumber :=
  if x.mantissa = [] ∨ s = .zero then x else { x with sign := s }

/-- Gives a number that is not zero another exponent. -/
def withExponent (x : ScaledNumber) (exponent : Int) : ScaledNumber :=
  if x.mantissa = [] then x else { x with exponent := exponent }

/-- Keeps sign and exponent and takes another mantissa, in canonical form. -/
def withMantissa (x : ScaledNumber) (mantissa : Magnitude) : ScaledNumber :=
  ofParts (x.sign = .negative) x.exponent mantissa

/-! ### Predicates and parts -/

/-- Whether the number is zero. -/
def isZero (x : ScaledNumber) : Bool := x.sign = .zero

/-- Whether the number is below zero. -/
def isNegative (x : ScaledNumber) : Bool := x.sign = .negative

/-- Whether the number is one. -/
def isOne (x : ScaledNumber) : Bool :=
  x.sign = .positive ∧ x.exponent = 0 ∧ x.mantissa = [1]

/-- Whether a canonical number is an integer. -/
def isInteger (x : ScaledNumber) : Bool := 0 ≤ x.exponent

/-- The opposite number. -/
def neg (x : ScaledNumber) : ScaledNumber := { x with sign := x.sign.neg }

/-- The absolute value. -/
def abs (x : ScaledNumber) : ScaledNumber :=
  if x.isNegative then { x with sign := .positive } else x

/-- The mantissa written with an exponent not above that of the number. -/
def magnitudeAt (x : ScaledNumber) (exponent : Int) : Magnitude :=
  if x.mantissa = [] then []
  else List.replicate (x.exponent - exponent).toNat 0 ++ x.mantissa

/-- The magnitude of the integer part. -/
def integerMagnitude (x : ScaledNumber) : Magnitude :=
  if 0 ≤ x.exponent then x.magnitudeAt 0 else x.mantissa.drop (-x.exponent).toNat

/-- Number of bits of the integer part. -/
def bitLength (x : ScaledNumber) : Nat :=
  x.integerMagnitude.bitLength

/-- The digits of the integer part, without the sign. -/
def toDigits (x : ScaledNumber) (radix : Nat) : List Char :=
  x.integerMagnitude.toDigits radix

instance : Neg ScaledNumber := ⟨neg⟩

end ScaledNumber
end DeskCalculator
