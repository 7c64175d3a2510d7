import DeskCalculator.Numeral.Validity
import DeskCalculator.Ratio.Basic

/-!
# Decimal literals

A literal is a sign, digits with at most one point, and an exponent of ten
after the mark `e` or `E`.  Blanks around it do not count.  It is read exactly:
its value is `± digits * 10 ^ scale`, where the scale is the exponent less the
number of digits after the point.

A literal whose exponent does not fit in 64 bits, or whose scale is beyond
`scaleLimit`, has no value.
-/

namespace DeskCalculator

-- The powers of the core library, whatever else is imported.
attribute [local instance (high)] instPowNat

/-- The parts of a decimal literal, before its digits are looked at. -/
structure DecimalLiteral where
  negative : Bool
  whole : List Char
  fraction : List Char
  exponent : Int
deriving DecidableEq, Repr

/-- A signed decimal integer that fits in 64 bits. -/
def signedWord? (cs : List Char) : Option Int :=
  let digits := Numeral.dropSign ['+', '-'] cs
  match decimalNat? digits with
  | none => none
  | some n =>
      let value : Int := if cs.head? = some '-' then -n else n
      if -(2 ^ (63 : Nat)) ≤ value ∧ value < 2 ^ (63 : Nat) then some value else none

namespace DecimalLiteral

/-- The largest scale, up or down, that is read. -/
def scaleLimit : Nat := 100000

/-- Takes a text apart; the exponent is zero if there is no mark. -/
def ofChars? (text : List Char) : Option DecimalLiteral :=
  let trimmed := trimBlanks text
  let negative := trimmed.head? = some '-'
  let unsigned := Numeral.dropSign ['+', '-'] trimmed
  let (mantissa, exponent?) :=
    match splitFirst? Numeral.isExponentMark unsigned with
    | none => (unsigned, some 0)
    | some (mantissa, exponent) => (mantissa, signedWord? exponent)
  let (whole, fraction) := (splitFirst? (· = '.') mantissa).getD (mantissa, [])
  exponent?.map fun exponent => { negative, whole, fraction, exponent }

/-- The digits before and after the point. -/
def digits (l : DecimalLiteral) : List Char := l.whole ++ l.fraction

/-- The power of ten by which the digits are to be multiplied. -/
def scale (l : DecimalLiteral) : Int := l.exponent - l.fraction.length

/-- The value, if there are digits, nothing but digits, and the scale is within bounds. -/
def value? (l : DecimalLiteral) : Option Ratio :=
  if l.digits = [] then none
  else
    match ScaledNumber.ofDigits? l.digits 10 with
    | none => none
    | some mantissa =>
        if scaleLimit < l.scale.natAbs then none
        else some (.ofMantissaScale mantissa l.negative 10 l.scale)

end DecimalLiteral

namespace Ratio

/-- The value of a decimal literal. -/
def ofDecimal? (text : List Char) : Option Ratio :=
  (DecimalLiteral.ofChars? text).bind DecimalLiteral.value?

end Ratio
end DeskCalculator
