import DeskCalculator.Numeral.Validity
import DeskCalculator.Ratio.Basic

/-!
# Typing a number

An entry is a number typed key by key: digits with perhaps a point among them,
a sign, and perhaps an exponent with its own digits and sign.  Keys go to the
exponent as soon as it is open.

Every key either changes the entry or is refused, and a refused key leaves the
entry as it was; `Option` tells the two apart.  On words a digit or sign is
refused if the number typed would exceed the largest word.
-/

namespace DeskCalculator

/-- The exponent of an entry. -/
structure EntryExponent where
  digits : List Char := []
  negative : Bool := false
deriving DecidableEq, Repr

/-- A number as far as it has been typed. -/
structure Entry where
  digits : List Char := []
  /-- Number of digits before the point. -/
  point : Option Nat := none
  negative : Bool := false
  exponent : Option EntryExponent := none
deriving DecidableEq, Repr

/-- What the calculator's modes demand of an entry. -/
structure EntryRules where
  radix : Nat
  onWords : Bool
  /-- The digits of the largest word. -/
  maxWord : List Char
  maxDigits : Nat
deriving Repr

namespace Entry

/-- Number of digits that an exponent may have. -/
def maxExponentDigits : Nat := 4

/-- Whether nothing has been typed but perhaps a sign. -/
def isEmpty (e : Entry) : Bool := e.digits.isEmpty && e.exponent.isNone

/-- Whether one digit string, without leading zeros, is at most another in value. -/
def digitsAtMost (a b : List Char) : Bool :=
  a.length < b.length || (a.length = b.length && !decide (b < a))

/-- Whether the digits typed fit in a word. -/
def fitsWord (rules : EntryRules) (digits : List Char) : Bool :=
  digitsAtMost (digits.dropWhile (· = '0')) rules.maxWord

/-- Number of digits that a mantissa may have. -/
def digitLimit (rules : EntryRules) : Nat :=
  if rules.onWords then min rules.maxDigits rules.maxWord.length else rules.maxDigits

/-- Whether the digits typed are a single zero that the next digit replaces. -/
def isLoneZero (e : Entry) : Bool := e.digits = ['0'] && e.point.isNone

/-- A digit for the mantissa. -/
def typeMantissaDigit? (rules : EntryRules) (c : Char) (e : Entry) : Option Entry :=
  if !e.isLoneZero && digitLimit rules ≤ e.digits.length then none
  else
    let digits := (if e.isLoneZero then [] else e.digits) ++ [c]
    if rules.onWords && !fitsWord rules digits then none else some { e with digits := digits }

/-- A digit for the exponent. -/
def typeExponentDigit? (c : Char) (x : EntryExponent) : Option EntryExponent :=
  if maxExponentDigits ≤ x.digits.length then none
  else some { x with digits := (if x.digits = ['0'] then [] else x.digits) ++ [c] }

/-- A digit key. -/
def typeDigit? (rules : EntryRules) (d : Nat) (e : Entry) : Option Entry :=
  if rules.radix ≤ d then none
  else
    match e.exponent with
    | some x => (typeExponentDigit? (digitChar d) x).map fun x => { e with exponent := some x }
    | none => typeMantissaDigit? rules (digitChar d) e

/-- The digits, a zero if there are none. -/
def digitsOrZero (e : Entry) : List Char := if e.digits = [] then ['0'] else e.digits

/-- The point key. -/
def typePoint? (e : Entry) : Option Entry :=
  if e.exponent.isSome || e.point.isSome then none
  else some { e with digits := e.digitsOrZero, point := some e.digitsOrZero.length }

/-- The key that opens the exponent. -/
def openExponent? (e : Entry) : Option Entry :=
  if e.exponent.isSome then none
  else some { e with digits := e.digitsOrZero, exponent := some {} }

/-- The sign key. -/
def toggleSign? (rules : EntryRules) (e : Entry) : Option Entry :=
  match e.exponent with
  | some x => some { e with exponent := some { x with negative := !x.negative } }
  | none =>
      if rules.onWords && !fitsWord rules e.digits then none
      else some { e with negative := !e.negative }

/-- The key that takes back the last one: a digit, the point or the open exponent. -/
def backspace? (e : Entry) : Option Entry :=
  match e.exponent with
  | some x =>
      if x.digits = [] then some { e with exponent := none }
      else some { e with exponent := some { x with digits := x.digits.dropLast } }
  | none =>
      if e.point = some e.digits.length then some { e with point := none }
      else if e.digits = [] then none
      else
        let digits := e.digits.dropLast
        some { e with digits := digits, negative := e.negative && digits ≠ [] }

/-! ### Value and text -/

/-- Number of digits after the point. -/
def fractionLength (e : Entry) : Nat :=
  match e.point with
  | none => 0
  | some index => e.digits.length - index

/-- The value of the exponent, zero if it has no digits. -/
def exponentValue? (radix : Nat) (e : Entry) : Option Int :=
  match e.exponent with
  | none => some 0
  | some x =>
      (Magnitude.ofDigits? x.digits radix).map fun m =>
        if x.negative then -m.toNat else m.toNat

/-- The number typed, zero if it cannot be read in the radix. -/
def value (e : Entry) (radix : Nat) : Ratio :=
  if e.digits = [] then .zero
  else
    match ScaledNumber.ofDigits? e.digits radix, e.exponentValue? radix with
    | some mantissa, some exponent =>
        .ofMantissaScale mantissa e.negative radix (exponent - e.fractionLength)
    | _, _ => .zero

/-- The text of the mantissa without its sign. -/
def mantissaText (e : Entry) (separator : List Char) : List Char :=
  if e.digits = [] then ['0']
  else
    match e.point with
    | none => e.digits
    | some index => e.digits.take index ++ separator ++ e.digits.drop index

/-- The text of the exponent, with its mark and sign. -/
def exponentText : Option EntryExponent → List Char
  | none => []
  | some x =>
      'e' :: (if x.negative then '-' else '+') :: (if x.digits = [] then ['0'] else x.digits)

/-- The text shown while typing. -/
def text (e : Entry) (separator : List Char) : List Char :=
  (if e.negative then ['-'] else []) ++ e.mantissaText separator ++ exponentText e.exponent

end Entry
end DeskCalculator
