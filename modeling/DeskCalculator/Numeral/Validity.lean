import DeskCalculator.Magnitude.Digits
import DeskCalculator.Text.Blank

/-!
# Well-formed numerals

A numeral is an optional minus sign and digits of the radix with at most one
point among them.  In radix ten an exponent may follow: the mark `e` or `E`, an
optional sign and decimal digits.  The numbers of digits before and after the
mark are limited.
-/

namespace DeskCalculator
namespace Numeral

/-- Whether a character marks a decimal exponent. -/
def isExponentMark (c : Char) : Bool := c = 'e' || c = 'E'

/-- A text without one of the given signs in front. -/
def dropSign (signs : List Char) : List Char → List Char
  | [] => []
  | c :: cs => if c ∈ signs then cs else c :: cs

/-- Number of digits in a mantissa, if it holds only digits and at most one point. -/
def mantissaDigits? (radix : Nat) : List Char → Option Nat
  | [] => some 0
  | c :: cs =>
      if c = '.' then
        if '.' ∈ cs then none else mantissaDigits? radix cs
      else if (radixDigit? radix c).isSome then (mantissaDigits? radix cs).map (· + 1)
      else none

/-- Whether a text is a sign and at most `limit` decimal digits, at least one. -/
def isExponent (limit : Nat) (text : List Char) : Bool :=
  let digits := dropSign ['+', '-'] text
  digits ≠ [] && digits.length ≤ limit && digits.all Char.isDigit

/-- Whether a text is a mantissa of at most `limit` digits, at least one. -/
def isMantissa (limit radix : Nat) (text : List Char) : Bool :=
  match mantissaDigits? radix (dropSign ['-'] text) with
  | none => false
  | some n => n ≠ 0 && n ≤ limit

/-- Whether a text is a numeral of the radix within the limits on its digits. -/
def isValid (text : List Char) (exponentLimit mantissaLimit radix : Nat) : Bool :=
  match (if radix = 10 then splitFirst? isExponentMark text else none) with
  | none => isMantissa mantissaLimit radix text
  | some (mantissa, exponent) =>
      isMantissa mantissaLimit radix mantissa && isExponent exponentLimit exponent

end Numeral
end DeskCalculator
