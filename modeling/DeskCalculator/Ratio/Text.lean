import DeskCalculator.Numeral.Layout
import DeskCalculator.Ratio.Rounding

/-!
# Texts of ratios

A ratio has an exact text, `n` or `n/d` in decimal; a rounded text in any radix
and style, in which an integer whose digits fit in the precision is written in
full; and, for work on integers, the text of its truncation.
-/

namespace DeskCalculator
namespace Ratio

/-- The text with a minus sign if `negative`. -/
def signed (negative : Bool) (text : List Char) : List Char :=
  if negative then '-' :: text else text

/-- The exact text, `n` or `n/d`. -/
def exactText (r : Ratio) : List Char :=
  let p := r.withPositiveDen
  let n := p.num.toDigits 10
  signed p.isNegative (if p.isInteger then n else n ++ '/' :: p.den.toDigits 10)

/-- The digits of an integer that fits in the precision. -/
def shortDigits? (r : Ratio) (radix precision : Nat) : Option (List Char) :=
  -- no digit stands for more than four bits, so a larger number does not fit
  if r.isInteger ∧ r.bitLength ≤ 4 * precision then
    let digits := r.num.toDigits radix
    if digits.length ≤ precision then some digits else none
  else none

/-- The text by way of the rounded digits. -/
def roundedText (r : Ratio) (radix : Nat) (style : NumberStyle) (precision : Nat) : List Char :=
  match r.significand? radix precision with
  | none => ['0']
  | some s => Numeral.layout r.isNegative s.digits s.exponent radix style precision

/-- The text in a radix and style with `precision` significant digits. -/
def toText (r : Ratio) (radix : Nat) (style : NumberStyle) (precision : Nat) : List Char :=
  if r.isZero then ['0']
  else
    match (if style = .floating then r.shortDigits? radix precision else none) with
    | some digits => signed r.isNegative digits
    | none => r.roundedText radix style precision

/--
The text by way of digits, scales and exponents in words, where integers of at
most `bits` bits are tried in full.
-/
def toTextBy (keep : WordRule) (r : Ratio) (bits radix : Nat) (style : NumberStyle)
    (precision : Nat) : Except WordFault (List Char) := do
  match ← r.significandBy keep radix precision with
  | none => return ['0']
  | some s =>
      let full := r.num.toDigits radix
      if style = .floating ∧ r.isInteger ∧ r.bitLength ≤ bits ∧ full.length ≤ precision then
        return signed r.isNegative full
      else Numeral.layoutBy keep r.isNegative s.digits s.exponent radix style precision

/-- The text of the truncation. -/
def truncatedText (r : Ratio) (radix : Nat) : List Char :=
  let t := r.truncate
  signed t.isNegative (t.num.toDigits radix)

end Ratio
end DeskCalculator
