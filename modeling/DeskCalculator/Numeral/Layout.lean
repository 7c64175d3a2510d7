import DeskCalculator.Command
import DeskCalculator.MachineWord

/-!
# Laying out significant digits

**Input.**  A sign, significant digits `d₁ d₂ d₃ …` without leading zeros, and
the exponent `e` of the first one: the number is `± d₁.d₂d₃… * radix ^ e`.

**Output.**  The number in one of three styles, without zeros at the end of its
fraction:

* *floating* is positional for `-5 ≤ e < precision` and scientific otherwise;
* *scientific* has one digit before the point;
* *engineering* has one to three, so that the exponent is a multiple of three.

The exponent is written in decimal with its sign, after the mark `e` in radix
ten and `^` elsewhere, where `e` may be a digit.  The decimal separator is
always a point here; the display replaces it.

**Words.**  The machine has exponents in signed words of 64 bits and reads the
precision as one.  The layout with a rule for such words is the other one as
long as the numbers fit.
-/

namespace DeskCalculator
namespace Numeral

/-- The lowest exponent that the floating style writes positionally. -/
def lowestPositional : Int := -5

/-- The character before a written exponent. -/
def exponentMark (radix : Nat) : Char := if radix = 10 then 'e' else '^'

/-- The digits without the zeros at their end, `0` if none is left. -/
def withoutTrailingZeros (digits : List Char) : List Char :=
  match (digits.reverse.dropWhile (· = '0')).reverse with
  | [] => ['0']
  | kept => kept

/-- The digits with a point after the first `whole`, filled up with zeros as far as the point. -/
def pointed (digits : List Char) (whole : Nat) : List Char :=
  let head := digits.take whole
  let head := head ++ List.replicate (whole - head.length) '0'
  let tail := digits.drop whole
  if tail = [] then head else head ++ '.' :: tail

/-- A written exponent with its mark and sign. -/
def exponentSuffix (radix : Nat) (e : Int) : List Char :=
  exponentMark radix :: (if e < 0 then '-' else '+') :: (toString e.natAbs).toList

/-- Digits at their places, without an exponent. -/
def positional (digits : List Char) (e : Int) : List Char :=
  if 0 ≤ e then pointed digits (e.toNat + 1)
  else '0' :: '.' :: List.replicate (-e - 1).toNat '0' ++ digits

/-- Digits with `whole` of them before the point, and the exponent that this leaves. -/
def withExponent (digits : List Char) (whole : Nat) (radix : Nat) (e : Int) : List Char :=
  pointed digits whole ++ exponentSuffix radix e

/-- The number without its sign in the given style. -/
def body (digits : List Char) (e : Int) (radix : Nat) (style : NumberStyle)
    (precision : Nat) : List Char :=
  match style with
  | .floating =>
      if e < precision ∧ lowestPositional ≤ e then positional digits e
      else withExponent digits 1 radix e
  | .scientific => withExponent digits 1 radix e
  | .engineering =>
      let e₃ := e / 3 * 3
      withExponent digits (e - e₃ + 1).toNat radix e₃

/-- The text of a number from its sign, its significant digits and their exponent. -/
def layout (negative : Bool) (digits : List Char) (e : Int) (radix : Nat)
    (style : NumberStyle) (precision : Nat) : List Char :=
  let kept := withoutTrailingZeros digits
  if kept = ['0'] then ['0']
  else
    let text := body kept e radix style precision
    if negative then '-' :: text else text

/-! ### Exponents in words -/

section

variable (keep : WordRule)

/-- The number without its sign in the given style. -/
def bodyBy (digits : List Char) (e : Int) (radix : Nat) (style : NumberStyle)
    (precision : Nat) : Except WordFault (List Char) :=
  match style with
  | .floating =>
      .ok (if e < signedWord 64 precision ∧ lowestPositional ≤ e then positional digits e
        else withExponent digits 1 radix e)
  | .scientific => .ok (withExponent digits 1 radix e)
  | .engineering => do
      let e₃ ← keep (e / 3 * 3)
      let left ← keep (e - e₃)
      let whole ← keep (left + 1)
      return withExponent digits whole.toNat radix e₃

/-- The text of a number from its sign, its significant digits and their exponent. -/
def layoutBy (negative : Bool) (digits : List Char) (e : Int) (radix : Nat)
    (style : NumberStyle) (precision : Nat) : Except WordFault (List Char) :=
  let kept := withoutTrailingZeros digits
  if kept = ['0'] then .ok ['0']
  else do
    let text ← bodyBy keep kept e radix style precision
    return if negative then '-' :: text else text

end

end Numeral
end DeskCalculator
