import DeskCalculator.Ratio.Basic

/-!
# Chopping to a word

Work on words keeps integers from zero below `2 ^ bits`: a value is truncated
and reduced modulo `2 ^ bits`.
-/

namespace DeskCalculator
namespace Ratio

/-- The integer from zero below `2 ^ bits` that is congruent to the truncation. -/
def chop (r : Ratio) (bits : Nat) : Ratio :=
  let t := r.truncate
  ((t.mod (ofScaled (.radixPow 2 bits))).toOption).getD t

end Ratio

/-- The digits of the largest word, `2 ^ bits - 1`. -/
def maxWordDigits (bits radix : Nat) : List Char :=
  (ScaledNumber.radixPow 2 bits - .one).toDigits radix

end DeskCalculator
