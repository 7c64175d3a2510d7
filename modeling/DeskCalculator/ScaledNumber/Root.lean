import DeskCalculator.ScaledNumber.Arithmetic

/-!
# Integer roots

The root of order `k` of a natural number, rounded down, by Newton's method
from above: as long as the next iterate is smaller, go on.

**Start.**  A binary64 estimate of the root gives a candidate with 53 correct
bits.  It is used only if its power is not below the number; otherwise the
search starts from the power of two that the number of bits gives.  The start
does not change the result, so that its logarithm and its power are the machine's
own.
-/

namespace DeskCalculator
namespace ScaledNumber

/--
Estimate of the binary logarithm of the integer part, from its 64 top bits.  It
is zero for zero, which has no logarithm.
-/
def log2Estimate (log2 : Float → Float) (x : ScaledNumber) : Float :=
  let m := x.integerMagnitude
  let bits := m.bitLength
  if bits ≤ 64 then
    let l := log2 m.lowWord.toFloat
    if 0.0 ≤ l then l else 0.0
  else log2 (m.shiftRight (bits - 64)).lowWord.toFloat + Float.ofNat (bits - 64)

/-- A number with the given magnitude. -/
def ofMagnitude (m : Magnitude) : ScaledNumber := ofParts false 0 m

/--
Candidate for a start, a little above the root as far as the estimate goes.  Its
head is a word, and may wrap around to zero.
-/
def rootCandidate (n : ScaledNumber) (k : Nat) : ScaledNumber :=
  let estimate := n.log2Estimate Float.log2 / Float.ofNat k
  let shift := (estimate - 52.0).floor.toUInt64
  let head := ((estimate - shift.toFloat).exp2 * (1.0 + 1e-9)).ceil.toUInt64
  ofMagnitude ((Magnitude.ofNat (head + 1).toNat).shiftLeft shift.toNat)

/-- A start that is not below the root: the candidate if it is one, else a power of two. -/
def rootStart (n : ScaledNumber) (k : Nat) (candidate : ScaledNumber) : ScaledNumber :=
  if (candidate.pow k).atLeast n then candidate
  else ofMagnitude (Magnitude.shiftLeft [1] ((n.bitLength + k - 1) / k))

/-- The next iterate after `x`. -/
def rootStep (n : ScaledNumber) (k : Nat) (x : ScaledNumber) : ScaledNumber :=
  (ofNat (k - 1) * x + n.quot (x.pow (k - 1))).quot (ofNat k)

/-- The last iterate before they stop falling. -/
def rootDescent (n : ScaledNumber) (k : Nat) (x : ScaledNumber) : ScaledNumber :=
  let y := rootStep n k x
  if _h : y.integerMagnitude.compare x.integerMagnitude = .lt then rootDescent n k y else x
termination_by (x.integerMagnitude.length, x.integerMagnitude.toNat)
decreasing_by exact Magnitude.lex_lt_of_compare_eq_lt _h

/-- The root of order `k`, rounded down, the search starting from a candidate. -/
def rootFloorFrom (n : ScaledNumber) (k : Nat) (candidate : ScaledNumber) : ScaledNumber :=
  if n.isZero ∨ k ≤ 1 then n else rootDescent n k (rootStart n k candidate)

/-- The root of order `k` of a number that is not negative, rounded down. -/
def rootFloor (n : ScaledNumber) (k : Nat) : ScaledNumber :=
  if n.isZero ∨ k ≤ 1 then n else rootFloorFrom n k (rootCandidate n k)

/-- The root of order `k` of a natural number, if it is one itself. -/
def exactRoot? (n : ScaledNumber) (k : Nat) : Option ScaledNumber :=
  let r := n.rootFloor k
  if r.pow k = n then some r else none

end ScaledNumber
end DeskCalculator
