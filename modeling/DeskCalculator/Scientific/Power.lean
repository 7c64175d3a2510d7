import DeskCalculator.Scientific.Transcendental

/-!
# Powers and roots with any exponent

**Powers.**  An integer exponent gives an exact power; if the exponent is beyond
63 bits, only the powers of zero, one and minus one are representable.  For an
exponent `p / q` in lowest terms the power is rational if the base is a `q`-th
power; the root is taken first, then the power.  Otherwise the power is that of
binary64 numbers.

**Roots.**  A root whose order is an integer of at most 64 is exact or
truncated; any other is the power with the reciprocal exponent.
-/

namespace DeskCalculator
namespace Scientific

-- The powers of the core library, whatever else is imported.
attribute [local instance (high)] instPowNat

/-- The largest order of a root that is taken in exact arithmetic. -/
def rootOrderLimit : Nat := 64

/-- The truncation of a ratio, if its absolute value is below `2 ^ 63`. -/
def exponent? (y : Ratio) : Option Int :=
  match y.abs.toWord with
  | .error _ => none
  | .ok n =>
      if n.toNat < 2 ^ (63 : Nat) then some (if y.isNegative then -n.toNat else n.toNat) else none

/-- The order of a root that is taken in exact arithmetic. -/
def rootOrder? (y : Ratio) : Option Nat :=
  if !y.isInteger ∨ y.isNegative then none
  else
    match y.toWord with
    | .error _ => none
    | .ok k => if 1 ≤ k.toNat ∧ k.toNat ≤ rootOrderLimit then some k.toNat else none

/-- The power with an integer exponent beyond 63 bits. -/
def hugePow (x y : Ratio) : Except CalcError Ratio :=
  if x.isZero ∧ !y.isNegative then .ok .zero
  else if x.isOne then .ok .one
  else if x.same (.ofInt (-1)) then do
    let parity ← y.mod (.ofInt 2)
    return if parity.isZero then .one else .ofInt (-1)
  else .error .overflow

/-- The power of a positive base with an exponent that is not an integer. -/
def fractionalPow (F : RealFunctions) (x y : Ratio) : Except CalcError Ratio :=
  let exactPower := do
    let p ← exponent? (.ofScaled y.num)
    let q ← rootOrder? (.ofScaled y.den)
    let r ← x.exactRoot? q
    return (r, p)
  match exactPower with
  | some (r, p) => r.intPow F.log2 p
  | none => ofFloat (F.pow x.toFloat y.toFloat)

/-- The power `x ^ y`. -/
def pow (F : RealFunctions) (x y : Ratio) : Except CalcError Ratio :=
  if y.isInteger then
    match exponent? y with
    | some n => x.intPow F.log2 n
    | none => hugePow x y
  else if x.isNegative then .error (.domain .powerOfNegative)
  else if x.isZero then if y.isNegative then .error .divisionByZero else .ok .zero
  else fractionalPow F x y

/-- The root of order `y` of `x`. -/
def nthRoot (F : RealFunctions) (x y : Ratio) : Except CalcError Ratio :=
  if y.isZero then .error (.domain .rootOrderZero)
  else
    match rootOrder? y.abs with
    | some k => do
        let r ← x.root k
        if y.isNegative then r.inv else return r
    | none => do
        pow F x (← y.inv)

end Scientific
end DeskCalculator
