import DeskCalculator.Ratio.Chop
import DeskCalculator.Scientific.Apply

/-!
# Calculations with two operands

The engine computes either with exact ratios or with unsigned machine words.
On words every result is chopped to the width, quotients are truncated, and
powers and factorials are computed modulo `2 ^ 64`, which any narrower width
divides.
-/

namespace DeskCalculator

/-- What a calculation depends on. -/
structure CalculationMode where
  onWords : Bool
  bits : Nat
deriving DecidableEq, Repr

namespace CalculationMode

/-- The value kept of a result: on words, chopped to the width. -/
def adjust (c : CalculationMode) (v : Ratio) : Ratio :=
  if c.onWords then v.chop c.bits else v

/-- The result of an operator before it is checked and adjusted. -/
def combine (F : RealFunctions) (c : CalculationMode) (op : Operator) (a b : Ratio) :
    Except CalcError Ratio :=
  match op with
  | .add => .ok (a + b)
  | .sub => .ok (a - b)
  | .mul => .ok (a * b)
  | .div => do
      let q ← a.div b
      return if c.onWords then q.truncate else q
  | .mod => a.mod b
  | .pow => if c.onWords then .ok (a.wordPow b) else Scientific.pow F a b
  | .root => Scientific.nthRoot F a b
  | .and => .ok (a.land b)
  | .or => .ok (a.lor b)
  | .xor => .ok (a.lxor b)
  | .shiftLeft => .ok (a.shiftLeft b)
  | .shiftRight => .ok (a.shiftRight b)

/-- The result of an operator. -/
def binary (F : RealFunctions) (c : CalculationMode) (op : Operator) (a b : Ratio) :
    Except CalcError Ratio := do
  let r ← combine F c op a b
  return c.adjust (← r.checkSize)

/-- The result of a function. -/
def unary (F : RealFunctions) (c : CalculationMode) (f : ScientificFunction) (x : Ratio)
    (inverse : Bool) (u : AngleUnit) : Except CalcError Ratio := do
  let r ← if c.onWords ∧ f = .factorial then .ok (Scientific.wordFactorial x)
    else Scientific.apply F f x inverse u
  return c.adjust r

end CalculationMode
end DeskCalculator
