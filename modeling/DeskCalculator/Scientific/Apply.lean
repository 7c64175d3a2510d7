import DeskCalculator.Scientific.Factorial
import DeskCalculator.Scientific.Power

/-!
# Applying a function

Every function has an inverse, which the armed inverse selects; the reciprocal,
the factorial and the bit complement are the same either way.  A result with a
term above the size limit is refused.
-/

namespace DeskCalculator
namespace Scientific

/-- The value of a function or its inverse, before its size is checked. -/
def value (F : RealFunctions) (f : ScientificFunction) (x : Ratio) (inverse : Bool)
    (u : AngleUnit) : Except CalcError Ratio :=
  match f, inverse with
  | .sin, false => sin F x u
  | .sin, true => arcSin F x u
  | .cos, false => cos F x u
  | .cos, true => arcCos F x u
  | .tan, false => tan F x u
  | .tan, true => arcTan F x u
  | .sinh, false => sinh F x
  | .sinh, true => areaSinh F x
  | .cosh, false => cosh F x
  | .cosh, true => areaCosh F x
  | .tanh, false => tanh F x
  | .tanh, true => areaTanh F x
  | .ln, false => ln F x
  | .ln, true => exp F x
  | .log, false | .tenPow, true => log10 F x
  | .log, true | .tenPow, false => tenPow F x
  | .square, false | .sqrt, true => .ok (x * x)
  | .square, true | .sqrt, false => x.root 2
  | .cube, false | .cbrt, true => x.intPow F.log2 3
  | .cube, true | .cbrt, false => x.root 3
  | .reciprocal, _ => x.inv
  | .factorial, _ => factorial x
  | .not, _ => .ok x.lnot

/-- The value of a function or its inverse, within the size limit. -/
def apply (F : RealFunctions) (f : ScientificFunction) (x : Ratio) (inverse : Bool)
    (u : AngleUnit) : Except CalcError Ratio := do
  (← value F f x inverse u).checkSize

end Scientific
end DeskCalculator
