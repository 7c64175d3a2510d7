/-!
# Functions on binary64 numbers

The exact part of the calculator takes the functions it cannot evaluate exactly
from a record, so that what it guarantees does not depend on their last digit.
`native` is the record of the machine's own functions.
-/

namespace DeskCalculator

/-- The functions on binary64 numbers that exact arithmetic falls back on. -/
structure RealFunctions where
  sin : Float → Float
  cos : Float → Float
  tan : Float → Float
  asin : Float → Float
  acos : Float → Float
  atan : Float → Float
  sinh : Float → Float
  cosh : Float → Float
  tanh : Float → Float
  asinh : Float → Float
  acosh : Float → Float
  atanh : Float → Float
  exp : Float → Float
  ln : Float → Float
  log2 : Float → Float
  log10 : Float → Float
  pow : Float → Float → Float

namespace RealFunctions

/-- Logarithm of `1 + x`, accurate for small `x` as well. -/
def logOnePlus (x : Float) : Float :=
  let u := 1.0 + x
  if u == 1.0 then x
  else if u.isFinite then u.log * (x / (u - 1.0))
  else u.log

/-- Area hyperbolic sine; infinite as soon as twice the argument is. -/
def areaSinh (x : Float) : Float :=
  if (x + x).isInf then x + x else x.asinh

/-- Area hyperbolic cosine of an argument of at least one. -/
def areaCosh (x : Float) : Float :=
  (x + (x - 1.0).sqrt * (x + 1.0).sqrt).log

/-- Area hyperbolic tangent. -/
def areaTanh (x : Float) : Float :=
  0.5 * logOnePlus ((2.0 * x) / (1.0 - x))

/-- The machine's functions. -/
def native : RealFunctions where
  sin := Float.sin
  cos := Float.cos
  tan := Float.tan
  asin := Float.asin
  acos := Float.acos
  atan := Float.atan
  sinh := Float.sinh
  cosh := Float.cosh
  tanh := Float.tanh
  asinh := areaSinh
  acosh := areaCosh
  atanh := areaTanh
  exp := Float.exp
  ln := Float.log
  log2 := Float.log2
  log10 := Float.log10
  pow := Float.pow

end RealFunctions
end DeskCalculator
