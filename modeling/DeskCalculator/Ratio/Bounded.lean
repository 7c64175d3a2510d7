import DeskCalculator.Ratio.Basic
import DeskCalculator.ScaledNumber.Bounded

/-!
# Ratios with exponents in words

Lowest terms, the four operations and the order of ratios, with a rule for every
exponent that is computed on the way.  With exact exponents they are the
operations on ratios; with exponents of 32 bits they stop, or lose the value,
where an exponent leaves its word.
-/

namespace DeskCalculator
namespace Ratio

variable (keep : WordRule)

/-! ### Lowest terms -/

/-- The terms with exponents raised together until none is below zero. -/
def clearExponentsBy (r : Ratio) : Except WordFault Ratio := do
  let a ← keep (-r.num.exponent)
  let b ← keep (-r.den.exponent)
  let k := max (max a b) 0
  if 0 < k then
    let e ← keep (r.num.exponent + k)
    let num ← ScaledNumber.ofPartsBy keep r.num.isNegative e r.num.mantissa
    let f ← keep (r.den.exponent + k)
    let den ← ScaledNumber.ofPartsBy keep r.den.isNegative f r.den.mantissa
    return ⟨num, den⟩
  else return r

/-- Both terms divided by a number. -/
def reduceBy (r : Ratio) (g : ScaledNumber) : Except WordFault Ratio := do
  let num ← r.num.divModBy keep g
  let den ← r.den.divModBy keep g
  return ⟨num.1, den.1⟩

/-- The same ratio in lowest terms. -/
def simplifyBy (r : Ratio) : Except WordFault Ratio :=
  if r.num.isZero then .ok zero
  else do
    let c ← r.clearExponentsBy keep
    let g ← c.num.gcdBy keep c.den
    let d ← if g.isOne then .ok c else c.reduceBy keep g
    return if d.den.isNegative then ⟨d.num.neg, d.den.neg⟩ else d

/-- The ratio of two numbers in lowest terms. -/
def makeBy (num den : ScaledNumber) : Except WordFault (Except CalcError Ratio) :=
  if den.isZero then .ok (.error .divisionByZero)
  else (simplifyBy keep ⟨num, den⟩).map .ok

/-! ### Arithmetic -/

/-- Sum by way of the cross products. -/
def crossAddBy (a b : Ratio) : Except WordFault Ratio := do
  let left ← a.num.mulBy keep b.den
  let right ← b.num.mulBy keep a.den
  let num ← left.addBy keep right
  let den ← a.den.mulBy keep b.den
  simplifyBy keep ⟨num, den⟩

/-- Sum; terms over one denominator are added as they are. -/
def addBy (a b : Ratio) : Except WordFault Ratio :=
  if a.den = b.den then do
    let num ← a.num.addBy keep b.num
    simplifyBy keep ⟨num, a.den⟩
  else a.crossAddBy keep b

/-- Difference. -/
def subBy (a b : Ratio) : Except WordFault Ratio := a.addBy keep b.neg

/-- Product. -/
def mulBy (a b : Ratio) : Except WordFault Ratio := do
  let num ← a.num.mulBy keep b.num
  let den ← a.den.mulBy keep b.den
  simplifyBy keep ⟨num, den⟩

/-- Quotient. -/
def divBy (a b : Ratio) : Except WordFault (Except CalcError Ratio) :=
  if b.isZero then .ok (.error .divisionByZero)
  else do
    let num ← a.num.mulBy keep b.den
    let den ← a.den.mulBy keep b.num
    (simplifyBy keep ⟨num, den⟩).map .ok

/-- Order of the values. -/
def compareBy (a b : Ratio) : Except WordFault Ordering := do
  let a := a.withPositiveDen
  let b := b.withPositiveDen
  let left ← a.num.mulBy keep b.den
  let right ← b.num.mulBy keep a.den
  left.compareBy keep right

/-- Whether two ratios have the same value. -/
def sameBy (a b : Ratio) : Except WordFault Bool := do
  return (← a.compareBy keep b) = .eq

end Ratio
end DeskCalculator
