import DeskCalculator.Magnitude.Order

/-!
# Division of magnitudes

**Division by a limb.**  The dividend is read from its high end; the remainder
so far and the next limb form a 64-bit word that is divided by the limb.

**Long division.**  Dividend and divisor are shifted so that the top bit of the
divisor is set.  The remainder always has as many limbs as the divisor and is
smaller than it; bringing down the next limb of the dividend gives a window of
one limb more, from which one limb of the quotient is taken:

* the estimate divides the two top limbs of the window by the top limb of the
  divisor, and the third limb of the window and the second of the divisor
  correct it twice; it is then at most one too large;
* the window loses the estimate times the divisor.  If that goes below zero the
  result wraps around and leaves a top limb that is not zero, the estimate was
  one too large, and the divisor is added back.

**Greatest common divisor.**  Successive remainders; each is compared with its
divisor, so that the descent is plain.

Division by zero has quotient zero and leaves the dividend; `divMod?` tells it
apart.
-/

namespace DeskCalculator
namespace Magnitude

/-- Quotient and remainder by a limb, the dividend given from its high end. -/
def divModLimbLoop (d : UInt64) : Magnitude → Magnitude → UInt64 → Magnitude × UInt64
  | [], q, r => (q, r)
  | x :: xs, q, r =>
      let t := r * limbBase + x.toUInt64
      divModLimbLoop d xs (push (t / d).toUInt32 q) (t % d)

/-- Quotient and remainder of a magnitude by a limb that is not zero. -/
def divModLimb (a : Magnitude) (d : UInt32) : Magnitude × UInt32 :=
  let (q, r) := divModLimbLoop d.toUInt64 a.reverse [] 0
  (q, r.toUInt32)

/-! ### Long division -/

/-- The three top limbs of a list of at least three, from the top. -/
def topThree : Magnitude → UInt64 × UInt64 × UInt64
  | [x, y, z] => (z.toUInt64, y.toUInt64, x.toUInt64)
  | _ :: xs => topThree xs
  | [] => (0, 0, 0)

/-- The two top limbs of a divisor whose top bit is set. -/
structure DivisorHead where
  high : UInt64
  next : UInt64

/-- Candidate for a limb of the quotient, with what it leaves of the two top limbs. -/
structure QuotientEstimate where
  digit : UInt64
  rest : UInt64

namespace QuotientEstimate

/-- First estimate: the two top limbs of the window by the top limb of the divisor. -/
def ofTop (v : DivisorHead) (u₂ u₁ : UInt64) : QuotientEstimate :=
  let t := u₂ * limbBase + u₁
  ⟨t / v.high, t % v.high⟩

/-- Whether two limbs of the divisor show that the estimate is too large. -/
def TooLarge (v : DivisorHead) (u₀ : UInt64) (e : QuotientEstimate) : Prop :=
  e.rest < limbBase ∧
    (limbBase ≤ e.digit ∨ e.rest * limbBase + u₀ < e.digit * v.next)

instance (v : DivisorHead) (u₀ : UInt64) (e : QuotientEstimate) :
    Decidable (TooLarge v u₀ e) :=
  inferInstanceAs (Decidable (_ ∧ (_ ∨ _)))

/-- Lowers an estimate that is visibly too large by one. -/
def correct (v : DivisorHead) (u₀ : UInt64) (e : QuotientEstimate) : QuotientEstimate :=
  if TooLarge v u₀ e then ⟨e.digit - 1, e.rest + v.high⟩ else e

end QuotientEstimate

/--
Limbs of `w - q * v - c`, as many as `w` has, where `w` has one limb more than
`v`.  A result below zero wraps around.
-/
def subMulRow (q : UInt64) : Magnitude → Magnitude → UInt64 → Magnitude
  | y :: v, x :: w, c =>
      let p := q * y.toUInt64 + c
      let low := p.toUInt32
      (x - low) :: subMulRow q v w ((p >>> 32) + (if x < low then 1 else 0))
  | _, x :: _, c => [x - c.toUInt32]
  | _, [], _ => []

/-- Limbs of `w + v + c` without the carry out of the top limb of `w`. -/
def addBackRow : Magnitude → Magnitude → UInt64 → Magnitude
  | y :: v, x :: w, c =>
      let t := x.toUInt64 + y.toUInt64 + c
      t.toUInt32 :: addBackRow v w (t >>> 32)
  | _, x :: _, c => [x + c.toUInt32]
  | _, [], _ => []

/--
One limb of the quotient: the largest multiple of `v` below the window, and the
window without it.
-/
def divStep (head : DivisorHead) (v w : Magnitude) : UInt32 × Magnitude :=
  let (u₂, u₁, u₀) := topThree w
  let e := ((QuotientEstimate.ofTop head u₂ u₁).correct head u₀).correct head u₀
  let rest := subMulRow e.digit v w 0
  if rest.getLast? = some 0 then (e.digit.toUInt32, rest.dropLast)
  else ((e.digit - 1).toUInt32, (addBackRow v rest 0).dropLast)

/--
Quotient and remainder of the number with high limbs `top` and low limbs `low`,
where `top` is smaller than `v`.
-/
def divLoop (head : DivisorHead) (v top : Magnitude) : Magnitude → Magnitude × Magnitude
  | [] => ([], top)
  | x :: low =>
      let (q, r) := divLoop head v top low
      let (digit, r') := divStep head v (x :: r)
      (push digit q, r')

/-- Quotient and remainder by a divisor of two limbs or more, not above the dividend. -/
def longDiv (a b : Magnitude) : Magnitude × Magnitude :=
  let s := 32 - limbBits (b.getLastD 0)
  let v := (shiftLeftBits (UInt64.ofNat s) b 0).dropLast
  let u := shiftLeftBits (UInt64.ofNat s) a 0
  let (high, next, _) := topThree (0 :: v)
  let split := u.length - v.length
  let (q, r) := divLoop ⟨high, next⟩ v (u.drop split) (u.take split)
  (q, normalize (shiftRightBits (UInt64.ofNat s) r))

/-- Quotient and remainder of two magnitudes. -/
def divMod (a b : Magnitude) : Magnitude × Magnitude :=
  if b = [] ∨ compare a b = .lt then ([], a)
  else
    match b with
    | [d] =>
        let (q, r) := divModLimb a d
        (q, push r [])
    | _ => longDiv a b

/-- Quotient and remainder, for a divisor that is not zero. -/
def divMod? (a b : Magnitude) : Option (Magnitude × Magnitude) :=
  if b = [] then none else some (divMod a b)

/-! ### Greatest common divisor -/

/--
Greatest common divisor by successive remainders.  The loop goes on as long as
the remainder compares below its divisor, which it always does.
-/
def gcd (a b : Magnitude) : Magnitude :=
  if b = [] then a
  else
    let r := (divMod a b).2
    if _h : compare r b = .lt then gcd b r else b
termination_by (b.length, b.toNat)
decreasing_by exact lex_lt_of_compare_eq_lt _h

end Magnitude
end DeskCalculator
