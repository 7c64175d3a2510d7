import DeskCalculator.Proofs.Checked.Root
import DeskCalculator.Proofs.Checked.Text
import DeskCalculator.Proofs.Scientific.LowestTerms

/-!
# Checked functions

Whatever a function on binary64 numbers gives, finite or not, the ratio made of
it is in lowest terms, so that the functions keep within the domains of exact
arithmetic as long as their arguments do.

**Results.**
* `checkedPow_eq`, `checkedNthRoot_eq`: powers and roots with any exponent.
* `checkedApply_eq`: every function and every inverse of one.
-/

namespace DeskCalculator

open Ratio

namespace Scientific

variable {F : RealFunctions} {x y : Ratio} {u : AngleUnit}

/-! ### Functions on binary64 numbers -/

/-- Checked ratio of a binary64 result. -/
def checkedOfFloat (x : Float) : Option (Except CalcError Ratio) :=
  checkedOfFloatRounded x keptDigits

/-- A function on binary64 numbers, which may refuse its argument, of a ratio. -/
def checkedReal (g : Float → Except CalcError Float) (x : Ratio) :
    Option (Except CalcError Ratio) := do
  match g (← x.checkedToFloat) with
  | .error e => return .error e
  | .ok y => checkedOfFloat y

theorem checkedOfFloat_eq
    (x : Float) :
    checkedOfFloat x = some (ofFloat x) :=
  checkedOfFloatRounded_eq x keptDigits

theorem checkedReal_eq
    (g : Float → Except CalcError Float) (hx : LowestTerms x) :
    checkedReal g x = some (g x.toFloat >>= ofFloat) := by
  rw [checkedReal, checkedToFloat_eq hx]
  simp only [Option.bind_eq_bind, Option.bind_some]
  cases g x.toFloat with
  | error e => rfl
  | ok y => exact checkedOfFloat_eq y

theorem checkedReal_ok
    (g : Float → Float) (hx : LowestTerms x) :
    checkedReal (fun t => .ok (g t)) x = some (ofFloat (g x.toFloat)) :=
  checkedReal_eq _ hx

/-- A function that refuses some arguments. -/
theorem checkedReal_guarded
    {c : Float → Prop} [DecidablePred c] (g : Float → Float) (e : CalcError)
    (hx : LowestTerms x) :
    checkedReal (fun t => if c t then .ok (g t) else .error e) x =
        some (if c x.toFloat then ofFloat (g x.toFloat) else .error e) ∧
      checkedReal (fun t => if c t then .error e else .ok (g t)) x =
        some (if c x.toFloat then .error e else ofFloat (g x.toFloat)) := by
  rw [checkedReal_eq _ hx, checkedReal_eq _ hx]
  constructor <;> split <;> rfl

/-! ### Angles -/

/-- Checked number of quarter turns. -/
def checkedQuarterTurns? (x : Ratio) (u : AngleUnit) : Option (Option UInt64) :=
  if x.isZero then some (some 0)
  else
    match quarterTurn? u with
    | none => some none
    | some quarter => do
        match ← x.checkedDiv quarter with
        | .error _ => return none
        | .ok turns =>
            if turns.isInteger then
              match ← turns.checkedMod (.ofInt 4) with
              | .error _ => return none
              | .ok rest => return (← rest.checkedToWord).toOption
            else return none

/-- A function of an angle, with exact values at whole quarter turns. -/
def checkedTurns (exact : UInt64 → Except CalcError Ratio) (g : Float → Float) (x : Ratio)
    (u : AngleUnit) : Option (Except CalcError Ratio) := do
  match ← checkedQuarterTurns? x u with
  | some k => return exact k
  | none => checkedReal (fun t => .ok (g (toRadians t u))) x

theorem quarterTurn?_lowestTerms
    {quarter : Ratio} (h : quarterTurn? u = some quarter) :
    LowestTerms quarter := by
  cases u with
  | degrees => exact Option.some.inj h ▸ lowestTerms_ofInt 90
  | gradians => exact Option.some.inj h ▸ lowestTerms_ofInt 100
  | radians => cases h

theorem checkedQuarterTurns?_eq
    (hx : LowestTerms x) (u : AngleUnit) :
    checkedQuarterTurns? x u = some (quarterTurns? x u) := by
  unfold checkedQuarterTurns? quarterTurns?
  split
  · rfl
  cases hquarter : quarterTurn? u with
  | none => rfl
  | some quarter =>
      have hq := quarterTurn?_lowestTerms hquarter
      dsimp only
      rw [checkedDiv_eq hx.wellFormed hq.wellFormed]
      simp only [Option.bind_eq_bind, Option.bind_some]
      cases hturns : x.div quarter with
      | error e => rfl
      | ok turns =>
          have ht := hx.div hq hturns
          simp only [Except.toOption, Option.bind_some]
          split
          · rw [checkedMod_eq ht (lowestTerms_ofInt 4)]
            simp only [Option.bind_some]
            cases hrest : turns.mod (.ofInt 4) with
            | error e => rfl
            | ok rest =>
                dsimp only
                rw [checkedToWord_eq (ht.mod (lowestTerms_ofInt 4) hrest)]
                rfl
          · rfl

theorem checkedTurns_eq
    (exact : UInt64 → Except CalcError Ratio) (g : Float → Float) (hx : LowestTerms x)
    (u : AngleUnit) :
    checkedTurns exact g x u =
      some (match quarterTurns? x u with
        | some k => exact k
        | none => ofFloat (g (toRadians x.toFloat u))) := by
  rw [checkedTurns, checkedQuarterTurns?_eq hx]
  cases quarterTurns? x u with
  | some k => rfl
  | none => exact checkedReal_ok (fun t => g (toRadians t u)) hx

/-! ### Powers and roots -/

/-- Checked truncation to 63 bits. -/
def checkedExponent? (y : Ratio) : Option (Option Int) := do
  match ← y.abs.checkedToWord with
  | .error _ => return none
  | .ok n =>
      return if n.toNat < 2 ^ 63 then
          some (if y.isNegative then -n.toNat else n.toNat) else none

/-- Checked order of a root in exact arithmetic. -/
def checkedRootOrder? (y : Ratio) : Option (Option Nat) :=
  if !y.isInteger ∨ y.isNegative then some none
  else do
    match ← y.checkedToWord with
    | .error _ => return none
    | .ok k => return if 1 ≤ k.toNat ∧ k.toNat ≤ rootOrderLimit then some k.toNat else none

/-- Checked power with an integer exponent beyond 63 bits. -/
def checkedHugePow (x y : Ratio) : Option (Except CalcError Ratio) :=
  if x.isZero ∧ !y.isNegative then some (.ok .zero)
  else if x.isOne then some (.ok .one)
  else if x.same (.ofInt (-1)) then
    Checked.andThen (y.checkedMod (.ofInt 2)) fun parity =>
      some (.ok (if parity.isZero then .one else .ofInt (-1)))
  else some (.error .overflow)

/-- The root and the exponent of a power that is a ratio, if the order of the root is small. -/
def checkedExactPower? (x y : Ratio) : Option (Option (Ratio × Int)) := do
  match ← checkedExponent? (.ofScaled y.num) with
  | none => return none
  | some p =>
      match ← checkedRootOrder? (.ofScaled y.den) with
      | none => return none
      | some q => return (← x.checkedExactRoot? q).map fun r => (r, p)

/-- Checked power of a positive base with an exponent that is not an integer. -/
def checkedFractionalPow (F : RealFunctions) (x y : Ratio) :
    Option (Except CalcError Ratio) := do
  match ← checkedExactPower? x y with
  | some (r, p) => r.checkedIntPow F.log2 p
  | none => checkedOfFloat (F.pow (← x.checkedToFloat) (← y.checkedToFloat))

/-- Checked power. -/
def checkedPow (F : RealFunctions) (x y : Ratio) : Option (Except CalcError Ratio) :=
  if y.isInteger then do
    match ← checkedExponent? y with
    | some n => x.checkedIntPow F.log2 n
    | none => checkedHugePow x y
  else if x.isNegative then some (.error (.domain .powerOfNegative))
  else if x.isZero then
    some (if y.isNegative then .error .divisionByZero else .ok .zero)
  else checkedFractionalPow F x y

/-- Checked root of any order. -/
def checkedNthRoot (F : RealFunctions) (x y : Ratio) : Option (Except CalcError Ratio) :=
  if y.isZero then some (.error (.domain .rootOrderZero))
  else do
    match ← checkedRootOrder? y.abs with
    | some k =>
        Checked.andThen (x.checkedRoot k) fun r =>
          if y.isNegative then r.checkedInv else some (.ok r)
    | none => Checked.andThen y.checkedInv fun z => checkedPow F x z

theorem checkedExponent?_eq
    (hy : LowestTerms y) :
    checkedExponent? y = some (exponent? y) := by
  unfold checkedExponent? exponent?
  rw [checkedToWord_eq hy.abs]
  simp only [Option.bind_eq_bind, Option.bind_some]
  cases y.abs.toWord <;> rfl

theorem checkedRootOrder?_eq
    (hy : LowestTerms y) :
    checkedRootOrder? y = some (rootOrder? y) := by
  unfold checkedRootOrder? rootOrder?
  split
  · rfl
  · rw [checkedToWord_eq hy]
    simp only [Option.bind_eq_bind, Option.bind_some]
    cases y.toWord <;> rfl

theorem checkedHugePow_eq
    (x : Ratio) (hy : LowestTerms y) :
    checkedHugePow x y = some (hugePow x y) := by
  unfold checkedHugePow hugePow
  split
  · rfl
  split
  · rfl
  split
  · rw [checkedMod_eq hy (lowestTerms_ofInt 2)]
    exact Checked.andThen_eq fun _ _ => rfl
  · rfl

/-- Both terms of an exponent are integers, and the order of the root is not zero. -/
theorem checkedFractionalPow_eq
    (F : RealFunctions) (hx : LowestTerms x) (hy : LowestTerms y) :
    checkedFractionalPow F x y = some (fractionalPow F x y) := by
  have hterms : LowestTerms (.ofScaled y.num) ∧ LowestTerms (.ofScaled y.den) := by
    obtain ⟨q, rfl⟩ := hy.exists_ofRat
    exact ⟨lowestTerms_ofInt q.num, lowestTerms_ofNat q.den⟩
  have hfloat : (do checkedOfFloat (F.pow (← x.checkedToFloat) (← y.checkedToFloat))) =
      some (ofFloat (F.pow x.toFloat y.toFloat)) := by
    rw [checkedToFloat_eq hx, checkedToFloat_eq hy]
    exact checkedOfFloat_eq _
  unfold checkedFractionalPow fractionalPow checkedExactPower?
  rw [checkedExponent?_eq hterms.1, checkedRootOrder?_eq hterms.2]
  simp only [Option.bind_eq_bind, Option.bind_some]
  cases exponent? (.ofScaled y.num) with
  | none => exact hfloat
  | some p =>
      cases horder : rootOrder? (.ofScaled y.den) with
      | none => exact hfloat
      | some q =>
          simp only [Option.bind_some]
          rw [checkedExactRoot?_eq hx (rootOrder?_pos horder)]
          cases hroot : x.exactRoot? q with
          | none => exact hfloat
          | some r =>
              obtain ⟨p', rfl⟩ := hx.exists_ofRat
              have hr := exactRoot?_lowestTerms (rootOrder?_pos horder) hroot
              exact checkedIntPow_eq hr.wellFormed F.log2 p

theorem checkedPow_eq
    (F : RealFunctions) (hx : LowestTerms x) (hy : LowestTerms y) :
    checkedPow F x y = some (pow F x y) := by
  unfold checkedPow pow
  split
  · rw [checkedExponent?_eq hy]
    simp only [Option.bind_eq_bind, Option.bind_some]
    cases exponent? y with
    | some n => exact checkedIntPow_eq hx.wellFormed F.log2 n
    | none => exact checkedHugePow_eq x hy
  split
  · rfl
  split
  · split <;> rfl
  · exact checkedFractionalPow_eq F hx hy

theorem checkedNthRoot_eq
    (F : RealFunctions) (hx : LowestTerms x) (hy : LowestTerms y) :
    checkedNthRoot F x y = some (nthRoot F x y) := by
  unfold checkedNthRoot nthRoot
  split
  · rfl
  rw [checkedRootOrder?_eq hy.abs]
  simp only [Option.bind_eq_bind, Option.bind_some]
  cases rootOrder? y.abs with
  | some k =>
      dsimp only
      rw [checkedRoot_eq hx]
      refine Checked.andThen_eq fun r hr => ?_
      split
      · exact checkedInv_eq (root_lowestTerms_of hx hr).wellFormed
      · rfl
  | none =>
      dsimp only
      rw [checkedInv_eq hy.wellFormed]
      exact Checked.andThen_eq fun z hz => checkedPow_eq F hx (lowestTerms_one.div hy hz)

/-! ### Logarithms, powers of ten and factorials -/

/-- Checked exact logarithm. -/
def checkedExactLog10? (x : Ratio) : Option (Option Int) :=
  if x.isNegative ∨ x.isZero then some none
  else do
    match zerosAfterOne? (← x.num.checkedToDigits 10) with
    | none => return none
    | some n =>
        match zerosAfterOne? (← x.den.checkedToDigits 10) with
        | none => return none
        | some d => return some ((n : Int) - d)

/-- Checked decimal logarithm. -/
def checkedLog10 (F : RealFunctions) (x : Ratio) : Option (Except CalcError Ratio) :=
  if x.isNegative ∨ x.isZero then some (.error (.domain .logarithmNotPositive))
  else do
    match ← checkedExactLog10? x with
    | some k => return .ok (.ofInt k)
    | none => checkedReal (fun t => .ok (F.log10 t)) x

/-- Checked exponent of an exact power of ten. -/
def checkedTenPowExponent? (x : Ratio) : Option (Option Int) :=
  if x.isInteger then do
    match ← x.abs.checkedToWord with
    | .ok n =>
        return if n.toNat ≤ tenPowLimit then
            some (if x.isNegative then -n.toNat else n.toNat) else none
    | .error _ => return none
  else some none

/-- Checked power of ten. -/
def checkedTenPow (F : RealFunctions) (x : Ratio) : Option (Except CalcError Ratio) := do
  match ← checkedTenPowExponent? x with
  | some k => (Ratio.ofInt 10).checkedIntPow F.log2 k
  | none => checkedReal (fun t => .ok (F.pow 10.0 t)) x

/-- Checked product of a range. -/
def checkedMulRange (acc : Ratio) (k : Nat) : Nat → Option Ratio
  | 0 => some acc
  | count + 1 => do checkedMulRange (← acc.checkedMul (.ofNat k)) (k + 1) count

/-- Checked factorial. -/
def checkedFactorial (x : Ratio) : Option (Except CalcError Ratio) :=
  if x.isNegative ∨ !x.isInteger then some (.error (.domain .factorialNotNatural))
  else
    Checked.andThen x.checkedToWord fun n =>
      if factorialLimit < n.toNat then some (.error .overflow)
      else (checkedMulRange .one 2 (n.toNat - 1)).map .ok

theorem checkedLog10_eq
    (F : RealFunctions) (hx : LowestTerms x) :
    checkedLog10 F x = some (log10 F x) := by
  have hexact : checkedExactLog10? x = some (exactLog10? x) := by
    unfold checkedExactLog10? exactLog10?
    split
    · rfl
    rw [ScaledNumber.checkedToDigits_eq (by decide) (by decide),
      ScaledNumber.checkedToDigits_eq (by decide) (by decide)]
    simp only [Option.bind_eq_bind, Option.bind_some]
    cases zerosAfterOne? (x.num.toDigits 10) with
    | none => rfl
    | some n => cases zerosAfterOne? (x.den.toDigits 10) <;> rfl
  unfold checkedLog10 log10
  split
  · rfl
  rw [hexact]
  cases exactLog10? x with
  | some k => rfl
  | none => exact checkedReal_ok F.log10 hx

theorem checkedTenPow_eq
    (F : RealFunctions) (hx : LowestTerms x) :
    checkedTenPow F x = some (tenPow F x) := by
  have hexponent : checkedTenPowExponent? x = some (tenPowExponent? x) := by
    unfold checkedTenPowExponent? tenPowExponent?
    split
    · rw [checkedToWord_eq hx.abs]
      simp only [Option.bind_eq_bind, Option.bind_some]
      cases x.abs.toWord <;> rfl
    · rfl
  unfold checkedTenPow tenPow
  rw [hexponent]
  cases tenPowExponent? x with
  | some k => exact checkedIntPow_eq (lowestTerms_ofInt 10).wellFormed F.log2 k
  | none => exact checkedReal_ok (F.pow 10.0) hx

theorem checkedMulRange_eq
    {acc : Ratio} (hacc : LowestTerms acc) (k count : Nat) :
    checkedMulRange acc k count = some (mulRange acc k count) := by
  induction count generalizing acc k with
  | zero => rfl
  | succ count ih =>
      rw [checkedMulRange, checkedMul_eq hacc.wellFormed (lowestTerms_ofNat k).wellFormed]
      exact ih (hacc.mul (lowestTerms_ofNat k)) (k + 1)

theorem checkedFactorial_eq
    (hx : LowestTerms x) :
    checkedFactorial x = some (factorial x) := by
  unfold checkedFactorial factorial
  split
  · rfl
  rw [checkedToWord_eq hx]
  cases x.toWord with
  | error e => rfl
  | ok n =>
      simp only [Checked.andThen]
      split
      · rfl
      · rw [checkedMulRange_eq lowestTerms_one]
        rfl

/-! ### All functions -/

/-- Checked value of a function or its inverse, before its size is checked. -/
def checkedValue (F : RealFunctions) (f : ScientificFunction) (x : Ratio) (inverse : Bool)
    (u : AngleUnit) : Option (Except CalcError Ratio) :=
  let outside : Except CalcError Float := .error (.domain .outsideUnitInterval)
  match f, inverse with
  | .sin, false =>
      checkedTurns (fun k => .ok (if k = 1 then .one else if k = 0 ∨ k = 2 then .zero
        else .ofInt (-1))) F.sin x u
  | .sin, true =>
      checkedReal (fun t => if inUnitInterval t then .ok (ofRadians (F.asin t) u) else outside) x
  | .cos, false =>
      checkedTurns (fun k => .ok (if k = 0 then .one else if k = 1 ∨ k = 3 then .zero
        else .ofInt (-1))) F.cos x u
  | .cos, true =>
      checkedReal (fun t => if inUnitInterval t then .ok (ofRadians (F.acos t) u) else outside) x
  | .tan, false =>
      checkedTurns (fun k => if k = 0 ∨ k = 2 then .ok .zero
        else .error (.domain .tangentUndefined)) F.tan x u
  | .tan, true => checkedReal (fun t => .ok (ofRadians (F.atan t) u)) x
  | .sinh, false => checkedReal (fun t => .ok (F.sinh t)) x
  | .sinh, true => checkedReal (fun t => .ok (F.asinh t)) x
  | .cosh, false => checkedReal (fun t => .ok (F.cosh t)) x
  | .cosh, true =>
      checkedReal (fun t => if t < 1.0 then .error (.domain .acoshBelowOne)
        else .ok (F.acosh t)) x
  | .tanh, false => checkedReal (fun t => .ok (F.tanh t)) x
  | .tanh, true =>
      checkedReal (fun t => if 1.0 ≤ t.abs then .error (.domain .atanhOutsideInterval)
        else .ok (F.atanh t)) x
  | .ln, false =>
      if x.isNegative ∨ x.isZero then some (.error (.domain .logarithmNotPositive))
      else if x.isOne then some (.ok .zero)
      else checkedReal (fun t => .ok (F.ln t)) x
  | .ln, true =>
      if x.isZero then some (.ok .one) else checkedReal (fun t => .ok (F.exp t)) x
  | .log, false | .tenPow, true => checkedLog10 F x
  | .log, true | .tenPow, false => checkedTenPow F x
  | .square, false | .sqrt, true => (x.checkedMul x).map .ok
  | .square, true | .sqrt, false => x.checkedRoot 2
  | .cube, false | .cbrt, true => x.checkedIntPow F.log2 3
  | .cube, true | .cbrt, false => x.checkedRoot 3
  | .reciprocal, _ => x.checkedInv
  | .factorial, _ => checkedFactorial x
  | .not, _ => (checkedWord (~~~·) x).map .ok

/-- Checked value of a function or its inverse, within the size limit. -/
def checkedApply (F : RealFunctions) (f : ScientificFunction) (x : Ratio) (inverse : Bool)
    (u : AngleUnit) : Option (Except CalcError Ratio) :=
  Checked.andThen (checkedValue F f x inverse u) fun r => some r.checkSize

theorem checkedValue_eq
    (F : RealFunctions) (f : ScientificFunction) (hx : LowestTerms x) (inverse : Bool)
    (u : AngleUnit) :
    checkedValue F f x inverse u = some (value F f x inverse u) := by
  have hsquare : (x.checkedMul x).map Except.ok = some (.ok (x * x) : Except CalcError Ratio) := by
    rw [checkedMul_eq hx.wellFormed hx.wellFormed]
    rfl
  have hnot : (checkedWord (~~~·) x).map Except.ok = some (.ok x.lnot : Except CalcError Ratio) := by
    rw [checkedWord_eq _ hx]
    rfl
  cases f with
  | sin => cases inverse with
    | false => exact checkedTurns_eq _ F.sin hx u
    | true => exact (checkedReal_guarded (fun t => ofRadians (F.asin t) u) _ hx).1
  | cos => cases inverse with
    | false => exact checkedTurns_eq _ F.cos hx u
    | true => exact (checkedReal_guarded (fun t => ofRadians (F.acos t) u) _ hx).1
  | tan => cases inverse with
    | false => exact checkedTurns_eq _ F.tan hx u
    | true => exact checkedReal_ok (fun t => ofRadians (F.atan t) u) hx
  | sinh => cases inverse with
    | false => exact checkedReal_ok F.sinh hx
    | true => exact checkedReal_ok F.asinh hx
  | cosh => cases inverse with
    | false => exact checkedReal_ok F.cosh hx
    | true => exact (checkedReal_guarded F.acosh _ hx).2
  | tanh => cases inverse with
    | false => exact checkedReal_ok F.tanh hx
    | true => exact (checkedReal_guarded F.atanh _ hx).2
  | ln => cases inverse with
    | false =>
        simp only [checkedValue, value, ln]
        split
        · rfl
        split
        · rfl
        · exact checkedReal_ok F.ln hx
    | true =>
        simp only [checkedValue, value, exp]
        split
        · rfl
        · exact checkedReal_ok F.exp hx
  | log => cases inverse with
    | false => exact checkedLog10_eq F hx
    | true => exact checkedTenPow_eq F hx
  | tenPow => cases inverse with
    | false => exact checkedTenPow_eq F hx
    | true => exact checkedLog10_eq F hx
  | square => cases inverse with
    | false => exact hsquare
    | true => exact checkedRoot_eq hx 2
  | sqrt => cases inverse with
    | false => exact checkedRoot_eq hx 2
    | true => exact hsquare
  | cube => cases inverse with
    | false => exact checkedIntPow_eq hx.wellFormed F.log2 3
    | true => exact checkedRoot_eq hx 3
  | cbrt => cases inverse with
    | false => exact checkedRoot_eq hx 3
    | true => exact checkedIntPow_eq hx.wellFormed F.log2 3
  | reciprocal => cases inverse <;> exact checkedInv_eq hx.wellFormed
  | factorial => cases inverse <;> exact checkedFactorial_eq hx
  | not => cases inverse <;> exact hnot

/-- Every function keeps within the domains of exact arithmetic. -/
theorem checkedApply_eq
    (F : RealFunctions) (f : ScientificFunction) (hx : LowestTerms x) (inverse : Bool)
    (u : AngleUnit) :
    checkedApply F f x inverse u = some (apply F f x inverse u) := by
  rw [checkedApply, checkedValue_eq F f hx]
  exact Checked.andThen_eq fun _ _ => rfl

end Scientific
end DeskCalculator
