import DeskCalculator.Proofs.Checked.ScaledNumber
import DeskCalculator.Proofs.Ratio.LowestTerms
import DeskCalculator.Ratio.Chop

/-!
# Checked arithmetic of ratios

A ratio is simplified by dividing its terms by their greatest common divisor,
which is not zero because the denominator is not.  A truncation divides by the
denominator, which in lowest terms is an integer above zero.  Quotients refuse a
divisor that is zero before they divide.

**Results.**
* `checkedSimplify_eq`: any well-formed pair.
* `checkedMod_eq`, `checkedChop_eq`, `checkedToWord_eq`: what truncates its operands.
* `checkedOfMantissaScale_eq`: the value of digits with a scale.
-/

namespace DeskCalculator

/-! ### Errors -/

namespace Checked

variable {α β : Type}

/-- Goes on with the value of a checked computation, unless it is an error. -/
def andThen (r : Option (Except CalcError α)) (f : α → Option (Except CalcError β)) :
    Option (Except CalcError β) :=
  match r with
  | none => none
  | some (.error e) => some (.error e)
  | some (.ok a) => f a

theorem andThen_eq
    {r : Except CalcError α} {f : α → Option (Except CalcError β)}
    {g : α → Except CalcError β} (h : ∀ a, r = .ok a → f a = some (g a)) :
    andThen (some r) f = some (r >>= g) := by
  cases r with
  | error e => rfl
  | ok a => exact h a rfl

end Checked

namespace Ratio

variable {a b r : Ratio}

/-! ### Lowest terms -/

/-- Both terms divided by a number. -/
def checkedReduce (r : Ratio) (g : ScaledNumber) : Option Ratio := do
  return ⟨← r.num.checkedQuot g, ← r.den.checkedQuot g⟩

/-- Checked simplification. -/
def checkedSimplify (r : Ratio) : Option Ratio :=
  if r.num.isZero then some zero
  else do
    let c := r.clearExponents
    let g ← c.num.checkedGcd c.den
    let d ← if g.isOne then some c else c.checkedReduce g
    return if d.den.isNegative then ⟨d.num.neg, d.den.neg⟩ else d

/-- Checked ratio of two numbers. -/
def checkedMake (num den : ScaledNumber) : Option (Except CalcError Ratio) :=
  if den.isZero then some (.error .divisionByZero)
  else (checkedSimplify ⟨num, den⟩).map .ok

/-- The terms are divided by a common divisor that is not zero. -/
theorem checkedSimplify_eq
    (hr : WellFormed r) :
    r.checkedSimplify = some r.simplify := by
  unfold checkedSimplify simplify
  split
  · rfl
  · obtain ⟨n, d, w, hw, hclear, -, hd⟩ := hr.clearExponents_spec
    have hdne : d ≠ 0 := by
      rintro rfl
      rw [Int.cast_zero, eq_comm, mul_eq_zero, or_iff_left hw] at hd
      exact hr.den_toRat_ne hd
    have hgcd : Int.gcd n d ≠ 0 := (Int.gcd_pos_of_ne_zero_right n hdne).ne'
    simp only [hclear, ScaledNumber.checkedGcd_ofInt, ScaledNumber.ofInt_gcd,
      Option.bind_eq_bind, Option.bind_some]
    split
    · rfl
    · rw [checkedReduce, ScaledNumber.checkedQuot_ofNat _ hgcd,
        ScaledNumber.checkedQuot_ofNat _ hgcd]
      rfl

theorem checkedMake_eq
    {n d : ScaledNumber} (hn : n.Canonical) (hd : d.Canonical) :
    checkedMake n d = some (make n d) := by
  unfold checkedMake make
  split
  · rfl
  · rename_i hzero
    have hne : d.toRat ≠ 0 := mt (ScaledNumber.isZero_iff hd).mpr hzero
    rw [checkedSimplify_eq (.mk_of_ne hn hd hne)]
    rfl

/-! ### Arithmetic -/

/-- Checked sum. -/
def checkedAdd (a b : Ratio) : Option Ratio :=
  if a.den = b.den then do checkedSimplify ⟨← a.num.checkedAdd b.num, a.den⟩
  else do
    let num ← (a.num * b.den).checkedAdd (b.num * a.den)
    checkedSimplify ⟨num, a.den * b.den⟩

/-- Checked difference. -/
def checkedSub (a b : Ratio) : Option Ratio := a.checkedAdd b.neg

/-- Checked product. -/
def checkedMul (a b : Ratio) : Option Ratio :=
  checkedSimplify ⟨a.num * b.num, a.den * b.den⟩

/-- Checked quotient. -/
def checkedDiv (a b : Ratio) : Option (Except CalcError Ratio) :=
  if b.isZero then some (.error .divisionByZero)
  else (checkedSimplify ⟨a.num * b.den, a.den * b.num⟩).map .ok

/-- Checked reciprocal. -/
def checkedInv (r : Ratio) : Option (Except CalcError Ratio) := one.checkedDiv r

theorem checkedAdd_eq
    (ha : WellFormed a) (hb : WellFormed b) :
    a.checkedAdd b = some (a + b) := by
  show _ = some (a.add b)
  unfold checkedAdd add
  split
  · rename_i hden
    rw [ScaledNumber.checkedAdd_eq ha.num hb.num]
    exact checkedSimplify_eq (ha.over_den hb hden).1
  · rw [ScaledNumber.checkedAdd_eq (ha.num.mul hb.den) (hb.num.mul ha.den)]
    exact checkedSimplify_eq (ha.cross hb).1

theorem checkedSub_eq
    (ha : WellFormed a) (hb : WellFormed b) :
    a.checkedSub b = some (a - b) :=
  checkedAdd_eq ha hb.neg

theorem checkedMul_eq
    (ha : WellFormed a) (hb : WellFormed b) :
    a.checkedMul b = some (a * b) :=
  checkedSimplify_eq (ha.product hb)

/-- A divisor that is zero is refused before anything is divided. -/
theorem checkedDiv_eq
    (ha : WellFormed a) (hb : WellFormed b) :
    a.checkedDiv b = some (a.div b) := by
  unfold checkedDiv div
  split
  · rfl
  · rename_i hne
    rw [checkedSimplify_eq (ha.quotient hb hne)]
    rfl

theorem checkedInv_eq
    (hr : WellFormed r) :
    r.checkedInv = some r.inv :=
  checkedDiv_eq lowestTerms_one.wellFormed hr

/-! ### Rounding -/

/-- Checked truncation. -/
def checkedTruncate (r : Ratio) : Option Ratio :=
  if r.isInteger then some r else (r.num.checkedQuot r.den).map ofScaled

/-- Checked rounding down. -/
def checkedFloor (r : Ratio) : Option Ratio :=
  if r.isInteger then some r
  else if r.isNegative then do (← r.checkedTruncate).checkedSub one
  else r.checkedTruncate

/-- Checked modulus. -/
def checkedMod (a b : Ratio) : Option (Except CalcError Ratio) :=
  Checked.andThen (a.checkedDiv b) fun q => do
    return .ok (← a.checkedSub (← b.checkedMul (← q.checkedFloor)))

/-- Checked chopping. -/
def checkedChop (r : Ratio) (bits : Nat) : Option Ratio := do
  let t ← r.checkedTruncate
  let rest ← t.checkedMod (ofScaled (.radixPow 2 bits))
  return rest.toOption.getD t

/-- The denominator divides, an integer above zero. -/
theorem checkedTruncate_eq
    (hr : LowestTerms r) :
    r.checkedTruncate = some r.truncate := by
  obtain ⟨q, rfl⟩ := hr.exists_ofRat
  unfold checkedTruncate truncate
  split
  · rfl
  · rw [show (ofRat q).den = .ofNat q.den from rfl,
      ScaledNumber.checkedQuot_ofNat _ q.den_ne_zero]
    rfl

theorem checkedFloor_eq
    (hr : LowestTerms r) :
    r.checkedFloor = some r.floor := by
  unfold checkedFloor floor
  split
  · rfl
  split
  · rw [checkedTruncate_eq hr]
    exact checkedSub_eq hr.truncate.wellFormed lowestTerms_one.wellFormed
  · exact checkedTruncate_eq hr

theorem checkedMod_eq
    (ha : LowestTerms a) (hb : LowestTerms b) :
    a.checkedMod b = some (a.mod b) := by
  rw [checkedMod, checkedDiv_eq ha.wellFormed hb.wellFormed]
  refine Checked.andThen_eq fun q hq => ?_
  have hfloor := (ha.div hb hq).floor
  rw [checkedFloor_eq (ha.div hb hq)]
  simp only [Option.bind_eq_bind, Option.bind_some]
  rw [checkedMul_eq hb.wellFormed hfloor.wellFormed]
  simp only [Option.bind_some]
  rw [checkedSub_eq ha.wellFormed (hb.mul hfloor).wellFormed]
  rfl

theorem checkedChop_eq
    (hr : LowestTerms r) (bits : Nat) :
    r.checkedChop bits = some (r.chop bits) := by
  have hpow : LowestTerms (ofScaled (.radixPow 2 bits)) := by
    rw [ofScaled_radixPow]
    exact lowestTerms_ofNat _
  rw [checkedChop, checkedTruncate_eq hr]
  simp only [Option.bind_eq_bind, Option.bind_some]
  rw [checkedMod_eq hr.truncate hpow]
  rfl

end Ratio

/-- Checked digits of the largest word. -/
def checkedMaxWordDigits (bits radix : Nat) : Option (List Char) := do
  (← (ScaledNumber.radixPow 2 bits).checkedSub .one).checkedToDigits radix

theorem checkedMaxWordDigits_eq
    {radix : Nat} (htwo : 2 ≤ radix) (hradix : radix ≤ 16) (bits : Nat) :
    checkedMaxWordDigits bits radix = some (maxWordDigits bits radix) := by
  have hpow : (ScaledNumber.radixPow 2 bits).Canonical := ScaledNumber.canonical_ofParts _ _ _
  rw [checkedMaxWordDigits, ScaledNumber.checkedSub_eq hpow ScaledNumber.canonical_one]
  exact ScaledNumber.checkedToDigits_eq htwo hradix _

namespace Ratio

variable {a b r : Ratio}

/-! ### Digits with a scale -/

/-- Checked value of digits with a scale. -/
def checkedOfMantissaScale (mantissa : ScaledNumber) (negative : Bool) (radix : Nat)
    (scale : Int) : Option Ratio :=
  let signed := if negative then mantissa.neg else mantissa
  let power := ScaledNumber.radixPow radix scale.natAbs
  if 0 ≤ scale then some (ofScaled (signed * power)) else checkedSimplify ⟨signed, power⟩

theorem checkedOfMantissaScale_eq
    {m : ScaledNumber} (hm : m.Canonical) (negative : Bool) {radix : Nat} (hradix : radix ≠ 0)
    (scale : Int) :
    checkedOfMantissaScale m negative radix scale =
      some (ofMantissaScale m negative radix scale) := by
  have hsigned : (if negative then m.neg else m).Canonical := by
    split
    · exact hm.neg
    · exact hm
  have hpow : (ScaledNumber.ofNat (radix ^ scale.natAbs)).toRat ≠ 0 := by
    rw [ScaledNumber.toRat_ofNat]
    exact_mod_cast (Nat.pow_pos (Nat.pos_of_ne_zero hradix)).ne'
  unfold checkedOfMantissaScale ofMantissaScale
  rw [ScaledNumber.radixPow_eq]
  dsimp only
  split
  · rfl
  · exact checkedSimplify_eq (.mk_of_ne hsigned (ScaledNumber.canonical_ofNat _) hpow)

/-! ### Words -/

/-- Checked word. -/
def checkedToWord (r : Ratio) : Option (Except CalcError UInt64) := do
  let t ← r.checkedTruncate
  return if t.isNegative then .error .overflow
    else
      match t.num.integerMagnitude.toWord? with
      | none => .error .overflow
      | some w => .ok w

/-- Checked truncation modulo `2 ^ 64`. -/
def checkedToWordMod (r : Ratio) : Option UInt64 := do
  let t ← r.checkedTruncate
  let low := t.num.integerMagnitude.lowWord
  return if t.isNegative then -low else low

/-- Checked function of a word. -/
def checkedWord (f : UInt64 → UInt64) (r : Ratio) : Option Ratio :=
  r.checkedToWordMod.map fun w => ofWord (f w)

/-- Checked function of two words. -/
def checkedWords (f : UInt64 → UInt64 → UInt64) (a b : Ratio) : Option Ratio := do
  return ofWord (f (← a.checkedToWordMod) (← b.checkedToWordMod))

theorem checkedToWord_eq
    (hr : LowestTerms r) :
    r.checkedToWord = some r.toWord := by
  rw [checkedToWord, checkedTruncate_eq hr]
  rfl

theorem checkedToWordMod_eq
    (hr : LowestTerms r) :
    r.checkedToWordMod = some r.toWordMod := by
  rw [checkedToWordMod, checkedTruncate_eq hr]
  rfl

theorem checkedWord_eq
    (f : UInt64 → UInt64) (hr : LowestTerms r) :
    checkedWord f r = some (ofWord (f r.toWordMod)) := by
  rw [checkedWord, checkedToWordMod_eq hr]
  rfl

theorem checkedWords_eq
    (f : UInt64 → UInt64 → UInt64) (ha : LowestTerms a) (hb : LowestTerms b) :
    checkedWords f a b = some (ofWord (f a.toWordMod b.toWordMod)) := by
  rw [checkedWords, checkedToWordMod_eq ha, checkedToWordMod_eq hb]
  rfl

end Ratio
end DeskCalculator
