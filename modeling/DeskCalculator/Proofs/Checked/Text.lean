import DeskCalculator.Proofs.Checked.Ratio
import DeskCalculator.Proofs.Ratio.Rounding
import DeskCalculator.Ratio.Binary64
import DeskCalculator.Ratio.Text

/-!
# Checked rounding and texts of ratios

Significant digits are those of a quotient of natural numbers, the divisor the
denominator times a power of the radix.  The nearest binary64 number and the
rounded texts are made of significant digits.

**Results.**
* `checkedSignificand?_eq`: the significant digits.
* `checkedToFloat_eq`, `checkedOfFloatRounded_eq`: binary64 numbers.
* `checkedToText_eq`, `checkedTruncatedText_eq`: texts in any radix and style.
-/

namespace DeskCalculator
namespace Ratio

variable {r : Ratio} {radix : Nat}

/-! ### Significant digits -/

/-- Checked rounding of a quotient. -/
def checkedRoundQuotient (n d : ScaledNumber) : Option ScaledNumber := do
  let (q, r) ← n.checkedDivMod d
  if (← r.checkedAdd r).atLeast d then q.checkedAdd .one else some q

/-- Checked digits of a quotient. -/
def checkedRoundAt (n d : ScaledNumber) (radix precision : Nat) (e : Int) :
    Option Significand := do
  let (n', d') := scaleTerms n d radix (precision - 1 - e)
  let digits ← (← checkedRoundQuotient n' d').checkedToDigits radix
  return if precision < digits.length then ⟨digits.take precision, e + 1⟩ else ⟨digits, e⟩

/-- Checked significand. -/
def checkedSignificand? (r : Ratio) (radix precision : Nat) : Option (Option Significand) :=
  if r.isZero then some none
  else
    let n := r.num.abs
    let d := r.den.abs
    let start := estimateExponent n d radix
    (checkedRoundAt n d radix (Nat.max precision 1) (leadingExponent n d radix start)).map some

theorem checkedRoundQuotient_eq
    (n : Nat) {d : Nat} (hd : 0 < d) :
    checkedRoundQuotient (.ofNat n) (.ofNat d) = some (roundQuotient (.ofNat n) (.ofNat d)) := by
  have hdiv := ScaledNumber.checkedDivMod_ofInt (.ofNat n) (Int.natCast_ne_zero.mpr hd.ne')
  rw [ScaledNumber.ofInt_natCast] at hdiv
  unfold checkedRoundQuotient roundQuotient
  rw [hdiv, ScaledNumber.ofNat_divMod]
  simp only [Option.bind_eq_bind, Option.bind_some]
  rw [ScaledNumber.checkedAdd_eq (ScaledNumber.canonical_ofNat _)
    (ScaledNumber.canonical_ofNat _)]
  simp only [Option.bind_some]
  split
  · exact ScaledNumber.checkedAdd_eq (ScaledNumber.canonical_ofNat _) ScaledNumber.canonical_one
  · rfl

/-- A denominator above zero stays so when it is scaled. -/
theorem checkedRoundAt_eq
    (htwo : 2 ≤ radix) (hradix : radix ≤ 16) (n : Nat) {d : Nat} (hd : 0 < d) (precision : Nat)
    (e : Int) :
    checkedRoundAt (.ofNat n) (.ofNat d) radix precision e =
      some (roundAt (.ofNat n) (.ofNat d) radix precision e) := by
  obtain ⟨n', d', hterms, hd', -⟩ :=
    scaleTerms_ofNat (n := n) hd (by omega : 0 < radix) (precision - 1 - e)
  unfold checkedRoundAt roundAt roundScaled
  rw [hterms]
  simp only [Option.bind_eq_bind, checkedRoundQuotient_eq n' hd', Option.bind_some,
    ScaledNumber.checkedToDigits_eq htwo hradix]
  rfl

/-- The significant digits of a ratio in lowest terms. -/
theorem checkedSignificand?_eq
    (hr : LowestTerms r) (htwo : 2 ≤ radix) (hradix : radix ≤ 16) (precision : Nat) :
    r.checkedSignificand? radix precision = some (r.significand? radix precision) := by
  obtain ⟨q, rfl⟩ := hr.exists_ofRat
  unfold checkedSignificand? significand? significandFrom
  split
  · rfl
  · rw [abs_num_ofRat, abs_den_ofRat]
    dsimp only
    rw [checkedRoundAt_eq htwo hradix _ q.den_pos]
    rfl

/-! ### Binary64 numbers -/

/-- Checked nearest binary64 number. -/
def checkedToFloat (r : Ratio) : Option Float := do
  match ← r.checkedSignificand? 10 floatDigits with
  | none => return 0.0
  | some s =>
      let digits := (Magnitude.ofDigits? s.digits 10).getD []
      let x := nearestFloat digits.toNat (s.exponent - (s.digits.length - 1))
      return if r.isNegative then -x else x

/-- Checked ratio of a binary64 number. -/
def checkedOfFloatRounded (x : Float) (count : Nat) : Option (Except CalcError Ratio) :=
  if !x.isFinite then some (.error .overflow)
  else if x == 0.0 then some (.ok zero)
  else
    let b := BinaryFraction.ofBits x.toBits
    let (digits, scale) := b.roundDecimal (Nat.max count 1)
    if DecimalLiteral.scaleLimit < scale.natAbs then some (.error .overflow)
    else (checkedOfMantissaScale (.ofNat digits) b.negative 10 scale).map .ok

theorem checkedToFloat_eq
    (hr : LowestTerms r) :
    r.checkedToFloat = some r.toFloat := by
  unfold checkedToFloat toFloat
  rw [checkedSignificand?_eq hr (by decide) (by decide)]
  cases r.significand? 10 floatDigits <;> rfl

/-- Whatever the number is, its decimal digits are divided by a power of ten only. -/
theorem checkedOfFloatRounded_eq
    (x : Float) (count : Nat) :
    checkedOfFloatRounded x count = some (ofFloatRounded x count) := by
  unfold checkedOfFloatRounded ofFloatRounded
  split
  · rfl
  split
  · rfl
  -- the digits are kept abstract, so that no step computes with the bits
  extract_lets b
  generalize b.roundDecimal (Nat.max count 1) = rounded
  obtain ⟨digits, scale⟩ := rounded
  dsimp only
  split
  · rfl
  · rw [checkedOfMantissaScale_eq (ScaledNumber.canonical_ofNat _) _ (by decide)]
    rfl

/-! ### Texts -/

/-- Checked digits of an integer that fits in the precision. -/
def checkedShortDigits? (r : Ratio) (radix precision : Nat) : Option (Option (List Char)) :=
  if r.isInteger ∧ r.bitLength ≤ 4 * precision then
    (r.num.checkedToDigits radix).map fun digits =>
      if digits.length ≤ precision then some digits else none
  else some none

/-- Checked text by way of the rounded digits. -/
def checkedRoundedText (r : Ratio) (radix : Nat) (style : NumberStyle) (precision : Nat) :
    Option (List Char) :=
  (r.checkedSignificand? radix precision).map fun
    | none => ['0']
    | some s => Numeral.layout r.isNegative s.digits s.exponent radix style precision

/-- Checked text in a radix and style. -/
def checkedToText (r : Ratio) (radix : Nat) (style : NumberStyle) (precision : Nat) :
    Option (List Char) :=
  if r.isZero then some ['0']
  else do
    match ← (if style = .floating then r.checkedShortDigits? radix precision else some none) with
    | some digits => return signed r.isNegative digits
    | none => r.checkedRoundedText radix style precision

/-- Checked text of the truncation. -/
def checkedTruncatedText (r : Ratio) (radix : Nat) : Option (List Char) := do
  let t ← r.checkedTruncate
  return signed t.isNegative (← t.num.checkedToDigits radix)

theorem checkedShortDigits?_eq
    (htwo : 2 ≤ radix) (hradix : radix ≤ 16) (r : Ratio) (precision : Nat) :
    r.checkedShortDigits? radix precision = some (r.shortDigits? radix precision) := by
  unfold checkedShortDigits? shortDigits?
  split
  · rw [ScaledNumber.checkedToDigits_eq htwo hradix]
    rfl
  · rfl

theorem checkedRoundedText_eq
    (hr : LowestTerms r) (htwo : 2 ≤ radix) (hradix : radix ≤ 16) (style : NumberStyle)
    (precision : Nat) :
    r.checkedRoundedText radix style precision = some (r.roundedText radix style precision) := by
  unfold checkedRoundedText roundedText
  rw [checkedSignificand?_eq hr htwo hradix]
  rfl

theorem checkedToText_eq
    (hr : LowestTerms r) (htwo : 2 ≤ radix) (hradix : radix ≤ 16) (style : NumberStyle)
    (precision : Nat) :
    r.checkedToText radix style precision = some (r.toText radix style precision) := by
  have hshort : (if style = .floating then r.checkedShortDigits? radix precision else some none) =
      some (if style = .floating then r.shortDigits? radix precision else none) := by
    rw [checkedShortDigits?_eq htwo hradix]
    split <;> rfl
  unfold checkedToText toText
  rw [hshort]
  split
  · rfl
  · simp only [Option.bind_eq_bind, Option.bind_some]
    cases (if style = .floating then r.shortDigits? radix precision else none) with
    | some digits => rfl
    | none => exact checkedRoundedText_eq hr htwo hradix style precision

theorem checkedTruncatedText_eq
    (hr : LowestTerms r) (htwo : 2 ≤ radix) (hradix : radix ≤ 16) :
    r.checkedTruncatedText radix = some (r.truncatedText radix) := by
  rw [checkedTruncatedText, checkedTruncate_eq hr]
  simp only [Option.bind_eq_bind, Option.bind_some]
  rw [ScaledNumber.checkedToDigits_eq htwo hradix]
  rfl

end Ratio
end DeskCalculator
