import DeskCalculator.Proofs.Checked.Ratio
import DeskCalculator.Proofs.Entry.Sound
import DeskCalculator.Proofs.Entry.Value

/-!
# Checked values and texts of a number being typed

The digits before and after the point are cut off at its index, which must not
be beyond the last digit; digits that cannot be read would make the number
zero, which is checked as well.

**Domains.**
* `checkedFractionLength`, `checkedMantissaText`: a point among the digits.
* `checkedValue`: digits that can be read.

**Results.**
* `Sound.checkedValue_eq`, `Sound.checkedText_eq`: a sound entry.
-/

namespace DeskCalculator

open Ratio

namespace Entry

/-! ### Domains -/

/-- Number of digits after the point, for a point among the digits. -/
def checkedFractionLength (e : Entry) : Option Nat :=
  match e.point with
  | none => some 0
  | some index => if e.digits.length < index then none else some (e.digits.length - index)

/-- The number typed, for digits that can be read. -/
def checkedValue (e : Entry) (radix : Nat) : Option Ratio :=
  if e.digits = [] then some .zero
  else
    match ScaledNumber.ofDigits? e.digits radix, e.exponentValue? radix with
    | some mantissa, some exponent => do
        checkedOfMantissaScale mantissa e.negative radix
          (exponent - (← e.checkedFractionLength))
    | _, _ => none

/-- The text of the mantissa without its sign, for a point among the digits. -/
def checkedMantissaText (e : Entry) (separator : List Char) : Option (List Char) :=
  if e.digits = [] then some ['0']
  else
    match e.point with
    | none => some e.digits
    | some index =>
        if e.digits.length < index then none
        else some (e.digits.take index ++ separator ++ e.digits.drop index)

/-- Checked text. -/
def checkedText (e : Entry) (separator : List Char) : Option (List Char) := do
  let mantissa ← e.checkedMantissaText separator
  return (if e.negative then ['-'] else []) ++ mantissa ++ exponentText e.exponent

namespace Sound

variable {rules : EntryRules} {e : Entry}

theorem checkedFractionLength_eq
    (h : Sound rules e) :
    e.checkedFractionLength = some e.fractionLength := by
  unfold Entry.checkedFractionLength fractionLength
  cases hpoint : e.point with
  | none => rfl
  | some index => exact if_neg (Nat.not_lt.mpr (h.point_le index hpoint))

/-- A sound entry has a value, which is not put in the place of digits that cannot be read. -/
theorem checkedValue_eq
    (h : Sound rules e) (hpos : 0 < rules.radix) (hradix : rules.radix ≤ 16) :
    e.checkedValue rules.radix = some (e.value rules.radix) := by
  obtain ⟨⟨m, hm⟩, z, hz⟩ := h.readable hpos hradix
  obtain ⟨n, rfl⟩ := ScaledNumber.exists_ofNat_of_ofDigits? hm
  unfold Entry.checkedValue value
  split
  · rfl
  · simp only [hm, hz, h.checkedFractionLength_eq, Option.bind_eq_bind, Option.bind_some]
    exact checkedOfMantissaScale_eq (ScaledNumber.canonical_ofNat n) _ hpos.ne' _

theorem checkedMantissaText_eq
    (h : Sound rules e) (separator : List Char) :
    e.checkedMantissaText separator = some (e.mantissaText separator) := by
  unfold Entry.checkedMantissaText mantissaText
  split
  · rfl
  · cases hpoint : e.point with
    | none => rfl
    | some index => exact if_neg (Nat.not_lt.mpr (h.point_le index hpoint))

/-- The text of a sound entry is cut at no index beyond its digits. -/
theorem checkedText_eq
    (h : Sound rules e) (separator : List Char) :
    e.checkedText separator = some (e.text separator) := by
  rw [Entry.checkedText, h.checkedMantissaText_eq]
  rfl

end Sound
end Entry
end DeskCalculator
