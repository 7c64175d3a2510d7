import DeskCalculator.Proofs.Ratio.DecimalGrammar

/-!
# Decimal texts of numerals

The text of a numeral in radix ten is a decimal literal of its parts.  So the
reader, within its limits, makes the ratio that they stand for.

**Results.**
* `Parts.Digital.derives`: the text is a literal.
* `ofDecimal?_signed_text`: a numeral within the limits is read exactly.
-/

namespace DeskCalculator

open DecimalLiteral

namespace Numeral

variable {p : Parts}

theorem Parts.mantissaText
    (p : Parts) :
    MantissaText p.mantissa p.whole p.fraction := by
  unfold Parts.mantissa
  split
  · rename_i hnil
    rw [hnil, List.append_nil]
    exact .whole _
  · exact .pointed _ _

/-- A written exponent of 64 bits is that of a literal. -/
theorem exponentText_exponentSuffix
    {e : Int} (hlow : -2 ^ 63 ≤ e) (hhigh : e < 2 ^ 63) :
    ExponentText (exponentSuffix 10 e) e :=
  .marked (.inl rfl) (signedInt?_eq_some_iff.mp (signedInt?_exponentDigits e)) hlow hhigh

/-- The text of a decimal numeral is a literal of its parts. -/
theorem Parts.Digital.derives
    (h : p.Digital 10) (hexponent : ∀ e ∈ p.exponent?, -2 ^ 63 ≤ e ∧ e < 2 ^ 63)
    (negative : Bool) :
    Derives (if negative then '-' :: p.text 10 else p.text 10)
      ⟨negative, p.whole, p.fraction, p.exponent?.getD 0⟩ := by
  have hsigned : (if negative then '-' :: p.text 10 else p.text 10) =
      (if negative then ['-'] else []) ++ p.text 10 := by
    cases negative <;> rfl
  have htext : ExponentText ((p.exponent?.map (exponentSuffix 10)).getD [])
      (p.exponent?.getD 0) := by
    cases he : p.exponent? with
    | none => exact .absent
    | some e =>
        obtain ⟨hlow, hhigh⟩ := hexponent e he
        exact exponentText_exponentSuffix hlow hhigh
  have hne : p.whole ++ p.fraction ≠ [] := by simp [h.whole_ne_nil]
  rw [hsigned]
  exact .of_parts (signText_minus negative) p.mantissaText htext hne
    (readable_ten_iff.mp h.digits)

end Numeral

namespace Ratio

open Numeral

/-- A numeral within the limits is read exactly. -/
theorem ofDecimal?_signed_text
    {p : Parts} (h : p.Digital 10) (hexponent : ∀ e ∈ p.exponent?, -2 ^ 63 ≤ e ∧ e < 2 ^ 63)
    (hscale : (p.exponent?.getD 0 - p.fraction.length).natAbs ≤ DecimalLiteral.scaleLimit)
    (negative : Bool) :
    ofDecimal? (if negative then '-' :: p.text 10 else p.text 10) =
      some (ofRat ((if negative then -1 else 1) * p.value 10)) := by
  refine ofDecimal?_eq_some_iff.mpr ⟨_, h.derives hexponent negative, hscale, congrArg ofRat ?_⟩
  exact (mul_assoc _ _ _).symm

end Ratio
end DeskCalculator
