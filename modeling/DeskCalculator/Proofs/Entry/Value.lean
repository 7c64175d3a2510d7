import DeskCalculator.Entry
import DeskCalculator.Proofs.Ratio.LowestTerms
import DeskCalculator.Proofs.ScaledNumber.Root

/-!
# The value of a number being typed

Whatever the digits, the point and the exponent are, the value is a ratio in
lowest terms.

**Results.**
* `Entry.value_lowestTerms`: the value in any radix but zero.
-/

namespace DeskCalculator

open Ratio

/-- Digits that can be read are a natural number. -/
theorem ScaledNumber.exists_ofNat_of_ofDigits?
    {digits : List Char} {radix : Nat} {m : ScaledNumber}
    (h : ofDigits? digits radix = some m) :
    ∃ n, m = ofNat n := by
  obtain ⟨magnitude, _, rfl⟩ := Option.map_eq_some_iff.mp h
  exact ⟨magnitude.toNat, ofMagnitude_eq magnitude⟩

namespace Entry

/-- The value of an entry is in lowest terms. -/
theorem value_lowestTerms
    (e : Entry) {radix : Nat} (hradix : radix ≠ 0) :
    LowestTerms (e.value radix) := by
  unfold value
  split
  · exact lowestTerms_zero
  split
  · rename_i mantissa exponent hmantissa _
    obtain ⟨n, rfl⟩ := ScaledNumber.exists_ofNat_of_ofDigits? hmantissa
    rw [ofMantissaScale_eq _ _ hradix]
    exact lowestTerms_ofRat _
  · exact lowestTerms_zero

end Entry
end DeskCalculator
