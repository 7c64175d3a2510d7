import DeskCalculator.Proofs.Checked.Ratio
import DeskCalculator.Proofs.Ratio.Root

/-!
# Checked powers and roots of ratios

Integer roots are taken of the absolute value of a numerator, of a denominator,
and of the quotient of two numbers that are not negative.

**Results.**
* `checkedIntPow_eq`: powers with an integer exponent.
* `checkedExactRoot?_eq`, `checkedRoot_eq`: roots of any order but zero.
-/

namespace DeskCalculator
namespace Ratio

variable {r : Ratio}

/-! ### Powers -/

/-- Checked power. -/
def checkedIntPow (log2 : Float → Float) (r : Ratio) (n : Int) : Option (Except CalcError Ratio) :=
  if n = 0 then some (.ok one)
  else if r.isZero then some (if n < 0 then .error .divisionByZero else .ok zero)
  else
    Checked.andThen (if n < 0 then r.checkedInv else some (.ok r)) fun base =>
      some (if powerTooLarge log2 (base.num.abs.max base.den) n.natAbs then .error .overflow
        else .ok ⟨base.num.pow n.natAbs, base.den.pow n.natAbs⟩)

theorem checkedIntPow_eq
    (hr : WellFormed r) (log2 : Float → Float) (n : Int) :
    r.checkedIntPow log2 n = some (r.intPow log2 n) := by
  unfold checkedIntPow intPow
  split
  · rfl
  split
  · split <;> rfl
  · split
    · rw [checkedInv_eq hr]
      exact Checked.andThen_eq fun _ _ => rfl
    · exact Checked.andThen_eq fun _ _ => rfl

/-! ### Roots -/

/-- Checked exact root. -/
def checkedExactRoot? (r : Ratio) (k : Nat) : Option (Option Ratio) :=
  if r.isZero then some (some zero)
  else if r.isNegative ∧ k % 2 = 0 then some none
  else do
    match ← r.num.abs.checkedExactRoot? k with
    | none => return none
    | some n =>
        match ← r.den.checkedExactRoot? k with
        | none => return none
        | some d => return (← checkedMake (if r.isNegative then n.neg else n) d).toOption

/-- Checked truncated root. -/
def checkedTruncatedRoot (r : Ratio) (k places : Nat) : Option Ratio := do
  let target ← (r.num.abs * .radixPow 10 (places * k)).checkedQuot r.den
  checkedOfMantissaScale (← target.checkedRootFloor k) r.isNegative 10 (-places)

/-- Checked root. -/
def checkedRoot (r : Ratio) (k : Nat) : Option (Except CalcError Ratio) :=
  if k = 0 then some (.error (.domain .rootOrderZero))
  else if r.isNegative ∧ k % 2 = 0 then some (.error (.domain .evenRootOfNegative))
  else do
    match ← r.checkedExactRoot? k with
    | some s => return .ok s
    | none => return .ok (← r.checkedTruncatedRoot k rootPlaces)

theorem canonical_of_exactRoot?
    {n : Nat} {k : Nat} (hk : 0 < k) {s : ScaledNumber}
    (h : (ScaledNumber.ofNat n).exactRoot? k = some s) :
    s.Canonical := by
  rw [ScaledNumber.exactRoot?_eq n hk] at h
  split at h
  · rw [← Option.some.inj h]
    exact ScaledNumber.canonical_ofNat _
  · cases h

/-- The roots of the terms are those of natural numbers. -/
theorem checkedExactRoot?_eq
    (hr : LowestTerms r) {k : Nat} (hk : 0 < k) :
    r.checkedExactRoot? k = some (r.exactRoot? k) := by
  obtain ⟨q, rfl⟩ := hr.exists_ofRat
  unfold checkedExactRoot? exactRoot?
  split
  · rfl
  split
  · rfl
  rw [abs_num_ofRat, show (ofRat q).den = .ofNat q.den from rfl,
    ScaledNumber.checkedExactRoot?_eq _ hk, ScaledNumber.checkedExactRoot?_eq _ hk]
  cases hnum : (ScaledNumber.ofNat q.num.natAbs).exactRoot? k with
  | none => rfl
  | some n =>
      cases hden : (ScaledNumber.ofNat q.den).exactRoot? k with
      | none => rfl
      | some d =>
          have hn := canonical_of_exactRoot? hk hnum
          have hsigned : (if (ofRat q).isNegative then n.neg else n).Canonical := by
            split
            · exact hn.neg
            · exact hn
          simp only [Option.bind_eq_bind, Option.bind_some]
          rw [checkedMake_eq hsigned (canonical_of_exactRoot? hk hden)]
          rfl

/-- The scaled quotient of the terms is not negative. -/
theorem checkedTruncatedRoot_eq
    (hr : LowestTerms r) {k : Nat} (hk : 0 < k) (places : Nat) :
    r.checkedTruncatedRoot k places = some (r.truncatedRoot k places) := by
  obtain ⟨q, rfl⟩ := hr.exists_ofRat
  unfold checkedTruncatedRoot truncatedRoot
  rw [abs_num_ofRat, show (ofRat q).den = .ofNat q.den from rfl,
    ScaledNumber.checkedQuot_ofNat _ q.den_ne_zero, ScaledNumber.radixPow_eq,
    ScaledNumber.ofNat_mul, ScaledNumber.ofNat_quot]
  simp only [Option.bind_eq_bind, Option.bind_some]
  rw [ScaledNumber.checkedRootFloor_eq _ hk, ScaledNumber.rootFloor_eq _ hk]
  exact checkedOfMantissaScale_eq (ScaledNumber.canonical_ofNat _) _ (by decide) _

theorem checkedRoot_eq
    (hr : LowestTerms r) (k : Nat) :
    r.checkedRoot k = some (r.root k) := by
  unfold checkedRoot root
  split
  · rfl
  rename_i hk
  split
  · rfl
  rw [checkedExactRoot?_eq hr (Nat.pos_of_ne_zero hk)]
  cases r.exactRoot? k with
  | some s => rfl
  | none =>
      simp only [Option.bind_eq_bind, Option.bind_some]
      rw [checkedTruncatedRoot_eq hr (Nat.pos_of_ne_zero hk)]
      rfl

end Ratio
end DeskCalculator
