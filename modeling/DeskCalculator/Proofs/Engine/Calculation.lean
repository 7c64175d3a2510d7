import DeskCalculator.Engine.Calculation
import DeskCalculator.Proofs.Ratio.Words
import DeskCalculator.Proofs.Scientific.LowestTerms

/-!
# What calculations result in

Operators and functions take ratios in lowest terms to ratios in lowest terms.
On words the result is then chopped, so that it is a word.

A mode of calculation keeps a property of values if operators and functions
take values with the property to values with it.  The property is closed if even
every adjusted result has it.  There are two closed properties: to be in lowest
terms, in either mode, and to be a word, on words.

**Results.**
* `binary_of_combine`: operators whose result is not too large.
* `closed_lowestTerms`, `closed_isWord`: the two closed properties.
* `Closed.binary`, `Closed.unary`: what operators and functions result in.
* `Closed.keeps`: closed properties are kept.
-/

namespace DeskCalculator

open Ratio

/-- An integer from zero below `2 ^ bits`. -/
def IsWord (bits : Nat) (v : Ratio) : Prop :=
  ∃ n < 2 ^ bits, v = .ofNat n

theorem IsWord.lowestTerms
    {bits : Nat} {v : Ratio} (h : IsWord bits v) :
    LowestTerms v := by
  obtain ⟨n, _, rfl⟩ := h
  exact lowestTerms_ofNat n

theorem isWord_zero
    (bits : Nat) :
    IsWord bits .zero := by
  refine ⟨0, Nat.two_pow_pos bits, ?_⟩
  rw [← ofRat_zero, ← ofRat_natCast, Nat.cast_zero]

/-- A chopped value is a word. -/
theorem isWord_chop
    {v : Ratio} (hv : LowestTerms v) (bits : Nat) :
    IsWord bits (v.chop bits) := by
  obtain ⟨q, rfl⟩ := hv.exists_ofRat
  have hpos : (0 : Int) < 2 ^ bits := by positivity
  obtain ⟨n, hn⟩ := Int.eq_ofNat_of_zero_le (Int.emod_nonneg (towardZero q) hpos.ne')
  refine ⟨n, ?_, ?_⟩
  · have hlt := Int.emod_lt_of_pos (towardZero q) hpos
    rw [hn] at hlt
    exact_mod_cast hlt
  · rw [chop_ofRat, hn, ofInt_natCast]

namespace CalculationMode

/-- A property that zero and every adjusted result have, and only ratios in lowest terms. -/
structure Closed (c : CalculationMode) (P : Ratio → Prop) : Prop where
  zero : P .zero
  lowestTerms : ∀ {v}, P v → LowestTerms v
  adjust : ∀ {v}, LowestTerms v → P (c.adjust v)

/-- A property that zero has and that negation, operators and functions keep. -/
structure Keeps (F : RealFunctions) (c : CalculationMode) (P : Ratio → Prop) : Prop where
  zero : P .zero
  neg : ∀ {v}, P v → P (c.adjust v.neg)
  adjust : ∀ {v}, P v → P (c.adjust v)
  binary : ∀ {op a b r}, P a → P b → c.binary F op a b = .ok r → P r
  unary : ∀ {f a inverse u r}, P a → c.unary F f a inverse u = .ok r → P r

theorem closed_lowestTerms
    (c : CalculationMode) :
    c.Closed LowestTerms where
  zero := lowestTerms_zero
  lowestTerms := id
  adjust := by
    intro v hv
    unfold adjust
    split
    · exact (isWord_chop hv c.bits).lowestTerms
    · exact hv

theorem closed_isWord
    {c : CalculationMode} (hc : c.onWords = true) :
    c.Closed (IsWord c.bits) where
  zero := isWord_zero c.bits
  lowestTerms := IsWord.lowestTerms
  adjust := by
    intro v hv
    unfold adjust
    rw [if_pos hc]
    exact isWord_chop hv c.bits

variable {F : RealFunctions} {c : CalculationMode} {P : Ratio → Prop} {a b r : Ratio}

/-- The result of an operator that is not too large. -/
theorem binary_of_combine
    (op : Operator) (h : c.combine F op a b = .ok r)
    (hsize : r.checkSize = .ok r) :
    c.binary F op a b = .ok (c.adjust r) := by
  rw [CalculationMode.binary, h]
  show (r.checkSize >>= fun v => pure (c.adjust v)) = _
  rw [hsize]
  rfl

/-- The result of an operator before it is adjusted is in lowest terms. -/
theorem combine_lowestTerms
    {op : Operator} (ha : LowestTerms a) (hb : LowestTerms b)
    (h : c.combine F op a b = .ok r) :
    LowestTerms r := by
  cases op with
  | add => exact Except.ok.inj h ▸ ha.add hb
  | sub => exact Except.ok.inj h ▸ ha.sub hb
  | mul => exact Except.ok.inj h ▸ ha.mul hb
  | div =>
      obtain ⟨q, hdiv, h⟩ := CalcError.bind_eq_ok_iff.mp h
      rw [← Except.ok.inj h]
      have hq := ha.div hb hdiv
      split
      · exact hq.truncate
      · exact hq
  | mod => exact ha.mod hb h
  | pow =>
      simp only [combine] at h
      split at h
      · exact Except.ok.inj h ▸ lowestTerms_ofNat _
      · exact Scientific.pow_lowestTerms ha h
  | root => exact Scientific.nthRoot_lowestTerms ha h
  | and | or | xor | shiftLeft | shiftRight => exact Except.ok.inj h ▸ lowestTerms_ofNat _

/-- A result is a combination of the operands, not too large, and adjusted. -/
theorem exists_combine_of_binary
    {op : Operator} (h : c.binary F op a b = .ok r) :
    ∃ s, c.combine F op a b = .ok s ∧ s.checkSize = .ok s ∧ r = c.adjust s := by
  obtain ⟨s, hcombine, hrest⟩ := CalcError.bind_eq_ok_iff.mp h
  obtain ⟨v, hsize, hadjust⟩ := CalcError.bind_eq_ok_iff.mp hrest
  obtain rfl := eq_of_checkSize hsize
  exact ⟨v, hcombine, hsize, (Except.ok.inj hadjust).symm⟩

theorem Closed.binary
    (hc : c.Closed P) {op : Operator} (ha : P a) (hb : P b)
    (h : c.binary F op a b = .ok r) :
    P r := by
  obtain ⟨s, hcombine, -, rfl⟩ := exists_combine_of_binary h
  exact hc.adjust (combine_lowestTerms (hc.lowestTerms ha) (hc.lowestTerms hb) hcombine)

theorem Closed.unary
    (hc : c.Closed P) {f : ScientificFunction} {inverse : Bool} {u : AngleUnit}
    (ha : P a) (h : c.unary F f a inverse u = .ok r) :
    P r := by
  unfold CalculationMode.unary at h
  split at h
  · rw [← Except.ok.inj h]
    exact hc.adjust (lowestTerms_ofNat _)
  · obtain ⟨s, happly, h⟩ := CalcError.bind_eq_ok_iff.mp h
    rw [← Except.ok.inj h]
    exact hc.adjust (Scientific.apply_lowestTerms (hc.lowestTerms ha) happly)

theorem Closed.keeps
    (hc : c.Closed P) :
    c.Keeps F P where
  zero := hc.zero
  neg hv := hc.adjust (hc.lowestTerms hv).neg
  adjust hv := hc.adjust (hc.lowestTerms hv)
  binary := hc.binary
  unary := hc.unary

end CalculationMode
end DeskCalculator
