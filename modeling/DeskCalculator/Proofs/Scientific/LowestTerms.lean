import DeskCalculator.Proofs.Ratio.LowestTerms
import DeskCalculator.Proofs.Ratio.Root
import DeskCalculator.Scientific.Apply

/-!
# Functions and powers give ratios in lowest terms

Where a result is exact it comes from operations that keep lowest terms; where
it comes from a binary64 number it is a decimal literal, which is simplified.

**Results.**
* `ofFloat_lowestTerms`: the ratio of a binary64 number.
* `pow_lowestTerms`, `nthRoot_lowestTerms`: powers and roots with any exponent.
* `rootOrder?_ofNat`, `nthRoot_ofInt_small`: roots of a small integer order.
* `apply_lowestTerms`: every function and every inverse of one.
-/

namespace DeskCalculator

open Ratio

namespace Scientific

/-- A binary64 number has a ratio in lowest terms, or it is too large. -/
theorem ofFloat_outcome
    (x : Float) :
    (∃ q, ofFloat x = .ok (ofRat q)) ∨ ofFloat x = .error .overflow := by
  rw [ofFloat, Ratio.ofFloatRounded]
  by_cases hfinite : (!x.isFinite) = true
  · rw [if_pos hfinite]
    exact Or.inr rfl
  rw [if_neg hfinite]
  by_cases hzero : (x == 0.0) = true
  · rw [if_pos hzero]
    exact Or.inl ⟨0, by rw [ofRat_zero]⟩
  rw [if_neg hzero]
  -- the digits are kept abstract, so that no step computes with the bits
  extract_lets b
  generalize b.roundDecimal (Nat.max keptDigits 1) = rounded
  obtain ⟨digits, scale⟩ := rounded
  dsimp only
  by_cases hlimit : DecimalLiteral.scaleLimit < scale.natAbs
  · rw [if_pos hlimit]
    exact Or.inr rfl
  · rw [if_neg hlimit]
    exact Or.inl ⟨_, by rw [ofMantissaScale_eq _ _ (by decide)]⟩

/-- The ratio of a binary64 number is in lowest terms. -/
theorem ofFloat_lowestTerms
    {x : Float} {r : Ratio} (h : ofFloat x = .ok r) :
    LowestTerms r := by
  obtain ⟨q, hq⟩ := (ofFloat_outcome x).resolve_right (fun he => nomatch h.symm.trans he)
  rw [← Except.ok.inj (hq.symm.trans h)]
  exact lowestTerms_ofRat q

theorem ofFloat_error
    {x : Float} {e : CalcError} (h : ofFloat x = .error e) :
    e = .overflow := by
  rcases ofFloat_outcome x with ⟨q, hq⟩ | he
  · exact nomatch h.symm.trans hq
  · exact Except.error.inj (h.symm.trans he)

/-! ### Powers and roots -/

theorem rootOrder?_pos
    {y : Ratio} {k : Nat} (h : rootOrder? y = some k) :
    0 < k := by
  unfold rootOrder? at h
  split at h
  · cases h
  split at h
  · cases h
  split at h
  · rename_i hbounds
    rw [← Option.some.inj h]
    exact hbounds.1
  · cases h

/-- The natural numbers that are orders of roots in exact arithmetic. -/
theorem rootOrder?_ofNat
    (k : Nat) :
    rootOrder? (ofNat k) = if 1 ≤ k ∧ k ≤ rootOrderLimit then some k else none := by
  have hneg : ¬(ofInt k).isNegative = true := by
    rw [isNegative_ofInt, not_lt]
    exact Int.natCast_nonneg k
  have hinteger := isInteger_ofInt k
  rw [ofInt_natCast] at hneg hinteger
  rw [rootOrder?, hinteger, if_neg (by simpa using hneg), toWord_ofNat]
  by_cases hword : k < 2 ^ 64
  · have htoNat : (UInt64.ofNat k).toNat = k := UInt64.toNat_ofNat_of_lt' hword
    rw [if_pos hword]
    simp only [htoNat]
  · have hlarge : ¬k ≤ rootOrderLimit := by
      rw [rootOrderLimit]
      omega
    rw [if_neg hword, if_neg (fun h => hlarge h.2)]

/-- A root of a small integer order; a negative order takes the reciprocal of the root. -/
theorem nthRoot_ofInt_small
    {F : RealFunctions} {x : Ratio} {n : Int} (hn : n ≠ 0) (hsmall : n.natAbs ≤ rootOrderLimit) :
    nthRoot F x (ofInt n) =
      (x.root n.natAbs).bind fun r => if n < 0 then r.inv else .ok r := by
  have hpos : 1 ≤ n.natAbs := Int.natAbs_pos.mpr hn
  rw [nthRoot, if_neg (mt (isZero_ofInt n).mp hn), abs_ofInt, rootOrder?_ofNat,
    if_pos ⟨hpos, hsmall⟩]
  simp only [isNegative_ofInt]
  rfl

theorem hugePow_lowestTerms
    {x y r : Ratio} (h : hugePow x y = .ok r) :
    LowestTerms r := by
  unfold hugePow at h
  split at h
  · rw [← Except.ok.inj h]
    exact lowestTerms_zero
  split at h
  · rw [← Except.ok.inj h]
    exact lowestTerms_one
  split at h
  · obtain ⟨parity, -, h⟩ := CalcError.bind_eq_ok_iff.mp h
    rw [← Except.ok.inj h]
    split
    · exact lowestTerms_one
    · exact lowestTerms_ofInt (-1)
  · cases h

/-- The power is that of an exact root, or that of binary64 numbers. -/
theorem fractionalPow_cases
    (F : RealFunctions) {x : Ratio} (hx : LowestTerms x) (y : Ratio) :
    (∃ r p, LowestTerms r ∧ fractionalPow F x y = r.intPow F.log2 p) ∨
      fractionalPow F x y = ofFloat (F.pow x.toFloat y.toFloat) := by
  unfold fractionalPow
  dsimp only
  split
  · rename_i root p hexact
    obtain ⟨q, rfl⟩ := hx.exists_ofRat
    simp only [Option.bind_eq_bind, Option.bind_eq_some_iff] at hexact
    obtain ⟨_, _, k, hk, s, hs, hpair⟩ := hexact
    simp only [pure, Option.some.injEq, Prod.mk.injEq] at hpair
    rw [← hpair.1]
    exact Or.inl ⟨s, p, exactRoot?_lowestTerms (rootOrder?_pos hk) hs, rfl⟩
  · exact Or.inr rfl

theorem fractionalPow_lowestTerms
    {F : RealFunctions} {x y r : Ratio} (hx : LowestTerms x)
    (h : fractionalPow F x y = .ok r) :
    LowestTerms r := by
  rcases fractionalPow_cases F hx y with ⟨root, p, hroot, hpow⟩ | hfloat
  · exact hroot.intPow (hpow.symm.trans h)
  · exact ofFloat_lowestTerms (hfloat.symm.trans h)

/-- Powers are in lowest terms. -/
theorem pow_lowestTerms
    {F : RealFunctions} {x y r : Ratio} (hx : LowestTerms x) (h : pow F x y = .ok r) :
    LowestTerms r := by
  unfold pow at h
  split at h
  · split at h
    · exact hx.intPow h
    · exact hugePow_lowestTerms h
  split at h
  · cases h
  split at h
  · split at h
    · cases h
    · rw [← Except.ok.inj h]
      exact lowestTerms_zero
  · exact fractionalPow_lowestTerms hx h

/-- Roots of any order are in lowest terms. -/
theorem nthRoot_lowestTerms
    {F : RealFunctions} {x y r : Ratio} (hx : LowestTerms x) (h : nthRoot F x y = .ok r) :
    LowestTerms r := by
  unfold nthRoot at h
  split at h
  · cases h
  split at h
  · rename_i k _
    obtain ⟨q, rfl⟩ := hx.exists_ofRat
    obtain ⟨s, hroot, h⟩ := CalcError.bind_eq_ok_iff.mp h
    split at h
    · exact lowestTerms_one.div (root_lowestTerms hroot) h
    · rw [← Except.ok.inj h]
      exact root_lowestTerms hroot
  · obtain ⟨s, -, h⟩ := CalcError.bind_eq_ok_iff.mp h
    exact pow_lowestTerms hx h

/-! ### Functions -/

/-- The values at whole quarter turns. -/
theorem lowestTerms_quarterTurn
    (p q : Prop) [Decidable p] [Decidable q] :
    LowestTerms (if p then .one else if q then .zero else .ofInt (-1)) := by
  split
  · exact lowestTerms_one
  split
  · exact lowestTerms_zero
  · exact lowestTerms_ofInt (-1)

theorem sin_lowestTerms
    {F : RealFunctions} {x r : Ratio} {u : AngleUnit} (h : sin F x u = .ok r) :
    LowestTerms r := by
  unfold sin at h
  split at h
  · rw [← Except.ok.inj h]
    exact lowestTerms_quarterTurn _ _
  · exact ofFloat_lowestTerms h

theorem cos_lowestTerms
    {F : RealFunctions} {x r : Ratio} {u : AngleUnit} (h : cos F x u = .ok r) :
    LowestTerms r := by
  unfold cos at h
  split at h
  · rw [← Except.ok.inj h]
    exact lowestTerms_quarterTurn _ _
  · exact ofFloat_lowestTerms h

theorem tan_lowestTerms
    {F : RealFunctions} {x r : Ratio} {u : AngleUnit} (h : tan F x u = .ok r) :
    LowestTerms r := by
  unfold tan at h
  split at h
  · split at h
    · rw [← Except.ok.inj h]
      exact lowestTerms_zero
    · cases h
  · exact ofFloat_lowestTerms h

theorem ln_lowestTerms
    {F : RealFunctions} {x r : Ratio} (h : ln F x = .ok r) :
    LowestTerms r := by
  unfold ln at h
  split at h
  · cases h
  split at h
  · rw [← Except.ok.inj h]
    exact lowestTerms_zero
  · exact ofFloat_lowestTerms h

theorem exp_lowestTerms
    {F : RealFunctions} {x r : Ratio} (h : exp F x = .ok r) :
    LowestTerms r := by
  unfold exp at h
  split at h
  · rw [← Except.ok.inj h]
    exact lowestTerms_one
  · exact ofFloat_lowestTerms h

theorem log10_lowestTerms
    {F : RealFunctions} {x r : Ratio} (h : log10 F x = .ok r) :
    LowestTerms r := by
  unfold log10 at h
  split at h
  · cases h
  split at h
  · rw [← Except.ok.inj h]
    exact lowestTerms_ofInt _
  · exact ofFloat_lowestTerms h

theorem tenPow_lowestTerms
    {F : RealFunctions} {x r : Ratio} (h : tenPow F x = .ok r) :
    LowestTerms r := by
  unfold tenPow at h
  split at h
  · exact (lowestTerms_ofInt 10).intPow h
  · exact ofFloat_lowestTerms h

theorem mulRange_lowestTerms
    {acc : Ratio} (hacc : LowestTerms acc) (k count : Nat) :
    LowestTerms (mulRange acc k count) := by
  induction count generalizing acc k with
  | zero =>
      exact hacc
  | succ count ih =>
      exact ih (hacc.mul (lowestTerms_ofNat k)) (k + 1)

theorem factorial_lowestTerms
    {x r : Ratio} (h : factorial x = .ok r) :
    LowestTerms r := by
  unfold factorial at h
  split at h
  · cases h
  split at h
  · cases h
  split at h
  · cases h
  · rw [← Except.ok.inj h]
    exact mulRange_lowestTerms lowestTerms_one _ _

/-- The functions that are defined on part of the binary64 numbers only. -/
theorem ofFloat_guarded_lowestTerms
    {c : Prop} [Decidable c] {x : Float} {e : CalcError} {r : Ratio}
    (h : (if c then ofFloat x else .error e) = .ok r) :
    LowestTerms r := by
  split at h
  · exact ofFloat_lowestTerms h
  · cases h

theorem ofFloat_refused_lowestTerms
    {c : Prop} [Decidable c] {x : Float} {e : CalcError} {r : Ratio}
    (h : (if c then .error e else ofFloat x) = .ok r) :
    LowestTerms r := by
  split at h
  · cases h
  · exact ofFloat_lowestTerms h

theorem root_lowestTerms_of
    {x r : Ratio} (hx : LowestTerms x) {k : Nat} (h : x.root k = .ok r) :
    LowestTerms r := by
  obtain ⟨q, rfl⟩ := hx.exists_ofRat
  exact root_lowestTerms h

/-- The value of a function or its inverse is in lowest terms. -/
theorem value_lowestTerms
    {F : RealFunctions} {f : ScientificFunction} {x r : Ratio} {inverse : Bool}
    {u : AngleUnit} (hx : LowestTerms x) (h : value F f x inverse u = .ok r) :
    LowestTerms r := by
  cases f with
  | sin => cases inverse with
    | false => exact sin_lowestTerms h
    | true => exact ofFloat_guarded_lowestTerms h
  | cos => cases inverse with
    | false => exact cos_lowestTerms h
    | true => exact ofFloat_guarded_lowestTerms h
  | tan => cases inverse with
    | false => exact tan_lowestTerms h
    | true => exact ofFloat_lowestTerms h
  | ln => cases inverse with
    | false => exact ln_lowestTerms h
    | true => exact exp_lowestTerms h
  | log => cases inverse with
    | false => exact log10_lowestTerms h
    | true => exact tenPow_lowestTerms h
  | tenPow => cases inverse with
    | false => exact tenPow_lowestTerms h
    | true => exact log10_lowestTerms h
  | sinh => cases inverse with
    | false => exact ofFloat_lowestTerms h
    | true => exact ofFloat_lowestTerms h
  | cosh => cases inverse with
    | false => exact ofFloat_lowestTerms h
    | true => exact ofFloat_refused_lowestTerms h
  | tanh => cases inverse with
    | false => exact ofFloat_lowestTerms h
    | true => exact ofFloat_refused_lowestTerms h
  | square => cases inverse with
    | false => exact Except.ok.inj h ▸ hx.mul hx
    | true => exact root_lowestTerms_of hx h
  | sqrt => cases inverse with
    | false => exact root_lowestTerms_of hx h
    | true => exact Except.ok.inj h ▸ hx.mul hx
  | cube => cases inverse with
    | false => exact hx.intPow h
    | true => exact root_lowestTerms_of hx h
  | cbrt => cases inverse with
    | false => exact root_lowestTerms_of hx h
    | true => exact hx.intPow h
  | reciprocal => cases inverse <;> exact lowestTerms_one.div hx h
  | factorial => cases inverse <;> exact factorial_lowestTerms h
  | not => cases inverse <;> exact Except.ok.inj h ▸ lowestTerms_ofNat _

/-- What a function key computes is the value of the function, if that is not too large. -/
theorem value_checkSize_of_apply
    {F : RealFunctions} {f : ScientificFunction} {x r : Ratio} {inverse : Bool}
    {u : AngleUnit} (h : apply F f x inverse u = .ok r) :
    value F f x inverse u = .ok r ∧ r.checkSize = .ok r := by
  obtain ⟨s, hvalue, hsize⟩ := CalcError.bind_eq_ok_iff.mp h
  obtain rfl := eq_of_checkSize hsize
  exact ⟨hvalue, hsize⟩

theorem apply_lowestTerms
    {F : RealFunctions} {f : ScientificFunction} {x r : Ratio} {inverse : Bool}
    {u : AngleUnit} (hx : LowestTerms x) (h : apply F f x inverse u = .ok r) :
    LowestTerms r :=
  value_lowestTerms hx (value_checkSize_of_apply h).1

end Scientific
end DeskCalculator
