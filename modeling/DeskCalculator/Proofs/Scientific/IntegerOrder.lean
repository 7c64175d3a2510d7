import DeskCalculator.Proofs.Checked.Scientific
import DeskCalculator.Proofs.Ratio.TruncatedRoot

/-!
# Roots with an integer order of any size

A root of an order up to 64 in absolute value is taken of the terms of the ratio;
one of odd order keeps the sign.  A root of a larger order is the power with the
reciprocal exponent, which is not an integer, and a power with such an exponent
is refused for every negative base, whether the order is even or odd.

**Results.**
* `nthRoot_ofInt_large`: a root of a large order is a power.
* `nthRoot_ofRat_neg`: roots of a small odd order of opposites are opposite.
* `RefusedOrder`, `nthRoot_domain_iff`: the orders outside the domain, with the reason.
* `integer_orders_classified`: which roots of an integer order are refused, and
  how those of opposites are related.
-/

namespace DeskCalculator

open Ratio

namespace Scientific

variable {F : RealFunctions} {q : ℚ} {n : Int} {x y : Ratio}

/-! ### Large orders -/

/-- A root of a large order is the power with the reciprocal exponent. -/
theorem nthRoot_ofInt_large
    (F : RealFunctions) (x : Ratio) (hlarge : rootOrderLimit < n.natAbs) :
    nthRoot F x (ofInt n) = pow F x (ofRat (n : ℚ)⁻¹) := by
  have hne : n ≠ 0 := Int.natAbs_pos.mp (Nat.zero_lt_of_lt hlarge)
  have hinv : (ofInt n).inv = .ok (ofRat (n : ℚ)⁻¹) := by
    rw [← ofRat_intCast, inv_ofRat, if_neg (Int.cast_ne_zero.mpr hne)]
  rw [nthRoot, if_neg (mt (isZero_ofInt n).mp hne), abs_ofInt, rootOrder?_ofNat,
    if_neg (fun h => h.2.not_gt hlarge), hinv]
  rfl

/-- The reciprocal of a large order is not an integer. -/
theorem pow_reciprocal
    (F : RealFunctions) (q : ℚ) (hlarge : 1 < n.natAbs) :
    pow F (ofRat q) (ofRat (n : ℚ)⁻¹) =
      if q < 0 then .error (.domain .powerOfNegative)
      else if q = 0 then if n < 0 then .error .divisionByZero else .ok zero
      else fractionalPow F (ofRat q) (ofRat (n : ℚ)⁻¹) := by
  have hne : (n : ℚ) ≠ 0 := Int.cast_ne_zero.mpr (Int.natAbs_pos.mp (Nat.zero_lt_of_lt hlarge))
  have hinteger : ¬(ofRat (n : ℚ)⁻¹).isInteger = true := by
    rw [isInteger_ofRat, Rat.den_inv_of_ne_zero hne, Rat.num_intCast]
    exact hlarge.ne'
  rw [pow, if_neg hinteger]
  simp only [isNegative_ofRat, isZero_ofRat, inv_lt_zero, Int.cast_lt_zero]

/-- A power with such an exponent is undefined or too large, but not outside the domain. -/
theorem fractionalPow_ne_domain
    (F : RealFunctions) (q : ℚ) (y : Ratio) (reason : DomainReason) :
    fractionalPow F (ofRat q) y ≠ .error (.domain reason) := by
  intro h
  rcases fractionalPow_cases F (lowestTerms_ofRat q) y with ⟨r, p, hr, hpow⟩ | hfloat
  · obtain ⟨v, rfl⟩ := hr.exists_ofRat
    rcases (intPow_outcome F.log2 v p).refused (hpow.symm.trans h) with he | ⟨he, -⟩
    · cases he
    · cases he
  · exact nomatch ofFloat_error (hfloat.symm.trans h)

theorem nthRoot_large_domain_iff
    (F : RealFunctions) (q : ℚ) (hlarge : rootOrderLimit < n.natAbs) (reason : DomainReason) :
    nthRoot F (ofRat q) (ofInt n) = .error (.domain reason) ↔
      q < 0 ∧ reason = .powerOfNegative := by
  have hone : 1 < n.natAbs := (by decide : 1 < rootOrderLimit).trans hlarge
  rw [nthRoot_ofInt_large F _ hlarge, pow_reciprocal F q hone]
  rcases lt_trichotomy q 0 with hneg | rfl | hpos
  · simp [hneg, eq_comm]
  · rw [if_neg (lt_irrefl _), if_pos rfl]
    refine iff_of_false ?_ (fun h => lt_irrefl _ h.1)
    split <;> exact nofun
  · rw [if_neg hpos.not_gt, if_neg hpos.ne']
    exact iff_of_false (fractionalPow_ne_domain F q _ reason) (fun h => hpos.not_gt h.1)

/-! ### Small orders -/

/-- A root of a small order is outside the domain as the root of the absolute order is. -/
theorem nthRoot_small_domain_iff
    (F : RealFunctions) (q : ℚ) (hn : n ≠ 0) (hsmall : n.natAbs ≤ rootOrderLimit)
    (reason : DomainReason) :
    nthRoot F (ofRat q) (ofInt n) = .error (.domain reason) ↔
      q < 0 ∧ Even n ∧ reason = .evenRootOfNegative := by
  have hpass : nthRoot F (ofRat q) (ofInt n) = .error (.domain reason) ↔
      (ofRat q).root n.natAbs = .error (.domain reason) := by
    rw [nthRoot_ofInt_small hn hsmall]
    cases hroot : (ofRat q).root n.natAbs with
    | error e => rfl
    | ok r =>
        obtain ⟨v, rfl⟩ := (root_lowestTerms hroot).exists_ofRat
        refine iff_of_false ?_ nofun
        show (if n < 0 then (ofRat v).inv else .ok (ofRat v)) ≠ _
        split
        · exact inv_ofRat_ne_domain v reason
        · exact nofun
  rw [hpass, root_error_iff (lowestTerms_ofRat q), toRat_ofRat, Int.natAbs_even]
  simp only [Int.natAbs_eq_zero, hn, false_and, false_or, ne_eq, not_false_eq_true, true_and,
    CalcError.domain.injEq]

/-- Roots of a small odd order of opposites are opposite, and refused alike. -/
theorem nthRoot_ofRat_neg
    (F : RealFunctions) (q : ℚ) (hodd : Odd n) (hsmall : n.natAbs ≤ rootOrderLimit) :
    nthRoot F (ofRat (-q)) (ofInt n) = (nthRoot F (ofRat q) (ofInt n)).map Ratio.neg := by
  have hn : n ≠ 0 := fun hzero => by simp [hzero] at hodd
  rw [nthRoot_ofInt_small hn hsmall, nthRoot_ofInt_small hn hsmall,
    root_ofRat_neg q (Int.natAbs_odd.mpr hodd)]
  cases hroot : (ofRat q).root n.natAbs with
  | error e => rfl
  | ok r =>
      obtain ⟨v, rfl⟩ := (root_lowestTerms hroot).exists_ofRat
      show (if n < 0 then (ofRat v).neg.inv else .ok (ofRat v).neg) =
        (if n < 0 then (ofRat v).inv else .ok (ofRat v)).map Ratio.neg
      rw [ofRat_neg, inv_ofRat_neg, ← ofRat_neg]
      split <;> rfl

/-- A root of a small positive order is returned, unless the order is even below zero. -/
theorem nthRoot_small_ok
    (F : RealFunctions) (q : ℚ) (hpos : 0 < n) (hsmall : n.natAbs ≤ rootOrderLimit)
    (hsign : q < 0 → Odd n) :
    ∃ r, nthRoot F (ofRat q) (ofInt n) = .ok r ∧ LowestTerms r := by
  have hadmitted : ¬((ofRat q).toRat < 0 ∧ n.natAbs % 2 = 0) := by
    rintro ⟨hneg, heven⟩
    rw [toRat_ofRat] at hneg
    have hodd := Int.natAbs_odd.mpr (hsign hneg)
    exact Nat.not_even_iff_odd.mpr hodd (Nat.even_iff.mpr heven)
  have hroot := root_eq_of_admitted (lowestTerms_ofRat q) (Int.natAbs_pos.mpr hpos.ne') hadmitted
  refine ⟨_, ?_, root_lowestTerms hroot⟩
  rw [nthRoot_ofInt_small hpos.ne' hsmall, hroot]
  exact if_neg hpos.not_gt

/-! ### One classification -/

/-- Why a root of order `n` of `q` is outside the domain. -/
inductive RefusedOrder (q : ℚ) (n : Int) : DomainReason → Prop
  | zero (hn : n = 0) :
      RefusedOrder q n .rootOrderZero
  | even (hq : q < 0) (hn : n ≠ 0) (heven : Even n) (hsmall : n.natAbs ≤ rootOrderLimit) :
      RefusedOrder q n .evenRootOfNegative
  | large (hq : q < 0) (hlarge : rootOrderLimit < n.natAbs) :
      RefusedOrder q n .powerOfNegative

theorem nthRoot_order_zero
    (F : RealFunctions) (x : Ratio) :
    nthRoot F x (ofInt 0) = .error (.domain .rootOrderZero) := by
  rw [nthRoot, if_pos ((isZero_ofInt 0).mpr rfl)]

/-- Each refusal has one reason, and nothing else is outside the domain. -/
theorem nthRoot_domain_iff
    (F : RealFunctions) (q : ℚ) (n : Int) (reason : DomainReason) :
    nthRoot F (ofRat q) (ofInt n) = .error (.domain reason) ↔ RefusedOrder q n reason := by
  constructor
  · intro h
    rcases eq_or_ne n 0 with rfl | hn
    · rw [nthRoot_order_zero] at h
      cases h
      exact .zero rfl
    rcases le_or_gt n.natAbs rootOrderLimit with hsmall | hlarge
    · obtain ⟨hq, heven, rfl⟩ := (nthRoot_small_domain_iff F q hn hsmall reason).mp h
      exact .even hq hn heven hsmall
    · obtain ⟨hq, rfl⟩ := (nthRoot_large_domain_iff F q hlarge reason).mp h
      exact .large hq hlarge
  · intro h
    cases h with
    | zero hn => rw [hn, nthRoot_order_zero]
    | even hq hn heven hsmall =>
        exact (nthRoot_small_domain_iff F q hn hsmall _).mpr ⟨hq, heven, rfl⟩
    | large hq hlarge => exact (nthRoot_large_domain_iff F q hlarge _).mpr ⟨hq, rfl⟩

theorem refusedOrder_iff :
    (∃ reason, RefusedOrder q n reason) ↔ n = 0 ∨ q < 0 ∧ (Even n ∨ rootOrderLimit < n.natAbs) := by
  constructor
  · rintro ⟨_, hrefused⟩
    cases hrefused with
    | zero hn => exact Or.inl hn
    | even hq _ heven => exact Or.inr ⟨hq, Or.inl heven⟩
    | large hq hlarge => exact Or.inr ⟨hq, Or.inr hlarge⟩
  · intro h
    rcases eq_or_ne n 0 with hzero | hne
    · exact ⟨_, .zero hzero⟩
    obtain ⟨hq, hn⟩ := h.resolve_left hne
    rcases le_or_gt n.natAbs rootOrderLimit with hsmall | hlarge
    · exact ⟨_, .even hq hne (hn.resolve_right hsmall.not_gt) hsmall⟩
    · exact ⟨_, .large hq hlarge⟩

/--
The root of order `n` of `q`, and the root of the same order of the opposite
number.  Zero is no order, and a number below zero has no root of an even order.
Orders beyond the limit are an exception: below zero the odd ones are refused
with the even ones.
-/
structure ClassifiedRoot (q : ℚ) (n : Int) (root opposite : Except CalcError Ratio) : Prop where
  refused : ∀ reason, root = .error (.domain reason) ↔ RefusedOrder q n reason
  refused_iff : (∃ reason, root = .error (.domain reason)) ↔
    n = 0 ∨ q < 0 ∧ (Even n ∨ rootOrderLimit < n.natAbs)
  opposite_eq : Odd n → n.natAbs ≤ rootOrderLimit → opposite = root.map Ratio.neg
  neg_eq : q < 0 → Odd n → ∀ r s, root = .ok r → opposite = .ok s → r = s.neg
  returned : 0 < n → n.natAbs ≤ rootOrderLimit → (q < 0 → Odd n) →
    ∃ r, root = .ok r ∧ LowestTerms r

/--
A root with an integer order of any size is classified, whichever way it goes;
it is computed by divisions that are defined.
-/
theorem integer_orders_classified
    (F : RealFunctions) (hx : LowestTerms x) (hy : LowestTerms y) (hn : y.toRat = n) :
    checkedNthRoot F x y = some (nthRoot F x y) ∧
      ClassifiedRoot x.toRat n (nthRoot F x y) (nthRoot F x.neg y) := by
  refine ⟨checkedNthRoot_eq F hx hy, ?_⟩
  obtain ⟨q, rfl⟩ := hx.exists_ofRat
  obtain rfl := hy.eq_ofInt hn
  rw [toRat_ofRat, ofRat_neg]
  constructor
  case refused => exact nthRoot_domain_iff F q n
  case refused_iff => simp only [nthRoot_domain_iff, refusedOrder_iff]
  case opposite_eq => exact fun hodd hsmall => nthRoot_ofRat_neg F q hodd hsmall
  case neg_eq =>
    intro hneg hodd r s hr hs
    rcases le_or_gt n.natAbs rootOrderLimit with hsmall | hlarge
    · obtain ⟨v, rfl⟩ := (nthRoot_lowestTerms (lowestTerms_ofRat q) hr).exists_ofRat
      rw [nthRoot_ofRat_neg F q hodd hsmall, hr] at hs
      rw [← Except.ok.inj hs, ofRat_neg, ofRat_neg, neg_neg]
    · have hrefused := (nthRoot_large_domain_iff F q hlarge _).mpr ⟨hneg, rfl⟩
      exact nomatch hr.symm.trans hrefused
  case returned => exact fun hpos hsmall hsign => nthRoot_small_ok F q hpos hsmall hsign

/-- The cube roots of `-2 / 3` and `2 / 3`. -/
theorem opposite_cube_roots :
    LowestTerms (ofRat (-2 / 3)) ∧ LowestTerms (ofInt 3) ∧ (ofInt 3).toRat = ((3 : Int) : ℚ) ∧
      ∃ r, nthRoot .native (ofRat (-2 / 3)) (ofInt 3) = .ok r ∧
        nthRoot .native (ofRat (-2 / 3)).neg (ofInt 3) = .ok r.neg := by
  have hbase := lowestTerms_ofRat (-2 / 3)
  have horder := lowestTerms_ofInt 3
  have hvalue := toRat_ofInt 3
  have hclassified := (integer_orders_classified .native hbase horder hvalue).2
  have hodd : Odd (3 : Int) := by decide
  obtain ⟨r, hr, -⟩ := hclassified.returned (by decide) (by decide) (fun _ => hodd)
  have hopposite := hclassified.opposite_eq hodd (by decide)
  rw [hr] at hopposite
  exact ⟨hbase, horder, hvalue, r, hr, hopposite⟩

/--
The root of order 65 of minus one is refused as a power of a number below zero,
although the order is odd and the root of order 63 is minus one.
-/
theorem odd_root_refused :
    LowestTerms (ofInt (-1)) ∧ LowestTerms (ofInt 65) ∧ (ofInt (-1)).toRat < 0 ∧
      (ofInt 65).toRat = ((65 : Int) : ℚ) ∧ Odd (65 : Int) ∧
      nthRoot .native (ofInt (-1)) (ofInt 65) = .error (.domain .powerOfNegative) ∧
      nthRoot .native (ofInt (-1)) (ofInt 63) = .ok (ofInt (-1)) := by
  have hminus : ofInt (-1) = ofRat (-1) := by
    rw [← ofRat_intCast, Int.cast_neg, Int.cast_one]
  have hroot : PrincipalRoot (-1) 63 (-1) := by
    have hodd := principalRoot_self (k := 63) (by decide) (-1)
    rwa [Odd.neg_one_pow (by decide)] at hodd
  refine ⟨lowestTerms_ofInt _, lowestTerms_ofInt _, ?_, toRat_ofInt 65, by decide, ?_, ?_⟩
  · rw [toRat_ofInt]
    norm_num
  · rw [hminus]
    exact (nthRoot_large_domain_iff .native (-1) (by decide) _).mpr ⟨by norm_num, rfl⟩
  · rw [hminus, nthRoot_ofInt_small (by decide) (by decide),
      root_eq_of_admitted (lowestTerms_ofRat _) (by decide) (fun h => absurd h.2 (by decide)),
      show (63 : Int).natAbs = 63 from rfl, hroot.exactRoot?_eq (by decide)]
    rfl

end Scientific
end DeskCalculator
