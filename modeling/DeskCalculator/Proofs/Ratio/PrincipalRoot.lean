import DeskCalculator.Proofs.Ratio.LowestTerms
import DeskCalculator.Proofs.Ratio.Root

/-!
# Exact roots are complete

In lowest terms a ratio is a power exactly if both of its terms are, since the
terms of a power are the powers of the terms.  So the search for an exact root,
which takes the roots of the terms one by one, misses none.

**Results.**
* `PrincipalRoot`: the root that is taken, of the two there can be.
* `PrincipalRoot.exactRoot?_eq`: the principal root is found.
* `exists_pow_of_exactRoot?`: nothing is found of a number that is no power.
* `exact_roots_complete`: both together, for ratios in lowest terms.
-/

namespace DeskCalculator
namespace Ratio

variable {q x : ℚ} {k : Nat}

/-- The root `x` of order `k`: not below zero for an even order, with the sign of `q` for an odd one. -/
structure PrincipalRoot (q : ℚ) (k : Nat) (x : ℚ) : Prop where
  pow_eq : x ^ k = q
  even : Even k → 0 ≤ x
  odd : Odd k → SignType.sign x = SignType.sign q

/-! ### Roots of powers -/

theorem principalRoot_abs
    (hk : Even k) (x : ℚ) :
    PrincipalRoot (x ^ k) k |x| := by
  constructor
  case pow_eq => exact hk.pow_abs x
  case even => exact fun _ => abs_nonneg x
  case odd => exact fun hodd => absurd hk (Nat.not_even_iff_odd.mpr hodd)

theorem principalRoot_self
    (hk : Odd k) (x : ℚ) :
    PrincipalRoot (x ^ k) k x := by
  constructor
  case pow_eq => rfl
  case even => exact fun heven => absurd heven (Nat.not_even_iff_odd.mpr hk)
  case odd =>
    rintro -
    rcases lt_trichotomy x 0 with hneg | rfl | hpos
    · rw [sign_neg hneg, sign_neg (hk.pow_neg hneg)]
    · rw [zero_pow hk.pos.ne']
    · rw [sign_pos hpos, sign_pos (pow_pos hpos k)]

/-- A power has a principal root. -/
theorem exists_principalRoot
    (h : ∃ x : ℚ, x ^ k = q) :
    ∃ x, PrincipalRoot q k x := by
  obtain ⟨x, rfl⟩ := h
  rcases Nat.even_or_odd k with heven | hodd
  · exact ⟨|x|, principalRoot_abs heven x⟩
  · exact ⟨x, principalRoot_self hodd x⟩

namespace PrincipalRoot

theorem neg_iff
    (h : PrincipalRoot q k x) :
    x < 0 ↔ q < 0 := by
  rcases Nat.even_or_odd k with heven | hodd
  · have hq : 0 ≤ q := h.pow_eq ▸ heven.pow_nonneg x
    exact iff_of_false (h.even heven).not_gt hq.not_gt
  · rw [← sign_eq_neg_one_iff, h.odd hodd, sign_eq_neg_one_iff]

/-- An even order has no principal root of a number below zero. -/
theorem not_neg_even
    (h : PrincipalRoot q k x) :
    ¬(q < 0 ∧ k % 2 = 0) :=
  fun hneg => (h.even (Nat.even_iff.mpr hneg.2)).not_gt (h.neg_iff.mpr hneg.1)

/-- A root of odd order of the opposite. -/
theorem neg
    (h : PrincipalRoot q k x) (hk : Odd k) :
    PrincipalRoot (-q) k (-x) := by
  constructor
  case pow_eq => rw [hk.neg_pow, h.pow_eq]
  case even => exact fun heven => absurd heven (Nat.not_even_iff_odd.mpr hk)
  case odd => exact fun hodd => by rw [Left.sign_neg, Left.sign_neg, h.odd hodd]

/-- The root has the sign of the number. -/
theorem isNegative_eq
    (h : PrincipalRoot q k x) :
    (ofRat q).isNegative = (ofRat x).isNegative := by
  rw [Bool.eq_iff_iff, isNegative_ofRat, isNegative_ofRat, h.neg_iff]

/-- The principal root is found: the terms of a power are the powers of the terms. -/
theorem exactRoot?_eq
    (h : PrincipalRoot q k x) (hk : 0 < k) :
    (ofRat q).exactRoot? k = some (ofRat x) := by
  rcases eq_or_ne q 0 with rfl | hq
  · have hx : x = 0 := eq_zero_of_pow_eq_zero h.pow_eq
    rw [hx, exactRoot?, if_pos ((isZero_ofRat 0).mpr rfl), ofRat_zero]
  -- powers of coprime terms are coprime, so that nothing cancels in the power
  have hnum : q.num.natAbs = x.num.natAbs ^ k := by
    rw [← h.pow_eq, Rat.num_pow, Int.natAbs_pow]
  have hden : q.den = x.den ^ k := by
    rw [← h.pow_eq, Rat.den_pow]
  rw [exactRoot?_ofRat hq hk h.not_neg_even, hnum, hden, Nat.nthRoot_pow hk.ne',
    Nat.nthRoot_pow hk.ne', if_pos ⟨rfl, rfl⟩, mul_div_assoc, ← abs_eq_terms,
    h.isNegative_eq, signFactor_mul_abs]

end PrincipalRoot

/-! ### Exact roots -/

/-- A root is found only of a power. -/
theorem exists_pow_of_exactRoot?
    (hk : 0 < k) {s : Ratio} (h : (ofRat q).exactRoot? k = some s) :
    ∃ x : ℚ, x ^ k = q := by
  rcases exactRoot?_cases hk h with ⟨rfl, -⟩ | ⟨hsign, hnum, hden, -⟩
  · exact ⟨0, zero_pow hk.ne'⟩
  have habs : ((Nat.nthRoot k q.num.natAbs : ℚ) / Nat.nthRoot k q.den) ^ k = |q| := by
    rw [div_pow, abs_eq_terms, ← Nat.cast_pow, ← Nat.cast_pow, hnum, hden]
  -- the quotient of the roots has the absolute value for its power; the order is odd below zero
  by_cases hneg : q < 0
  · have hodd : Odd k := Nat.not_even_iff_odd.mp fun heven => hsign ⟨hneg, Nat.even_iff.mp heven⟩
    exact ⟨_, by rw [hodd.neg_pow, habs, abs_of_neg hneg, neg_neg]⟩
  · exact ⟨_, habs.trans (abs_of_nonneg (not_lt.mp hneg))⟩

/-- What is found is the principal root, in lowest terms. -/
theorem exactRoot?_eq_some_iff
    (hk : 0 < k) (s : Ratio) :
    (ofRat q).exactRoot? k = some s ↔ LowestTerms s ∧ PrincipalRoot q k s.toRat := by
  constructor
  · intro h
    obtain ⟨x, hx⟩ := exists_principalRoot (exists_pow_of_exactRoot? hk h)
    rw [hx.exactRoot?_eq hk] at h
    rw [← Option.some.inj h, toRat_ofRat]
    exact ⟨lowestTerms_ofRat x, hx⟩
  · rintro ⟨hs, hroot⟩
    rw [hroot.exactRoot?_eq hk, ← (lowestTerms_iff s).mp hs]

/-- Nothing is found only of a number that is no power. -/
theorem exactRoot?_eq_none_iff
    (hk : 0 < k) :
    (ofRat q).exactRoot? k = none ↔ ¬∃ x : ℚ, x ^ k = q := by
  rw [Option.eq_none_iff_forall_ne_some]
  constructor
  · intro h hpow
    obtain ⟨x, hx⟩ := exists_principalRoot hpow
    exact h _ (hx.exactRoot?_eq hk)
  · intro h s hs
    exact h (exists_pow_of_exactRoot? hk hs)

/-- An exact root of odd order changes its sign with the ratio. -/
theorem exactRoot?_ofRat_neg
    (q : ℚ) (hk : Odd k) :
    (ofRat (-q)).exactRoot? k = ((ofRat q).exactRoot? k).map Ratio.neg := by
  cases hroot : (ofRat q).exactRoot? k with
  | none =>
      rw [exactRoot?_eq_none_iff hk.pos] at hroot
      rw [Option.map_none, exactRoot?_eq_none_iff hk.pos]
      rintro ⟨x, hx⟩
      exact hroot ⟨-x, by rw [hk.neg_pow, hx, neg_neg]⟩
  | some s =>
      obtain ⟨hs, hprincipal⟩ := (exactRoot?_eq_some_iff hk.pos s).mp hroot
      obtain ⟨x, rfl⟩ := hs.exists_ofRat
      rw [toRat_ofRat] at hprincipal
      rw [(hprincipal.neg hk).exactRoot?_eq hk.pos, Option.map_some, ofRat_neg]

/--
The exact root of a ratio in lowest terms is its principal root, in lowest terms
as well; there is none exactly if the ratio is no power.  So a power gives its
base back, and the absolute value of it if the order is even.
-/
theorem exact_roots_complete
    {r : Ratio} (hr : LowestTerms r) (hk : 0 < k) :
    (∀ s, r.exactRoot? k = some s ↔ LowestTerms s ∧ PrincipalRoot r.toRat k s.toRat) ∧
      (r.exactRoot? k = none ↔ ¬∃ x : ℚ, x ^ k = r.toRat) ∧
      (r.toRat < 0 → Even k → r.exactRoot? k = none) ∧
      ∀ x, LowestTerms x → x.toRat ^ k = r.toRat →
        (Odd k → r.exactRoot? k = some x) ∧ (Even k → r.exactRoot? k = some x.abs) := by
  obtain ⟨q, rfl⟩ := hr.exists_ofRat
  rw [toRat_ofRat]
  refine ⟨exactRoot?_eq_some_iff hk, exactRoot?_eq_none_iff hk, ?_, ?_⟩
  · intro hneg heven
    rw [exactRoot?_eq_none_iff hk]
    rintro ⟨x, rfl⟩
    exact (heven.pow_nonneg x).not_gt hneg
  · intro s hs hpow
    obtain ⟨x, rfl⟩ := hs.exists_ofRat
    rw [toRat_ofRat] at hpow
    subst hpow
    rw [abs_ofRat]
    exact ⟨fun hodd => (principalRoot_self hodd x).exactRoot?_eq hk,
      fun heven => (principalRoot_abs heven x).exactRoot?_eq hk⟩

/-- The cube root of `-8 / 27`. -/
theorem exact_root_of_cube :
    LowestTerms (ofRat (-8 / 27)) ∧ 0 < 3 ∧
      (ofRat (-8 / 27)).exactRoot? 3 = some (ofRat (-2 / 3)) := by
  have hterms := lowestTerms_ofRat (-8 / 27)
  have hpow : (ofRat (-2 / 3)).toRat ^ 3 = (ofRat (-8 / 27)).toRat := by
    rw [toRat_ofRat, toRat_ofRat]
    norm_num
  exact ⟨hterms, by decide,
    ((exact_roots_complete hterms (by decide : 0 < 3)).2.2.2 _ (lowestTerms_ofRat _) hpow).1
      (by decide)⟩

end Ratio
end DeskCalculator
