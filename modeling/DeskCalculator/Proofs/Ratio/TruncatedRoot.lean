import DeskCalculator.Proofs.Ratio.PrincipalRoot
import Mathlib.Algebra.Order.Floor.Semifield
import Mathlib.Analysis.SpecialFunctions.Pow.Real

/-!
# Truncated roots

A root that is not exact is the integer root of a quotient that has been rounded
down itself.  The powers that the integer root is compared with are integers, so
that the two roundings are one: the result is the true root, truncated toward
zero at the number of decimal places.

**Results.**
* `TruncatedRoot`: the root truncated at a number of places, by its two bounds.
* `truncatedRoot_spec`: such a root of any ratio in lowest terms.
* `roots_exact_or_truncated`: the root of every order, or its refusal.
-/

namespace DeskCalculator
namespace Ratio

variable {q : ℚ} {k places m : Nat}

/--
The number `x` is `± m / 10 ^ places` with the sign of `q`, where `m` is the root
of order `k` of the scaled absolute value, rounded down: the true root of the
absolute value is at least `m / 10 ^ places` and below `(m + 1) / 10 ^ places`.
-/
structure TruncatedRoot (q : ℚ) (k places m : Nat) (x : ℚ) : Prop where
  value_eq : x = SignType.sign q * m / 10 ^ places
  pow_le : (m : ℚ) ^ k ≤ |q| * 10 ^ (k * places)
  lt_pow : |q| * 10 ^ (k * places) < ((m : ℚ) + 1) ^ k
  floor_eq : m = ⌊((|q| : ℚ) : ℝ) ^ (k : ℝ)⁻¹ * 10 ^ places⌋₊

/-! ### One rounding for two -/

/-- The quotient by the denominator is the scaled absolute value, rounded down. -/
theorem floor_abs_mul_pow
    (q : ℚ) (e : Nat) :
    ⌊|q| * 10 ^ e⌋₊ = q.num.natAbs * 10 ^ e / q.den := by
  have hvalue : |q| * 10 ^ e = ((q.num.natAbs * 10 ^ e : Nat) : ℚ) / q.den := by
    rw [abs_eq_terms]
    push_cast
    ring
  rw [hvalue, Nat.floor_div_eq_div]

/-- The root of the rounded quotient is bounded by the quotient that is not rounded. -/
theorem nthRoot_floor_bounds
    (q : ℚ) (hk : 0 < k) (e : Nat) :
    ((Nat.nthRoot k (q.num.natAbs * 10 ^ e / q.den) : Nat) : ℚ) ^ k ≤ |q| * 10 ^ e ∧
      |q| * 10 ^ e < ((Nat.nthRoot k (q.num.natAbs * 10 ^ e / q.den) : Nat) + 1 : ℚ) ^ k := by
  have hnonneg : 0 ≤ |q| * 10 ^ e := by positivity
  rw [← floor_abs_mul_pow]
  constructor
  · have hle := Nat.pow_nthRoot_le (n := k) (a := ⌊|q| * 10 ^ e⌋₊) (Or.inl hk.ne')
    rw [Nat.le_floor_iff hnonneg] at hle
    exact_mod_cast hle
  · have hlt := Nat.lt_pow_nthRoot_add_one hk.ne' ⌊|q| * 10 ^ e⌋₊
    rw [Nat.floor_lt hnonneg] at hlt
    exact_mod_cast hlt

/-- The bounds in rational numbers pin the real root down. -/
theorem floor_root_eq
    (hk : 0 < k) (hle : (m : ℚ) ^ k ≤ |q| * 10 ^ (k * places))
    (hlt : |q| * 10 ^ (k * places) < ((m : ℚ) + 1) ^ k) :
    m = ⌊((|q| : ℚ) : ℝ) ^ (k : ℝ)⁻¹ * 10 ^ places⌋₊ := by
  have hq : (0 : ℝ) ≤ ((|q| : ℚ) : ℝ) := Rat.cast_nonneg.mpr (abs_nonneg q)
  have hroot := Real.rpow_inv_natCast_pow hq hk.ne'
  have hnonneg : (0 : ℝ) ≤ ((|q| : ℚ) : ℝ) ^ (k : ℝ)⁻¹ := Real.rpow_nonneg hq _
  generalize ((|q| : ℚ) : ℝ) ^ (k : ℝ)⁻¹ = root at *
  have hpow : (root * 10 ^ places) ^ k = ((|q| * 10 ^ (k * places) : ℚ) : ℝ) := by
    rw [mul_pow, hroot, ← pow_mul, mul_comm places]
    push_cast
    rfl
  have hscaled : 0 ≤ root * 10 ^ places := by positivity
  symm
  rw [Nat.floor_eq_iff hscaled]
  constructor
  · rw [← pow_le_pow_iff_left₀ (Nat.cast_nonneg m) hscaled hk.ne', hpow]
    exact_mod_cast hle
  · rw [← pow_lt_pow_iff_left₀ hscaled (by positivity) hk.ne', hpow]
    exact_mod_cast hlt

/-! ### Roots of ratios -/

/-- The sign of the number stands before its root, and the root of zero is zero. -/
theorem signFactor_mul_nthRoot
    (q : ℚ) (hk : 0 < k) (e : Nat) :
    ScaledNumber.signFactor (ofRat q).isNegative *
        (Nat.nthRoot k (q.num.natAbs * 10 ^ e / q.den) : Nat) =
      SignType.sign q * (Nat.nthRoot k (q.num.natAbs * 10 ^ e / q.den) : Nat) := by
  rcases lt_trichotomy q 0 with hneg | rfl | hpos
  · rw [(isNegative_ofRat q).mpr hneg, sign_neg hneg]
    simp [ScaledNumber.signFactor]
  · simp [Nat.nthRoot_zero_right hk.ne']
  · rw [(isNegative_ofRat_eq_false q).mpr hpos.le, sign_pos hpos]
    simp [ScaledNumber.signFactor]

/-- The truncated root of a ratio in lowest terms, itself in lowest terms. -/
theorem truncatedRoot_spec
    {r : Ratio} (hr : LowestTerms r) (hk : 0 < k) (places : Nat) :
    LowestTerms (r.truncatedRoot k places) ∧
      ∃ m, TruncatedRoot r.toRat k places m (r.truncatedRoot k places).toRat := by
  obtain ⟨q, rfl⟩ := hr.exists_ofRat
  obtain ⟨hle, hlt⟩ := nthRoot_floor_bounds q hk (k * places)
  rw [truncatedRoot_ofRat q hk places, Nat.mul_comm places, toRat_ofRat, toRat_ofRat,
    signFactor_mul_nthRoot q hk]
  generalize Nat.nthRoot k (q.num.natAbs * 10 ^ (k * places) / q.den) = m at *
  refine ⟨lowestTerms_ofRat _, m, ?_⟩
  constructor
  case value_eq => rw [zpow_neg, zpow_natCast, div_eq_mul_inv]
  case pow_le => exact hle
  case lt_pow => exact hlt
  case floor_eq => exact floor_root_eq hk hle hlt

/-- An order that the number has a root of. -/
theorem root_eq_of_admitted
    {r : Ratio} (hr : LowestTerms r) (hk : 0 < k) (hsign : ¬(r.toRat < 0 ∧ k % 2 = 0)) :
    r.root k = .ok ((r.exactRoot? k).getD (r.truncatedRoot k rootPlaces)) := by
  obtain ⟨q, rfl⟩ := hr.exists_ofRat
  rw [toRat_ofRat, ← isNegative_ofRat] at hsign
  rw [root, if_neg hk.ne', if_neg hsign]

/-- The orders that are refused, each with its reason. -/
theorem root_error_iff
    {r : Ratio} (hr : LowestTerms r) (k : Nat) (e : CalcError) :
    r.root k = .error e ↔
      k = 0 ∧ e = .domain .rootOrderZero ∨
        k ≠ 0 ∧ r.toRat < 0 ∧ Even k ∧ e = .domain .evenRootOfNegative := by
  obtain ⟨q, rfl⟩ := hr.exists_ofRat
  rw [root, toRat_ofRat, Nat.even_iff]
  split
  · rename_i hzero
    simp [hzero, eq_comm]
  rename_i hne
  split
  · rename_i hsign
    rw [isNegative_ofRat] at hsign
    simp [hne, hsign.1, hsign.2, eq_comm]
  · rename_i hsign
    rw [isNegative_ofRat] at hsign
    simp only [reduceCtorEq, hne, false_and, false_or, false_iff]
    exact fun h => hsign ⟨h.2.1, h.2.2.1⟩

/-! ### Opposites -/

/-- Truncation is toward zero, so that a truncated root changes its sign with the ratio. -/
theorem truncatedRoot_ofRat_neg
    (q : ℚ) (hk : 0 < k) (places : Nat) :
    (ofRat (-q)).truncatedRoot k places = ((ofRat q).truncatedRoot k places).neg := by
  rw [truncatedRoot_ofRat _ hk, truncatedRoot_ofRat _ hk, signFactor_mul_nthRoot _ hk,
    signFactor_mul_nthRoot _ hk, Rat.num_neg_eq_neg_num, Rat.den_neg_eq_den, Int.natAbs_neg,
    Left.sign_neg, SignType.coe_neg, neg_mul, neg_mul, ofRat_neg]

/-- A root of odd order changes its sign with the ratio. -/
theorem root_ofRat_neg
    (q : ℚ) (hk : Odd k) :
    (ofRat (-q)).root k = ((ofRat q).root k).map Ratio.neg := by
  have hodd : ¬k % 2 = 0 := mt Nat.even_iff.mpr (Nat.not_even_iff_odd.mpr hk)
  rw [root_eq_of_admitted (lowestTerms_ofRat _) hk.pos (fun h => hodd h.2),
    root_eq_of_admitted (lowestTerms_ofRat _) hk.pos (fun h => hodd h.2),
    exactRoot?_ofRat_neg q hk, truncatedRoot_ofRat_neg q hk.pos]
  cases (ofRat q).exactRoot? k <;> rfl

/-- The root of one order of a ratio: exact if it can be, else truncated, or refused. -/
structure RootOfOrder (r : Ratio) (k : Nat) : Prop where
  truncated : 0 < k → ∀ places, LowestTerms (r.truncatedRoot k places) ∧
    ∃ m, TruncatedRoot r.toRat k places m (r.truncatedRoot k places).toRat
  exact : 0 < k → (∃ x : ℚ, x ^ k = r.toRat) →
    ∃ s, r.root k = .ok s ∧ LowestTerms s ∧ PrincipalRoot r.toRat k s.toRat
  inexact : 0 < k → (r.toRat < 0 → Odd k) → (¬∃ x : ℚ, x ^ k = r.toRat) →
    r.root k = .ok (r.truncatedRoot k 40)
  refused : ∀ e, r.root k = .error e ↔
    k = 0 ∧ e = .domain .rootOrderZero ∨
      k ≠ 0 ∧ r.toRat < 0 ∧ Even k ∧ e = .domain .evenRootOfNegative

/--
The root of a ratio in lowest terms is its principal root if it is a power, and
else the true root truncated toward zero at 40 decimal places.  An order is
refused only if it is zero, or even for a number below zero.
-/
theorem roots_exact_or_truncated
    {r : Ratio} (hr : LowestTerms r) (k : Nat) :
    RootOfOrder r k := by
  constructor
  case truncated => exact fun hk places => truncatedRoot_spec hr hk places
  case exact =>
    intro hk hpow
    obtain ⟨x, hx⟩ := exists_principalRoot hpow
    have hfound := hx.exactRoot?_eq hk
    rw [← (lowestTerms_iff r).mp hr] at hfound
    refine ⟨ofRat x, ?_, lowestTerms_ofRat x, by rwa [toRat_ofRat]⟩
    rw [root_eq_of_admitted hr hk hx.not_neg_even, hfound]
    rfl
  case inexact =>
    intro hk hodd hpow
    have hsign : ¬(r.toRat < 0 ∧ k % 2 = 0) := fun h =>
      Nat.not_even_iff_odd.mpr (hodd h.1) (Nat.even_iff.mpr h.2)
    have hnone := (exactRoot?_eq_none_iff (q := r.toRat) hk).mpr hpow
    rw [← (lowestTerms_iff r).mp hr] at hnone
    rw [root_eq_of_admitted hr hk hsign, hnone]
    rfl
  case refused => exact root_error_iff hr k

/-- The cube root of `-2 / 3`, truncated toward zero at three places. -/
theorem root_of_two_thirds :
    LowestTerms (ofRat (-2 / 3)) ∧ RootOfOrder (ofRat (-2 / 3)) 3 ∧
      (ofRat (-2 / 3)).truncatedRoot 3 3 = ofRat (-873 / 1000) := by
  have hterms := lowestTerms_ofRat (-2 / 3)
  have hroot := roots_exact_or_truncated hterms 3
  obtain ⟨hlowest, m, hm⟩ := hroot.truncated (by decide) 3
  refine ⟨hterms, hroot, ?_⟩
  have hneg : (-2 / 3 : ℚ) < 0 := by norm_num
  have hpow := hm.pow_le
  have hnext := hm.lt_pow
  rw [toRat_ofRat, abs_of_neg hneg] at hpow hnext
  have hlow : (873 : ℚ) < m + 1 :=
    lt_of_pow_lt_pow_left₀ 3 (by positivity) (lt_trans (by norm_num) hnext)
  have hhigh : (m : ℚ) < 874 :=
    lt_of_pow_lt_pow_left₀ 3 (by norm_num) (hpow.trans_lt (by norm_num))
  have hm873 : m = 873 := by
    have hlow' : 873 < m + 1 := by exact_mod_cast hlow
    have hhigh' : m < 874 := by exact_mod_cast hhigh
    omega
  rw [(lowestTerms_iff _).mp hlowest, hm.value_eq, toRat_ofRat, sign_neg hneg, hm873]
  norm_num

end Ratio
end DeskCalculator
