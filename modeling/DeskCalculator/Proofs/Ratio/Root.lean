import DeskCalculator.Proofs.Ratio.Power
import DeskCalculator.Proofs.ScaledNumber.Root

/-!
# Roots of ratios

**Results.**
* `truncatedRoot_ofRat`: a root truncated at a number of decimal places.
* `exactRoot?_ofRat`, `root_ofNat`: exact roots, and roots of natural numbers.
* `root_lowestTerms`: roots are in lowest terms.
-/

namespace DeskCalculator
namespace Ratio

/-- The root truncated toward zero at a number of decimal places. -/
theorem truncatedRoot_ofRat
    (q : ℚ) {k : Nat} (hk : 0 < k) (places : Nat) :
    (ofRat q).truncatedRoot k places =
      ofRat (ScaledNumber.signFactor (ofRat q).isNegative *
        (Nat.nthRoot k (q.num.natAbs * 10 ^ (places * k) / q.den) : Nat) *
        (10 : ℚ) ^ (-(places : Int))) := by
  have htarget : ((ofRat q).num.abs * .radixPow 10 (places * k)).quot (ofRat q).den =
      .ofNat (q.num.natAbs * 10 ^ (places * k) / q.den) := by
    rw [abs_num_ofRat, ScaledNumber.radixPow_eq, ScaledNumber.ofNat_mul, ofRat,
      ScaledNumber.ofNat_quot]
  rw [truncatedRoot, htarget, ScaledNumber.rootFloor_eq _ hk]
  exact ofMantissaScale_eq _ _ (by decide) _

/-- The signed quotient of two natural numbers in lowest terms. -/
theorem make_signed
    (negative : Bool) (m : Nat) {d : Nat} (hd : d ≠ 0) :
    make (if negative then (ScaledNumber.ofNat m).neg else .ofNat m) (.ofNat d) =
      .ok (ofRat (ScaledNumber.signFactor negative * m / d)) := by
  have hdne : (ScaledNumber.ofNat d).toRat ≠ 0 := by
    rw [ScaledNumber.toRat_ofNat]
    exact_mod_cast hd
  have hnum : (if negative then (ScaledNumber.ofNat m).neg else .ofNat m).Canonical ∧
      (if negative then (ScaledNumber.ofNat m).neg else .ofNat m).toRat =
        ScaledNumber.signFactor negative * m := by
    cases negative <;> simp [ScaledNumber.signFactor]
  have hwf := WellFormed.mk_of_ne hnum.1 (ScaledNumber.canonical_ofNat d) hdne
  rw [make, ScaledNumber.isZero_ofNat, if_neg (by simpa using hd), hwf.simplify_eq, toRat,
    hnum.2, ScaledNumber.toRat_ofNat]

/-- A root is a ratio if both terms are powers of the order. -/
theorem exactRoot?_ofRat
    {q : ℚ} (hq : q ≠ 0) {k : Nat} (hk : 0 < k) (hsign : ¬(q < 0 ∧ k % 2 = 0)) :
    (ofRat q).exactRoot? k =
      if Nat.nthRoot k q.num.natAbs ^ k = q.num.natAbs ∧ Nat.nthRoot k q.den ^ k = q.den then
        some (ofRat (ScaledNumber.signFactor (ofRat q).isNegative *
          Nat.nthRoot k q.num.natAbs / Nat.nthRoot k q.den))
      else none := by
  have hsign' : ¬((ofRat q).isNegative = true ∧ k % 2 = 0) := by
    rwa [isNegative_ofRat]
  rw [exactRoot?, if_neg (mt (isZero_ofRat q).mp hq), if_neg hsign', abs_num_ofRat,
    ScaledNumber.exactRoot?_eq _ hk, show (ofRat q).den = .ofNat q.den from rfl,
    ScaledNumber.exactRoot?_eq _ hk]
  by_cases hnum : Nat.nthRoot k q.num.natAbs ^ k = q.num.natAbs
  · by_cases hden : Nat.nthRoot k q.den ^ k = q.den
    · have hne : Nat.nthRoot k q.den ≠ 0 := by
        intro hzero
        rw [hzero, Nat.zero_pow hk] at hden
        exact q.den_ne_zero hden.symm
      rw [if_pos hnum, if_pos hden, if_pos ⟨hnum, hden⟩]
      show (make _ _).toOption = _
      rw [make_signed _ _ hne]
      rfl
    · rw [if_pos hnum, if_neg hden, if_neg (fun h : _ ∧ _ => hden h.2)]
      rfl
  · rw [if_neg hnum, if_neg (fun h : _ ∧ _ => hnum h.1)]
    rfl

/-- A root that is found: that of zero, or the signed quotient of the roots of both terms. -/
theorem exactRoot?_cases
    {q : ℚ} {k : Nat} (hk : 0 < k) {s : Ratio} (h : (ofRat q).exactRoot? k = some s) :
    q = 0 ∧ s = ofRat 0 ∨
      ¬(q < 0 ∧ k % 2 = 0) ∧
        Nat.nthRoot k q.num.natAbs ^ k = q.num.natAbs ∧ Nat.nthRoot k q.den ^ k = q.den ∧
        s = ofRat (ScaledNumber.signFactor (ofRat q).isNegative *
          Nat.nthRoot k q.num.natAbs / Nat.nthRoot k q.den) := by
  rcases eq_or_ne q 0 with rfl | hq
  · rw [exactRoot?, if_pos ((isZero_ofRat 0).mpr rfl)] at h
    exact Or.inl ⟨rfl, by rw [ofRat_zero, Option.some.inj h]⟩
  by_cases hsign : q < 0 ∧ k % 2 = 0
  · rw [exactRoot?, if_neg (mt (isZero_ofRat q).mp hq), if_pos (by rwa [isNegative_ofRat])] at h
    cases h
  · rw [exactRoot?_ofRat hq hk hsign] at h
    split at h
    · rename_i hterms
      exact Or.inr ⟨hsign, hterms.1, hterms.2, (Option.some.inj h).symm⟩
    · cases h

/-- An exact root is in lowest terms. -/
theorem exactRoot?_lowestTerms
    {q : ℚ} {k : Nat} (hk : 0 < k) {r : Ratio} (h : (ofRat q).exactRoot? k = some r) :
    LowestTerms r := by
  rcases exactRoot?_cases hk h with ⟨-, rfl⟩ | ⟨-, -, -, rfl⟩
  · exact lowestTerms_ofRat 0
  · exact lowestTerms_ofRat _

/-- Roots are in lowest terms. -/
theorem root_lowestTerms
    {q : ℚ} {k : Nat} {r : Ratio} (h : (ofRat q).root k = .ok r) :
    LowestTerms r := by
  unfold root at h
  split at h
  · cases h
  rename_i hk
  split at h
  · cases h
  rw [← Except.ok.inj h]
  cases hexact : (ofRat q).exactRoot? k with
  | none =>
      rw [Option.getD_none, truncatedRoot_ofRat q (Nat.pos_of_ne_zero hk)]
      exact lowestTerms_ofRat _
  | some s => exact exactRoot?_lowestTerms (Nat.pos_of_ne_zero hk) hexact

/-! ### Roots of natural numbers -/

/-- The truncation of a truncated root is the root, rounded down. -/
theorem nthRoot_scaled_div
    (n places : Nat) {k : Nat} (hk : 0 < k) :
    Nat.nthRoot k (n * 10 ^ (places * k)) / 10 ^ places = Nat.nthRoot k n := by
  have hpow : 10 ^ (places * k) = (10 ^ places) ^ k := Nat.pow_mul _ _ _
  have hpos : 0 < 10 ^ places := Nat.pow_pos (by decide)
  apply eq_of_forall_le_iff
  intro c
  rw [Nat.le_div_iff_mul_le hpos, Nat.le_nthRoot_iff hk.ne', Nat.le_nthRoot_iff hk.ne', hpow,
    Nat.mul_pow]
  exact Nat.mul_le_mul_right_iff (Nat.pow_pos hpos)

theorem nthRoot_scaled_le
    (n places : Nat) {k : Nat} (hk : 0 < k) :
    Nat.nthRoot k (n * 10 ^ (places * k)) ≤ n * 10 ^ places := by
  rw [← Nat.pow_le_pow_iff_left hk.ne', Nat.mul_pow, ← Nat.pow_mul]
  exact (Nat.pow_nthRoot_le (Or.inl hk.ne')).trans
    (Nat.mul_le_mul_right _ (Nat.le_self_pow hk.ne' n))

theorem towardZero_div
    (a b : Nat) :
    towardZero (a / b) = (a / b : Nat) := by
  have hnonneg : 0 ≤ (a / b : ℚ) := div_nonneg (Nat.cast_nonneg a) (Nat.cast_nonneg b)
  rw [towardZero, Int.tdiv_eq_ediv_of_nonneg (Rat.num_nonneg.mpr hnonneg), ← Rat.floor_def',
    Rat.floor_natCast_div_natCast]
  rfl

/-- The terms of a quotient of natural numbers are not above them. -/
theorem terms_div_le
    (a : Nat) {b : Nat} (hb : b ≠ 0) :
    (a / b : ℚ).num.natAbs ≤ a ∧ (a / b : ℚ).den ≤ b := by
  have hdiv : (a / b : ℚ) = Rat.divInt a b := by
    rw [Rat.divInt_eq_div]
    push_cast
    rfl
  constructor
  · rcases Nat.eq_zero_or_pos a with rfl | ha
    · simp
    · have hdvd := Rat.num_dvd a (by exact_mod_cast hb : (b : Int) ≠ 0)
      rw [← hdiv, ← Int.natAbs_dvd_natAbs, Int.natAbs_natCast] at hdvd
      exact Nat.le_of_dvd ha hdvd
  · have hdvd := Rat.den_dvd a b
    rw [← hdiv] at hdvd
    exact Nat.le_of_dvd (Nat.pos_of_ne_zero hb) (by exact_mod_cast hdvd)

/-- A root of a natural number is a value whose truncation is the root, rounded down. -/
theorem root_ofNat
    (n : Nat) {k : Nat} (hk : 0 < k) :
    ∃ q : ℚ, (ofNat n).root k = .ok (ofRat q) ∧ towardZero q = Nat.nthRoot k n ∧
      q.num.natAbs ≤ n * 10 ^ rootPlaces ∧ q.den ≤ 10 ^ rootPlaces := by
  have hneg : (ofRat (n : ℚ)).isNegative = false :=
    (isNegative_ofRat_eq_false _).mpr (Nat.cast_nonneg n)
  have hroot : (ofNat n).root k =
      .ok (((ofRat n).exactRoot? k).getD ((ofRat n).truncatedRoot k rootPlaces)) := by
    rw [← ofRat_natCast, root, if_neg hk.ne', hneg, if_neg (by simp)]
  have hten : 10 ^ rootPlaces ≠ 0 := pow_ne_zero _ (by decide)
  rcases Nat.eq_zero_or_pos n with rfl | hn
  · refine ⟨0, ?_, ?_, ?_, ?_⟩
    · rw [hroot, Nat.cast_zero, exactRoot?, if_pos ((isZero_ofRat 0).mpr rfl), ofRat_zero]
      rfl
    · rw [Nat.nthRoot_zero_right hk.ne']
      rfl
    · simp
    · simpa using Nat.one_le_iff_ne_zero.mpr hten
  have hexact := exactRoot?_ofRat (q := n) (by exact_mod_cast hn.ne') hk
    (fun h => absurd h.1 (not_lt.mpr (Nat.cast_nonneg n)))
  rw [Rat.num_natCast, Rat.den_natCast, Int.natAbs_natCast, Nat.nthRoot_one_right, Nat.one_pow,
    hneg] at hexact
  by_cases hpower : Nat.nthRoot k n ^ k = n
  · refine ⟨Nat.nthRoot k n, ?_, towardZero_natCast _, ?_, ?_⟩
    · rw [hroot, hexact, if_pos ⟨hpower, rfl⟩]
      simp [ScaledNumber.signFactor]
    · rw [Rat.num_natCast, Int.natAbs_natCast]
      calc
        Nat.nthRoot k n ≤ Nat.nthRoot k n ^ k := Nat.le_self_pow hk.ne' _
        _ = n := hpower
        _ ≤ n * 10 ^ rootPlaces := Nat.le_mul_of_pos_right n (Nat.pos_of_ne_zero hten)
    · rw [Rat.den_natCast]
      exact Nat.one_le_iff_ne_zero.mpr hten
  · obtain ⟨hnum, hden⟩ := terms_div_le (Nat.nthRoot k (n * 10 ^ (rootPlaces * k))) hten
    refine ⟨_, ?_, ?_, hnum.trans (nthRoot_scaled_le n rootPlaces hk), hden⟩
    · rw [hroot, hexact, if_neg (fun h : _ ∧ _ => hpower h.1), Option.getD_none,
        truncatedRoot_ofRat _ hk, hneg, Rat.num_natCast, Rat.den_natCast, Int.natAbs_natCast,
        Nat.div_one, zpow_neg, zpow_natCast, ← div_eq_mul_inv]
      simp [ScaledNumber.signFactor]
    · rw [towardZero_div, nthRoot_scaled_div n rootPlaces hk]

end Ratio
end DeskCalculator
