import DeskCalculator.Proofs.Scientific.IntegerOrder

/-!
# Roots that vanish, and their reciprocals

A root of a negative order is the reciprocal of the root of the opposite order.
The exact root of a number that is not zero is not zero either.  A root that is
not exact has forty decimal places, and if the true root lies below the last of
them nothing is left of it.  Its reciprocal is then reported as undefined, as
that of the root of zero is.

**Results.**
* `VanishingRoot`: numbers of whose root nothing is left.
* `root_eq_zero_iff`: these and zero are the numbers whose root is zero.
* `nthRoot_small_inverted`: the root of a small order from the root of its absolute value.
* `small_orders_inverted`: when the root of a small order is undefined.
-/

namespace DeskCalculator

open Ratio

/--
A number that is not zero and no power of order `k`, and whose true root is
below one unit of the last decimal place.
-/
structure VanishingRoot (q : ℚ) (k : Nat) : Prop where
  ne_zero : q ≠ 0
  not_pow : ¬∃ x : ℚ, x ^ k = q
  below_place : |q| * 10 ^ (k * rootPlaces) < 1

namespace Ratio

variable {q : ℚ} {k : Nat} {s : Ratio}

/-- The exact root of a number is zero only if the number is. -/
theorem exactRoot?_eq_zero_iff
    (hk : 0 < k) (h : (ofRat q).exactRoot? k = some s) :
    s.toRat = 0 ↔ q = 0 := by
  obtain ⟨-, hroot⟩ := (exactRoot?_eq_some_iff hk s).mp h
  rw [← hroot.pow_eq, pow_eq_zero_iff hk.ne']

/-- The integer that the truncated root is made of is zero below one unit of the last place. -/
theorem TruncatedRoot.eq_zero_iff
    {places m : Nat} {x : ℚ} (h : TruncatedRoot q k places m x) (hq : q ≠ 0) :
    x = 0 ↔ |q| * 10 ^ (k * places) < 1 := by
  have hten : (10 : ℚ) ^ places ≠ 0 := by positivity
  have hsign : ((SignType.sign q : SignType) : ℚ) ≠ 0 := by
    rcases lt_or_gt_of_ne hq with hneg | hpos
    · rw [sign_neg hneg]
      norm_num
    · rw [sign_pos hpos]
      norm_num
  have hzero : x = 0 ↔ m = 0 := by
    rw [h.value_eq, div_eq_zero_iff, mul_eq_zero, Nat.cast_eq_zero]
    exact ⟨fun hor => (hor.resolve_right hten).resolve_left hsign, fun hm => Or.inl (Or.inr hm)⟩
  rw [hzero]
  constructor
  · intro hm
    have hlt := h.lt_pow
    rwa [hm, Nat.cast_zero, zero_add, one_pow] at hlt
  · intro hlt
    by_contra hm
    have hone : (1 : ℚ) ≤ m := by exact_mod_cast Nat.one_le_iff_ne_zero.mpr hm
    exact (one_le_pow₀ hone).not_gt (h.pow_le.trans_lt hlt)

/-- A root is zero if the number is, or if nothing is left of the true root. -/
theorem root_eq_zero_iff
    (hk : 0 < k) (h : (ofRat q).root k = .ok s) :
    s.toRat = 0 ↔ q = 0 ∨ VanishingRoot q k := by
  have hsign : ¬((ofRat q).toRat < 0 ∧ k % 2 = 0) := by
    rintro ⟨hneg, heven⟩
    have herror := (root_error_iff (lowestTerms_ofRat q) k (.domain .evenRootOfNegative)).mpr
      (Or.inr ⟨hk.ne', hneg, Nat.even_iff.mpr heven, rfl⟩)
    exact nomatch h.symm.trans herror
  rw [root_eq_of_admitted (lowestTerms_ofRat q) hk hsign] at h
  rw [← Except.ok.inj h]
  cases hexact : (ofRat q).exactRoot? k with
  | some t =>
      have hpow : ∃ x : ℚ, x ^ k = q := exists_pow_of_exactRoot? hk hexact
      rw [Option.getD_some, exactRoot?_eq_zero_iff hk hexact]
      exact ⟨Or.inl, fun hor => hor.resolve_right fun hvanishing => hvanishing.not_pow hpow⟩
  | none =>
      have hpow := (exactRoot?_eq_none_iff hk).mp hexact
      have hq : q ≠ 0 := by
        rintro rfl
        exact hpow ⟨0, zero_pow hk.ne'⟩
      obtain ⟨-, m, hm⟩ := truncatedRoot_spec (lowestTerms_ofRat q) hk rootPlaces
      rw [toRat_ofRat] at hm
      rw [Option.getD_none, hm.eq_zero_iff hq]
      exact ⟨fun hlt => Or.inr ⟨hq, hpow, hlt⟩, fun hor => (hor.resolve_left hq).below_place⟩

end Ratio

namespace Scientific

variable {F : RealFunctions} {q : ℚ} {n : Int} {x y : Ratio}

/-- A root of a small order, or the reciprocal of one, which a root of zero does not have. -/
theorem nthRoot_small_inverted
    (F : RealFunctions) (hn : n ≠ 0) (hsmall : n.natAbs ≤ rootOrderLimit) (hodd : q < 0 → Odd n) :
    ∃ v, (ofRat q).root n.natAbs = .ok (ofRat v) ∧
      nthRoot F (ofRat q) (ofInt n) =
        if n < 0 ∧ v = 0 then .error .divisionByZero
        else .ok (ofRat (if n < 0 then v⁻¹ else v)) := by
  have hadmitted : ¬((ofRat q).toRat < 0 ∧ n.natAbs % 2 = 0) := by
    rw [toRat_ofRat]
    rintro ⟨hneg, heven⟩
    have hnot := Nat.not_even_iff_odd.mpr (Int.natAbs_odd.mpr (hodd hneg))
    exact hnot (Nat.even_iff.mpr heven)
  have hroot := root_eq_of_admitted (lowestTerms_ofRat q) (Int.natAbs_pos.mpr hn) hadmitted
  obtain ⟨v, hv⟩ := (root_lowestTerms hroot).exists_ofRat
  rw [hv] at hroot
  refine ⟨v, hroot, ?_⟩
  rw [nthRoot_ofInt_small hn hsmall, hroot]
  show (if n < 0 then (ofRat v).inv else .ok (ofRat v)) = _
  by_cases hneg : n < 0
  · simp only [hneg, true_and, if_true, inv_ofRat]
  · simp only [hneg, false_and, if_false]

/--
The root of order `n` of `q`, from the root of order `|n|`.  It is undefined for a
negative order if the number is zero, or, as an exception, if nothing is left of
its root.
-/
structure InvertedRoot (q : ℚ) (n : Int) (root result : Except CalcError Ratio) : Prop where
  root_zero : ∀ s, root = .ok s → (s.toRat = 0 ↔ q = 0 ∨ VanishingRoot q n.natAbs)
  undefined : result = .error .divisionByZero ↔ n < 0 ∧ (q = 0 ∨ VanishingRoot q n.natAbs)
  returned : ¬(n < 0 ∧ (q = 0 ∨ VanishingRoot q n.natAbs)) →
    ∃ s r, root = .ok s ∧ result = .ok r ∧ Denotes r (if n < 0 then s.toRat⁻¹ else s.toRat)

/--
A root with a small order is undefined for a negative order of zero, and for a
negative order of a number of whose root nothing is left; else it is the root of
the absolute order, or the reciprocal of that.
-/
theorem small_orders_inverted
    (F : RealFunctions) (hx : LowestTerms x) (hy : LowestTerms y) (hvalue : y.toRat = n)
    (hone : 1 ≤ n.natAbs) (hsmall : n.natAbs ≤ 64) (hodd : x.toRat < 0 → Odd n) :
    checkedNthRoot F x y = some (nthRoot F x y) ∧
      InvertedRoot x.toRat n (x.root n.natAbs) (nthRoot F x y) := by
  refine ⟨checkedNthRoot_eq F hx hy, ?_⟩
  obtain ⟨q, rfl⟩ := hx.exists_ofRat
  obtain rfl := hy.eq_ofInt hvalue
  rw [toRat_ofRat] at hodd ⊢
  obtain ⟨v, hroot, hresult⟩ := nthRoot_small_inverted F (Int.natAbs_pos.mp hone) hsmall hodd
  have hzero := root_eq_zero_iff hone hroot
  rw [toRat_ofRat] at hzero
  constructor
  case root_zero =>
    intro s hs
    rw [← Except.ok.inj (hroot.symm.trans hs), toRat_ofRat, hzero]
  case undefined =>
    rw [hresult, ← hzero]
    split
    · rename_i hundefined
      exact iff_of_true rfl hundefined
    · rename_i hdefined
      exact iff_of_false nofun hdefined
  case returned =>
    intro hdefined
    rw [← hzero] at hdefined
    rw [if_neg hdefined] at hresult
    refine ⟨_, _, hroot, hresult, ?_⟩
    rw [toRat_ofRat]
    exact denotes_ofRat _

/-- The root of order `-3` of `-2 / 3` is returned. -/
theorem inverted_root_of_two_thirds :
    LowestTerms (ofRat (-2 / 3)) ∧ LowestTerms (ofInt (-3)) ∧
      (ofInt (-3)).toRat = ((-3 : Int) : ℚ) ∧ 1 ≤ (-3 : Int).natAbs ∧ (-3 : Int).natAbs ≤ 64 ∧
      Odd (-3 : Int) ∧ ∃ r, nthRoot .native (ofRat (-2 / 3)) (ofInt (-3)) = .ok r := by
  have hbase := lowestTerms_ofRat (-2 / 3)
  have horder := lowestTerms_ofInt (-3)
  have hvalue := toRat_ofInt (-3)
  have hodd : Odd (-3 : Int) := by decide
  have hinverted := (small_orders_inverted .native hbase horder hvalue (by decide) (by decide)
    (fun _ => hodd)).2
  have hdefined : ¬((-3 : Int) < 0 ∧ ((ofRat (-2 / 3)).toRat = 0 ∨
      VanishingRoot (ofRat (-2 / 3)).toRat (-3 : Int).natAbs)) := by
    rw [toRat_ofRat]
    rintro ⟨-, hzero | hvanishing⟩
    · norm_num at hzero
    · have hbelow := hvanishing.below_place
      norm_num [rootPlaces, abs_of_neg] at hbelow
  obtain ⟨-, r, -, hr, -⟩ := hinverted.returned hdefined
  exact ⟨hbase, horder, hvalue, by decide, by decide, hodd, r, hr⟩

/--
The root of order `-2` of `2 / 10 ^ 82` is reported as undefined, although the
number is above zero: nothing is left of its square root.
-/
theorem tiny_root_not_inverted :
    LowestTerms (ofRat (2 / 10 ^ 82)) ∧ LowestTerms (ofInt (-2)) ∧
      0 < (ofRat (2 / 10 ^ 82)).toRat ∧ (ofInt (-2)).toRat = ((-2 : Int) : ℚ) ∧
      (ofRat (2 / 10 ^ 82)).root 2 = .ok zero ∧
      nthRoot .native (ofRat (2 / 10 ^ 82)) (ofInt (-2)) = .error .divisionByZero := by
  have hvanishing : VanishingRoot (2 / 10 ^ 82) 2 := by
    constructor
    case ne_zero => norm_num
    case not_pow =>
      rintro ⟨x, hx⟩
      have hsquare : IsSquare (2 : ℚ) := ⟨x * 10 ^ 41, by linear_combination (-10 ^ 82) * hx⟩
      rw [← Nat.cast_ofNat, Rat.isSquare_natCast_iff] at hsquare
      exact Nat.prime_two.prime.not_isSquare hsquare
    case below_place => norm_num [rootPlaces, abs_of_pos]
  have hpos : (0 : ℚ) < 2 / 10 ^ 82 := by norm_num
  obtain ⟨v, hroot, hresult⟩ := nthRoot_small_inverted (q := 2 / 10 ^ 82) (n := -2) .native
    (by decide) (by decide) (fun hneg => absurd hneg hpos.not_gt)
  have hzero := (root_eq_zero_iff (by decide) hroot).mpr (Or.inr hvanishing)
  rw [toRat_ofRat] at hzero
  subst hzero
  rw [ofRat_zero] at hroot
  rw [toRat_ofRat]
  exact ⟨lowestTerms_ofRat _, lowestTerms_ofInt _, hpos, toRat_ofInt (-2), hroot, hresult⟩

end Scientific
end DeskCalculator
