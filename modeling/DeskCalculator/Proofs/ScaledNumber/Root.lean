import DeskCalculator.Proofs.Loop
import DeskCalculator.Proofs.ScaledNumber.Arithmetic
import DeskCalculator.ScaledNumber.Root
import Mathlib.Analysis.SpecialFunctions.Pow.NthRootLemmas

/-!
# Integer roots by Newton's method

An iterate from any start above zero is not below the root, so that the descent
from a start above the root stays above it; where it stops falling, the iterate
is not above the root either.

**Results.**
* `rootStep_eq`: an iterate in natural numbers.
* `loopEnds_rootDescent`: the descent ends, since the iterates fall.
* `rootDescent_eq`: it ends at the root, rounded down.
* `rootFloorFrom_eq`, `rootFloor_eq`: so does the search from any candidate.
* `exactRoot?_eq`: exact roots.
-/

namespace DeskCalculator
namespace ScaledNumber

/-- A magnitude as a number. -/
theorem ofMagnitude_eq
    (m : Magnitude) :
    ofMagnitude m = ofNat m.toNat :=
  (canonical_ofParts false 0 m).eq_of_toRat_eq (canonical_ofNat _) (by
    simp [signFactor])

/-! ### Iterates -/

/-- An iterate in natural numbers. -/
theorem rootStep_eq
    (n k x : Nat) :
    rootStep (ofNat n) k (ofNat x) = ofNat (((k - 1) * x + n / x ^ (k - 1)) / k) := by
  rw [rootStep, ofNat_pow, ofNat_quot, ofNat_mul, ofNat_add, ofNat_quot]

/-- An iterate is not below the root. -/
theorem lt_rootStep_succ_pow
    {n k x : Nat} (hk : 0 < k) (hx : 0 < x) :
    n < (((k - 1) * x + n / x ^ (k - 1)) / k + 1) ^ k := by
  obtain ⟨j, rfl⟩ := Nat.exists_eq_add_of_le' hk
  rw [Nat.add_sub_cancel, Nat.add_comm (j * x)]
  exact Nat.nthRoot.lt_pow_go_succ_aux hx.ne'

/-- An iterate of a number above zero is above zero. -/
theorem rootStep_pos
    {n k x : Nat} (hk : 0 < k) (hn : 0 < n) (hx : 0 < x) :
    0 < ((k - 1) * x + n / x ^ (k - 1)) / k := by
  have hstep := lt_rootStep_succ_pow (n := n) hk hx
  by_contra hzero
  rw [Nat.eq_zero_of_not_pos hzero, Nat.zero_add, Nat.one_pow] at hstep
  omega

/-- Where the iterates stop falling, the last one is not above the root. -/
theorem pow_le_of_le_rootStep
    {n k x : Nat} (hk : 0 < k) (h : x ≤ ((k - 1) * x + n / x ^ (k - 1)) / k) :
    x ^ k ≤ n := by
  obtain ⟨j, rfl⟩ := Nat.exists_eq_add_of_le' hk
  rw [Nat.add_sub_cancel, Nat.le_div_iff_mul_le (by omega), Nat.mul_succ, Nat.mul_comm x j] at h
  have hquot : x ≤ n / x ^ j := by omega
  rw [Nat.pow_succ, Nat.mul_comm]
  exact Nat.mul_le_of_le_div _ _ _ hquot

/-- The descent stops at the first iterate that the next one is not below. -/
theorem loopEnds_rootDescent
    (n k x : Nat) :
    LoopEnds (fun y => (rootStep (ofNat n) k y).atLeast y = false) (rootStep (ofNat n) k)
      (ofNat x) (rootDescent (ofNat n) k (ofNat x)) := by
  induction x using Nat.strongRecOn with
  | ind x ih =>
      rw [rootDescent]
      simp only [rootStep_eq, integerMagnitude_ofNat]
      have hnext := rootStep_eq n k x
      generalize ((k - 1) * x + n / x ^ (k - 1)) / k = y at *
      have hlt : (Magnitude.ofNat y).compare (Magnitude.ofNat x) = .lt ↔ y < x := by
        rw [(Magnitude.normalized_ofNat y).compare_eq_lt (Magnitude.normalized_ofNat x),
          Magnitude.toNat_ofNat, Magnitude.toNat_ofNat]
      have hcontinues : (rootStep (ofNat n) k (ofNat x)).atLeast (ofNat x) = false ↔ y < x := by
        rw [hnext, ← Bool.not_eq_true, atLeast_ofNat, not_le]
      split
      · rename_i h
        refine .step (hcontinues.mpr (hlt.mp h)) ?_
        rw [hnext]
        exact ih y (hlt.mp h)
      · rename_i h
        exact .stop (mt hcontinues.mp (mt hlt.mpr h))

/-- The descent from above ends at the root. -/
theorem rootDescent_eq
    {n k x : Nat} (hk : 0 < k) (hn : 0 < n) (hx : 0 < x) (hup : n < (x + 1) ^ k) :
    rootDescent (ofNat n) k (ofNat x) = ofNat (Nat.nthRoot k n) := by
  have hloop := loopEnds_rootDescent n k x
  obtain ⟨y, hy, -, hyup⟩ := hloop.invariant
    (P := fun z => ∃ y : Nat, z = ofNat y ∧ 0 < y ∧ n < (y + 1) ^ k)
    (by
      rintro _ - ⟨y, rfl, hypos, -⟩
      exact ⟨_, rootStep_eq n k y, rootStep_pos hk hn hypos, lt_rootStep_succ_pow hk hypos⟩)
    ⟨x, rfl, hx, hup⟩
  have hexit := hloop.exit
  rw [hy, rootStep_eq, Bool.not_eq_false, atLeast_ofNat] at hexit
  rw [hy, Nat.nthRoot_eq_of_le_of_lt (pow_le_of_le_rootStep hk hexit) hyup]

/-! ### Starts -/

/-- The start is not below the root, and not zero either, even if the candidate is. -/
theorem rootStart_spec
    {n k : Nat} (hk : 0 < k) (hn : 0 < n) (candidate : Nat) :
    ∃ x, rootStart (ofNat n) k (ofNat candidate) = ofNat x ∧ 0 < x ∧ n < (x + 1) ^ k := by
  unfold rootStart
  split
  · rename_i h
    rw [ofNat_pow, atLeast_ofNat] at h
    have hpos : 0 < candidate := by
      refine Nat.pos_of_ne_zero fun hzero => ?_
      rw [hzero, Nat.zero_pow hk] at h
      omega
    exact ⟨candidate, rfl, hpos,
      h.trans_lt (Nat.pow_lt_pow_left (Nat.lt_succ_self _) hk.ne')⟩
  · refine ⟨2 ^ (((ofNat n).bitLength + k - 1) / k), ?_, Nat.two_pow_pos _, ?_⟩
    · rw [ofMagnitude_eq, Magnitude.toNat_shiftLeft]
      simp
    · have hbits : n < 2 ^ (ofNat n).bitLength := by
        have h := bitLength_ofInt_le_iff n (ofNat n).bitLength
        rw [ofInt_natCast, Int.natAbs_natCast] at h
        exact h.mp le_rfl
      have hexp : (ofNat n).bitLength ≤ ((ofNat n).bitLength + k - 1) / k * k := by
        have := Nat.div_add_mod' ((ofNat n).bitLength + k - 1) k
        have := Nat.mod_lt ((ofNat n).bitLength + k - 1) hk
        omega
      calc
        n < 2 ^ (ofNat n).bitLength := hbits
        _ ≤ 2 ^ (((ofNat n).bitLength + k - 1) / k * k) := Nat.pow_le_pow_right (by decide) hexp
        _ = (2 ^ (((ofNat n).bitLength + k - 1) / k)) ^ k := Nat.pow_mul _ _ _
        _ ≤ (2 ^ (((ofNat n).bitLength + k - 1) / k) + 1) ^ k :=
          Nat.pow_le_pow_left (Nat.le_succ _) k

/-- The candidate is a natural number, whatever the estimate. -/
theorem exists_rootCandidate
    (n : ScaledNumber) (k : Nat) :
    ∃ x, rootCandidate n k = ofNat x :=
  ⟨_, ofMagnitude_eq _⟩

/-! ### Roots -/

/-- The search from any candidate ends at the root. -/
theorem rootFloorFrom_eq
    (n : Nat) {k : Nat} (hk : 0 < k) (candidate : Nat) :
    rootFloorFrom (ofNat n) k (ofNat candidate) = ofNat (Nat.nthRoot k n) := by
  unfold rootFloorFrom
  rw [isZero_ofNat]
  split
  · rename_i h
    rcases h with hzero | hone
    · rw [decide_eq_true_iff] at hzero
      rw [hzero, Nat.nthRoot_zero_right hk.ne']
    · rw [show k = 1 by omega, Nat.nthRoot_one_left, id]
  · rename_i h
    rw [not_or, decide_eq_true_iff] at h
    have hn := Nat.pos_of_ne_zero h.1
    obtain ⟨x, hstart, hx, hup⟩ := rootStart_spec hk hn candidate
    rw [hstart, rootDescent_eq hk hn hx hup]

/-- The root of a natural number, rounded down. -/
theorem rootFloor_eq
    (n : Nat) {k : Nat} (hk : 0 < k) :
    rootFloor (ofNat n) k = ofNat (Nat.nthRoot k n) := by
  obtain ⟨x, hcandidate⟩ := exists_rootCandidate (ofNat n) k
  have h := rootFloorFrom_eq n hk x
  rw [← hcandidate] at h
  unfold rootFloor
  split
  · rename_i hsmall
    rwa [rootFloorFrom, if_pos hsmall] at h
  · exact h

/-- A natural number has an exact root if it is the power of its root. -/
theorem exactRoot?_eq
    (n : Nat) {k : Nat} (hk : 0 < k) :
    exactRoot? (ofNat n) k =
      if Nat.nthRoot k n ^ k = n then some (ofNat (Nat.nthRoot k n)) else none := by
  have hiff : (ofNat (Nat.nthRoot k n)).pow k = ofNat n ↔ Nat.nthRoot k n ^ k = n := by
    rw [ofNat_pow]
    exact ⟨ofNat_injective, fun h => by rw [h]⟩
  simp only [exactRoot?, rootFloor_eq n hk, hiff]

end ScaledNumber
end DeskCalculator
