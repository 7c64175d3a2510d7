import DeskCalculator.Proofs.Checked.Magnitude
import DeskCalculator.Proofs.ScaledNumber.Root

/-!
# Checked operations on scaled numbers

Sums take the smaller of two magnitudes from the larger one; quotients divide by
an integer part that must not be zero; integer roots are taken of numbers that
are not negative.

**Results.**
* `checkedAdd_eq`: a sum of canonical numbers.
* `checkedDivMod_ofInt`, `checkedGcd_ofInt`: integers, with a divisor that is not zero.
* `checkedRootFloor_eq`: every iterate on the way to a root is above zero.
* `root_search_exact`: the search for a root ends at the root, from any candidate.
-/

namespace DeskCalculator
namespace ScaledNumber

variable {x y : ScaledNumber}

/-! ### Sums -/

/-- Checked sum. -/
def checkedAdd (x y : ScaledNumber) : Option ScaledNumber :=
  if x.isZero then some y
  else if y.isZero then some x
  else
    let e := min x.exponent y.exponent
    let a := x.magnitudeAt e
    let b := y.magnitudeAt e
    if x.sign = y.sign then some (ofParts x.isNegative e (a.add b))
    else
      match a.compare b with
      | .eq => some zero
      | .gt => (a.checkedSub b).map (ofParts x.isNegative e)
      | .lt => (b.checkedSub a).map (ofParts y.isNegative e)

/-- Checked difference. -/
def checkedSub (x y : ScaledNumber) : Option ScaledNumber := x.checkedAdd y.neg

/-- Of two magnitudes the smaller one is taken from the larger one. -/
theorem checkedAdd_eq
    (hx : Canonical x) (hy : Canonical y) :
    x.checkedAdd y = some (x + y) := by
  show x.checkedAdd y = some (x.add y)
  have ha := (magnitudeAt_min_left hx y.exponent).1
  have hb := (magnitudeAt_min_right hy x.exponent).1
  unfold checkedAdd ScaledNumber.add
  split
  · rfl
  split
  · rfl
  dsimp only
  generalize x.magnitudeAt (min x.exponent y.exponent) = a at *
  generalize y.magnitudeAt (min x.exponent y.exponent) = b at *
  split
  · rfl
  cases hord : a.compare b with
  | eq => rfl
  | gt =>
      have hle : a.compare b ≠ .lt := by simp [hord]
      rw [Magnitude.checkedSub_eq hle]
      rfl
  | lt =>
      have hle : b.compare a ≠ .lt := by
        rw [ne_eq, hb.compare_eq_lt ha]
        exact Nat.lt_asymm ((ha.compare_eq_lt hb).mp hord)
      rw [Magnitude.checkedSub_eq hle]
      rfl

theorem checkedSub_eq
    (hx : Canonical x) (hy : Canonical y) :
    x.checkedSub y = some (x - y) :=
  checkedAdd_eq hx hy.neg

/-! ### Quotients and divisors -/

/-- Checked quotient and remainder of the integer parts. -/
def checkedDivMod (x y : ScaledNumber) : Option (ScaledNumber × ScaledNumber) :=
  (x.integerMagnitude.checkedDivMod y.integerMagnitude).map fun (q, r) =>
    (ofParts (x.sign ≠ y.sign) 0 q, ofParts x.isNegative 0 r)

/-- Checked quotient of the integer parts. -/
def checkedQuot (x y : ScaledNumber) : Option ScaledNumber :=
  (x.checkedDivMod y).map (·.1)

/-- Checked greatest common divisor of the integer parts. -/
def checkedGcd (x y : ScaledNumber) : Option ScaledNumber :=
  (x.integerMagnitude.checkedGcd y.integerMagnitude).map (ofParts false 0)

/-- Checked digits of the integer part. -/
def checkedToDigits (x : ScaledNumber) (radix : Nat) : Option (List Char) :=
  x.integerMagnitude.checkedToDigits radix

theorem checkedDivMod_ofInt
    (x : ScaledNumber) {d : Int} (hd : d ≠ 0) :
    x.checkedDivMod (ofInt d) = some (x.divMod (ofInt d)) := by
  have hne : (ofInt d).integerMagnitude ≠ [] := by
    rw [integerMagnitude_ofInt, ne_eq, ← (Magnitude.normalized_ofNat _).toNat_eq_zero,
      Magnitude.toNat_ofNat]
    omega
  have hnorm : (ofInt d).integerMagnitude.Normalized := by
    rw [integerMagnitude_ofInt]
    exact Magnitude.normalized_ofNat _
  rw [checkedDivMod, Magnitude.checkedDivMod_eq _ hnorm hne]
  rfl

theorem checkedQuot_ofInt
    (x : ScaledNumber) {d : Int} (hd : d ≠ 0) :
    x.checkedQuot (ofInt d) = some (x.quot (ofInt d)) := by
  rw [checkedQuot, checkedDivMod_ofInt x hd]
  rfl

theorem checkedQuot_ofNat
    (x : ScaledNumber) {d : Nat} (hd : d ≠ 0) :
    x.checkedQuot (ofNat d) = some (x.quot (ofNat d)) := by
  rw [← ofInt_natCast]
  exact checkedQuot_ofInt x (Int.natCast_ne_zero.mpr hd)

theorem checkedGcd_ofInt
    (a b : Int) :
    (ofInt a).checkedGcd (ofInt b) = some ((ofInt a).gcd (ofInt b)) := by
  rw [checkedGcd, gcd, integerMagnitude_ofInt, integerMagnitude_ofInt,
    Magnitude.checkedGcd_eq (Magnitude.normalized_ofNat _) (Magnitude.normalized_ofNat _)]
  rfl

theorem checkedToDigits_eq
    {radix : Nat} (htwo : 2 ≤ radix) (hradix : radix ≤ 16) (x : ScaledNumber) :
    x.checkedToDigits radix = some (x.toDigits radix) :=
  Magnitude.checkedToDigits_eq htwo hradix _

/-! ### Roots -/

/-- Checked iterate. -/
def checkedRootStep (n : ScaledNumber) (k : Nat) (x : ScaledNumber) : Option ScaledNumber := do
  let sum ← (ofNat (k - 1) * x).checkedAdd (← n.checkedQuot (x.pow (k - 1)))
  sum.checkedQuot (ofNat k)

/-- Checked descent. -/
def checkedRootDescent (n : ScaledNumber) (k : Nat) (x : ScaledNumber) : Option ScaledNumber :=
  match checkedRootStep n k x with
  | none => none
  | some y =>
      if _h : y.integerMagnitude.compare x.integerMagnitude = .lt then checkedRootDescent n k y
      else some x
termination_by (x.integerMagnitude.length, x.integerMagnitude.toNat)
decreasing_by exact Magnitude.lex_lt_of_compare_eq_lt _h

/-- Checked search for a root from a candidate. -/
def checkedRootFloorFrom (n : ScaledNumber) (k : Nat) (candidate : ScaledNumber) :
    Option ScaledNumber :=
  if n.isZero ∨ k ≤ 1 then some n else checkedRootDescent n k (rootStart n k candidate)

/-- The root of order `k`, for a number that is not negative. -/
def checkedRootFloor (n : ScaledNumber) (k : Nat) : Option ScaledNumber :=
  if n.isNegative then none
  else if n.isZero ∨ k ≤ 1 then some n
  else checkedRootFloorFrom n k (rootCandidate n k)

/-- Checked exact root. -/
def checkedExactRoot? (n : ScaledNumber) (k : Nat) : Option (Option ScaledNumber) :=
  (n.checkedRootFloor k).map fun r => if r.pow k = n then some r else none

theorem checkedRootStep_eq
    {n k x : Nat} (hk : 0 < k) (hx : 0 < x) :
    checkedRootStep (ofNat n) k (ofNat x) = some (rootStep (ofNat n) k (ofNat x)) := by
  have hpow : x ^ (k - 1) ≠ 0 := (Nat.pow_pos hx).ne'
  rw [checkedRootStep, rootStep, ofNat_pow, checkedQuot_ofNat _ hpow]
  simp only [Option.bind_eq_bind, Option.bind_some]
  rw [ofNat_quot, checkedAdd_eq ((canonical_ofNat _).mul (canonical_ofNat _)) (canonical_ofNat _)]
  exact checkedQuot_ofNat _ hk.ne'

/-- No iterate is zero, so that every one can be divided by. -/
theorem checkedRootDescent_eq
    {n k x : Nat} (hk : 0 < k) (hn : 0 < n) (hx : 0 < x) :
    checkedRootDescent (ofNat n) k (ofNat x) = some (rootDescent (ofNat n) k (ofNat x)) := by
  induction x using Nat.strongRecOn with
  | ind x ih =>
      have hypos := rootStep_pos hk hn hx
      rw [checkedRootDescent, rootDescent, checkedRootStep_eq hk hx]
      simp only [rootStep_eq, integerMagnitude_ofNat]
      generalize ((k - 1) * x + n / x ^ (k - 1)) / k = y at *
      split
      · rename_i h
        rw [(Magnitude.normalized_ofNat y).compare_eq_lt (Magnitude.normalized_ofNat x),
          Magnitude.toNat_ofNat, Magnitude.toNat_ofNat] at h
        exact ih y h hypos
      · rfl

/-- The search divides by no zero, from any candidate. -/
theorem checkedRootFloorFrom_eq
    (n : Nat) {k : Nat} (hk : 0 < k) (candidate : Nat) :
    checkedRootFloorFrom (ofNat n) k (ofNat candidate) =
      some (rootFloorFrom (ofNat n) k (ofNat candidate)) := by
  unfold checkedRootFloorFrom rootFloorFrom
  split
  · rfl
  · rename_i h
    have hn : 0 < n := by
      rw [not_or, isZero_ofNat, decide_eq_true_iff] at h
      omega
    obtain ⟨start, hstart, hpos, -⟩ := rootStart_spec hk hn candidate
    rw [hstart]
    exact checkedRootDescent_eq hk hn hpos

/-- The root of a natural number is taken without a division by zero. -/
theorem checkedRootFloor_eq
    (n : Nat) {k : Nat} (hk : 0 < k) :
    (ofNat n).checkedRootFloor k = some ((ofNat n).rootFloor k) := by
  have hsign : (ofNat n).isNegative = false := by
    rw [← ofInt_natCast, isNegative_ofInt, decide_eq_false_iff_not]
    omega
  obtain ⟨candidate, hcandidate⟩ := exists_rootCandidate (ofNat n) k
  rw [checkedRootFloor, rootFloor, hsign, hcandidate, checkedRootFloorFrom_eq n hk candidate,
    if_neg Bool.false_ne_true]
  split
  · rfl
  · rfl

/-- From any candidate the search ends, divides by no zero, and gives the root. -/
theorem root_search_exact
    (n : Nat) {k : Nat} (hk : 0 < k) (candidate : Nat) :
    ∃ r : Nat, r ^ k ≤ n ∧ n < (r + 1) ^ k ∧
      (n ≠ 0 → 1 < k →
        LoopEnds (fun x => (rootStep (ofNat n) k x).atLeast x = false) (rootStep (ofNat n) k)
          (rootStart (ofNat n) k (ofNat candidate)) (ofNat r)) ∧
      rootFloorFrom (ofNat n) k (ofNat candidate) = ofNat r ∧
      checkedRootFloorFrom (ofNat n) k (ofNat candidate) = some (ofNat r) ∧
      (ofNat n).rootFloor k = ofNat r ∧
      (ofNat n).checkedRootFloor k = some (ofNat r) := by
  have hfrom := rootFloorFrom_eq n hk candidate
  have hfloor := rootFloor_eq n hk
  refine ⟨Nat.nthRoot k n, Nat.pow_nthRoot_le (Or.inl hk.ne'),
    Nat.lt_pow_nthRoot_add_one hk.ne' n, ?_, hfrom, ?_, hfloor, ?_⟩
  · -- zero and the order 1 are answered without a descent
    intro hn _
    have hpos := Nat.pos_of_ne_zero hn
    obtain ⟨start, hstart, hstartPos, hup⟩ := rootStart_spec hk hpos candidate
    have hends := loopEnds_rootDescent n k start
    rw [rootDescent_eq hk hpos hstartPos hup] at hends
    rw [hstart]
    exact hends
  · rw [checkedRootFloorFrom_eq n hk candidate, hfrom]
  · rw [checkedRootFloor_eq n hk, hfloor]

/-- A candidate below the root is given up for a power of two, and the descent starts there. -/
theorem root_search_from_one :
    0 < 3 ∧ 2 ^ 64 ≠ 0 ∧ 1 < 3 ∧
      ((ofNat 1).pow 3).atLeast (ofNat (2 ^ 64)) = false ∧
      LoopEnds (fun x => (rootStep (ofNat (2 ^ 64)) 3 x).atLeast x = false)
        (rootStep (ofNat (2 ^ 64)) 3) (rootStart (ofNat (2 ^ 64)) 3 (ofNat 1)) (ofNat 2642245) ∧
      rootFloorFrom (ofNat (2 ^ 64)) 3 (ofNat 1) = ofNat 2642245 ∧
      checkedRootFloorFrom (ofNat (2 ^ 64)) 3 (ofNat 1) = some (ofNat 2642245) := by
  obtain ⟨r, hle, hlt, hends, hfrom, hchecked, -⟩ :=
    root_search_exact (2 ^ 64) (show 0 < 3 by decide) 1
  have hr : r = 2642245 := by
    have hlow : 2642245 < r + 1 := lt_of_pow_lt_pow_left' 3 (lt_of_le_of_lt (by decide) hlt)
    have hhigh : r < 2642246 := lt_of_pow_lt_pow_left' 3 (lt_of_le_of_lt hle (by decide))
    omega
  subst hr
  refine ⟨by decide, by decide, by decide, ?_, hends (by decide) (by decide), hfrom,
    hchecked⟩
  rw [ofNat_pow, ← Bool.not_eq_true, atLeast_ofNat]
  decide

theorem checkedExactRoot?_eq
    (n : Nat) {k : Nat} (hk : 0 < k) :
    (ofNat n).checkedExactRoot? k = some ((ofNat n).exactRoot? k) := by
  rw [checkedExactRoot?, checkedRootFloor_eq n hk]
  rfl

end ScaledNumber
end DeskCalculator
