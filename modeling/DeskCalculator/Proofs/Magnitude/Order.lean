import DeskCalculator.Magnitude.Order
import DeskCalculator.Proofs.Magnitude.Value

/-!
# The order of magnitudes is the order of their values

**Results.**
* `compareLimbs_eq`: limbs of one length compare as their values, and of equal
  values the order of the limbs below decides.
* `Normalized.compare_eq`: normalized magnitudes compare as their values.
-/

namespace DeskCalculator
namespace Magnitude

/-! ### The order of natural numbers -/

theorem compareNat_of_lt
    {m n : Nat} (h : m < n) :
    compareOfLessAndEq m n = .lt :=
  if_pos h

theorem compareNat_of_eq
    {m n : Nat} (h : m = n) :
    compareOfLessAndEq m n = .eq := by
  subst h
  simp [compareOfLessAndEq]

theorem compareNat_of_gt
    {m n : Nat} (h : n < m) :
    compareOfLessAndEq m n = .gt := by
  have hlt : ¬m < n := by omega
  have hne : m ≠ n := by omega
  simp [compareOfLessAndEq, hlt, hne]

/-- Of two numbers with a digit more the higher digits decide first. -/
theorem compareNat_digit
    {x y : Nat} (hx : x < 2 ^ 32) (hy : y < 2 ^ 32) (m n : Nat) :
    compareOfLessAndEq (x + 2 ^ 32 * m) (y + 2 ^ 32 * n) =
      (compareOfLessAndEq m n).then (compareOfLessAndEq x y) := by
  rcases Nat.lt_trichotomy m n with h | h | h
  · rw [compareNat_of_lt h, compareNat_of_lt (by omega)]
    rfl
  · rw [compareNat_of_eq h, h]
    simp [compareOfLessAndEq]
  · rw [compareNat_of_gt h, compareNat_of_gt (by omega)]
    rfl

/-! ### The order of magnitudes -/

theorem compareOfLessAndEq_limb
    (x y : UInt32) :
    compareOfLessAndEq x y = compareOfLessAndEq x.toNat y.toNat := by
  simp only [compareOfLessAndEq, UInt32.lt_iff_toNat_lt, UInt32.toNat_inj]

/-- Limbs of one length compare as their values; then the limbs below decide. -/
theorem compareLimbs_eq
    (low : Ordering) {a b : Magnitude} (hlen : a.length = b.length) :
    compareLimbs low a b = (compareOfLessAndEq (toNat a) (toNat b)).then low := by
  induction a generalizing b low with
  | nil =>
      rw [List.eq_nil_of_length_eq_zero hlen.symm]
      rfl
  | cons x xs ih =>
      cases b with
      | nil =>
          cases hlen
      | cons y ys =>
          rw [compareLimbs, ih _ (Nat.succ.inj hlen), compareOfLessAndEq_limb, toNat_cons,
            toNat_cons, compareNat_digit x.toNat_lt y.toNat_lt, Ordering.then_assoc]

/-- A longer normalized magnitude is larger. -/
theorem Normalized.toNat_lt_of_length_lt
    {a b : Magnitude} (hb : Normalized b) (hlen : a.length < b.length) :
    toNat a < toNat b := by
  have hne : b ≠ [] := by
    rintro rfl
    simp at hlen
  calc
    toNat a < 2 ^ (32 * a.length) := toNat_lt a
    _ ≤ 2 ^ (32 * (b.length - 1)) := Nat.pow_le_pow_right (by decide) (by omega)
    _ ≤ toNat b := hb.pow_le hne

/-- Normalized magnitudes compare as their values. -/
theorem Normalized.compare_eq
    {a b : Magnitude} (ha : Normalized a) (hb : Normalized b) :
    compare a b = compareOfLessAndEq (toNat a) (toNat b) := by
  unfold compare
  rcases Nat.lt_trichotomy a.length b.length with h | h | h
  · rw [compareNat_of_lt h, compareNat_of_lt (hb.toNat_lt_of_length_lt h)]
    rfl
  · rw [compareNat_of_eq h, compareLimbs_eq _ h]
    cases compareOfLessAndEq (toNat a) (toNat b) <;> rfl
  · rw [compareNat_of_gt h, compareNat_of_gt (ha.toNat_lt_of_length_lt h)]
    rfl

theorem Normalized.compare_eq_lt
    {a b : Magnitude} (ha : Normalized a) (hb : Normalized b) :
    compare a b = .lt ↔ toNat a < toNat b := by
  rw [ha.compare_eq hb, compareOfLessAndEq_eq_lt]

end Magnitude
end DeskCalculator
