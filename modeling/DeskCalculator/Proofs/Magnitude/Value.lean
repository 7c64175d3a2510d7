import DeskCalculator.Magnitude.Basic
import Mathlib.Tactic

/-!
# The number a limb list denotes

Facts on `Magnitude.toNat` and on normalized limb lists, on which the proofs
about the operations rest.  Each number has exactly one normalized magnitude,
so that an operation is known once its value is known and its result is known
to be normalized.

**Results.**
* `toNat_append`, `toNat_lt`: limbs are digits in base `2 ^ 32`.
* `toNat_injective`: normalized magnitudes of one value are equal.
* `Normalized.eq_ofNat`: a normalized magnitude is the one of its value.
* `toNat_normalize`, `normalized_normalize`, `normalized_ofNat`.
* `toNat_lowWord`, `toWord?_eq`, `Normalized.bitLength_le_iff`: words and sizes.
-/

namespace DeskCalculator
namespace Magnitude

/-! ### Words as two limbs -/

theorem toNat_limbBase : limbBase.toNat = 2 ^ 32 := by
  rfl

/-- The low half of a word and its high half make the word. -/
theorem word_halves
    (t : UInt64) :
    t.toUInt32.toNat + 2 ^ 32 * (t >>> 32).toNat = t.toNat := by
  have hhigh : (t >>> 32).toNat = t.toNat / 2 ^ 32 := by
    rw [UInt64.toNat_shiftRight]
    exact Nat.shiftRight_eq_div_pow _ _
  rw [hhigh, UInt64.toNat_toUInt32]
  exact Nat.mod_add_div _ _

theorem word_high_lt
    (t : UInt64) :
    (t >>> 32).toNat < 2 ^ 32 := by
  have := word_halves t
  have := t.toNat_lt
  omega

theorem toNat_toUInt32_of_lt
    {t : UInt64} (ht : t.toNat < 2 ^ 32) :
    t.toUInt32.toNat = t.toNat := by
  rw [UInt64.toNat_toUInt32]
  exact Nat.mod_eq_of_lt ht

theorem toNat_add_of_lt
    {x y : UInt64} (h : x.toNat + y.toNat < 2 ^ 64) :
    (x + y).toNat = x.toNat + y.toNat := by
  rw [UInt64.toNat_add]
  exact Nat.mod_eq_of_lt h

theorem toNat_mul_of_lt
    {x y : UInt64} (h : x.toNat * y.toNat < 2 ^ 64) :
    (x * y).toNat = x.toNat * y.toNat := by
  rw [UInt64.toNat_mul]
  exact Nat.mod_eq_of_lt h

/-- A limb that is kept in a word is below the base. -/
theorem toNat_toUInt64_lt
    (x : UInt32) :
    x.toUInt64.toNat < 2 ^ 32 := by
  rw [UInt32.toNat_toUInt64]
  exact x.toNat_lt

/-- The product of two limbs leaves room for two limbs more in a word. -/
theorem limb_mul_le
    {m n : Nat} (hm : m < 2 ^ 32) (hn : n < 2 ^ 32) :
    m * n ≤ (2 ^ 32 - 1) * (2 ^ 32 - 1) :=
  Nat.mul_le_mul (by omega) (by omega)

/-- A word that is made of two limbs. -/
theorem toNat_mul_limbBase_add
    {high low : UInt64} (hhigh : high.toNat < 2 ^ 32) (hlow : low.toNat < 2 ^ 32) :
    (high * limbBase + low).toNat = high.toNat * 2 ^ 32 + low.toNat := by
  have hprod : (high * limbBase).toNat = high.toNat * 2 ^ 32 := by
    rw [toNat_mul_of_lt] <;> rw [toNat_limbBase]
    omega
  rw [toNat_add_of_lt] <;> rw [hprod]
  omega

/-! ### Values -/

@[simp] theorem toNat_nil : toNat [] = 0 := by
  rfl

@[simp] theorem toNat_cons
    (x : UInt32) (xs : Magnitude) :
    toNat (x :: xs) = x.toNat + 2 ^ 32 * toNat xs := by
  rfl

theorem toNat_headD_tail
    (a : Magnitude) :
    (a.headD 0).toNat + 2 ^ 32 * toNat a.tail = toNat a := by
  cases a with
  | nil =>
      rfl
  | cons x xs =>
      rfl

theorem toNat_append
    (a b : Magnitude) :
    toNat (a ++ b) = toNat a + 2 ^ (32 * a.length) * toNat b := by
  induction a with
  | nil =>
      simp
  | cons x xs ih =>
      simp only [List.cons_append, toNat_cons, ih, List.length_cons]
      ring

theorem toNat_lt
    (a : Magnitude) :
    toNat a < 2 ^ (32 * a.length) := by
  induction a with
  | nil =>
      simp
  | cons x xs ih =>
      have hx := x.toNat_lt
      have hpow : 2 ^ (32 * (x :: xs).length) = 2 ^ 32 * 2 ^ (32 * xs.length) := by
        rw [List.length_cons]
        ring
      rw [toNat_cons, hpow]
      omega

@[simp] theorem toNat_replicate_zero
    (n : Nat) :
    toNat (List.replicate n 0) = 0 := by
  induction n with
  | zero =>
      rfl
  | succ n ih =>
      simp [List.replicate_succ, ih]

/-- Without its low limbs a number is divided by a power of the base. -/
theorem toNat_drop
    (a : Magnitude) (n : Nat) :
    toNat (a.drop n) = toNat a / 2 ^ (32 * n) := by
  induction n generalizing a with
  | zero =>
      simp
  | succ n ih =>
      cases a with
      | nil =>
          simp
      | cons x xs =>
          have hx := x.toNat_lt
          have hdiv : (x.toNat + 2 ^ 32 * toNat xs) / 2 ^ 32 = toNat xs := by omega
          rw [List.drop_succ_cons, ih, toNat_cons, Nat.mul_succ, Nat.add_comm (32 * n) 32,
            Nat.pow_add, ← Nat.div_div_eq_div_mul, hdiv]

/-! ### Normalized magnitudes -/

@[simp] theorem normalized_nil : Normalized [] := by
  simp [Normalized]

theorem normalized_cons_iff
    {x : UInt32} {xs : Magnitude} :
    Normalized (x :: xs) ↔ Normalized xs ∧ (xs = [] → x ≠ 0) := by
  cases xs with
  | nil => simp [Normalized]
  | cons y ys => simp [Normalized, List.getLast?_cons_cons]

/-- The carry out of the top limb becomes a limb of its own, unless it is zero. -/
theorem carryLimb_spec
    {c : UInt64} (hc : c.toNat < 2 ^ 32) :
    toNat (if c = 0 then [] else [c.toUInt32]) = c.toNat ∧
      Normalized (if c = 0 then [] else [c.toUInt32]) := by
  have hlow := toNat_toUInt32_of_lt hc
  split
  case isTrue hzero => exact ⟨by simp [hzero], normalized_nil⟩
  case isFalse hne =>
    refine ⟨by simp [hlow], normalized_cons_iff.mpr ⟨normalized_nil, fun _ hzero => hne ?_⟩⟩
    rw [hzero] at hlow
    exact UInt64.toNat_inj.mp hlow.symm

/-- The top limb of a normalized magnitude counts. -/
theorem Normalized.pow_le
    {a : Magnitude} (h : Normalized a) (hne : a ≠ []) :
    2 ^ (32 * (a.length - 1)) ≤ toNat a := by
  induction a with
  | nil =>
      exact absurd rfl hne
  | cons x xs ih =>
      obtain ⟨hxs, hx⟩ := normalized_cons_iff.mp h
      cases xs with
      | nil =>
          have hpos : x.toNat ≠ 0 := fun h0 => hx rfl (UInt32.toNat_inj.mp h0)
          simp
          omega
      | cons y ys =>
          have ih := ih hxs (by simp)
          have hpow : 2 ^ (32 * ((x :: y :: ys).length - 1)) =
              2 ^ 32 * 2 ^ (32 * ((y :: ys).length - 1)) := by
            simp only [List.length_cons, Nat.add_sub_cancel]
            ring
          rw [toNat_cons, hpow]
          omega

theorem Normalized.toNat_eq_zero
    {a : Magnitude} (h : Normalized a) :
    toNat a = 0 ↔ a = [] := by
  constructor
  · intro hzero
    by_contra hne
    have := h.pow_le hne
    have := Nat.two_pow_pos (32 * (a.length - 1))
    omega
  · rintro rfl
    rfl

theorem Normalized.toNat_pos
    {a : Magnitude} (h : Normalized a) (hne : a ≠ []) :
    0 < toNat a :=
  Nat.pos_of_ne_zero (mt h.toNat_eq_zero.mp hne)

/-- Normalized magnitudes of one value are equal. -/
theorem toNat_injective
    {a b : Magnitude} (ha : Normalized a) (hb : Normalized b)
    (h : toNat a = toNat b) :
    a = b := by
  induction a generalizing b with
  | nil =>
      exact (hb.toNat_eq_zero.mp h.symm).symm
  | cons x xs ih =>
      cases b with
      | nil =>
          exact ha.toNat_eq_zero.mp h
      | cons y ys =>
          have hx := x.toNat_lt
          have hy := y.toNat_lt
          simp only [toNat_cons] at h
          have hlow : x.toNat = y.toNat := by omega
          have hhigh : toNat xs = toNat ys := by omega
          rw [UInt32.toNat_inj.mp hlow,
            ih (normalized_cons_iff.mp ha).1 (normalized_cons_iff.mp hb).1 hhigh]

/-! ### Making normalized magnitudes -/

@[simp] theorem toNat_push
    (x : UInt32) (xs : Magnitude) :
    toNat (push x xs) = x.toNat + 2 ^ 32 * toNat xs := by
  unfold push
  split
  · rename_i h
    simp [h.1, h.2]
  · rfl

theorem Normalized.push
    (x : UInt32) {xs : Magnitude} (h : Normalized xs) :
    Normalized (push x xs) := by
  unfold Magnitude.push
  split
  · exact normalized_nil
  · rename_i hne
    exact normalized_cons_iff.mpr ⟨h, fun hxs hx => hne ⟨hx, hxs⟩⟩

theorem toNat_trim
    (a : Magnitude) :
    toNat (trim a) = toNat a := by
  induction a with
  | nil =>
      rfl
  | cons x xs ih =>
      simp [trim, ih]

theorem normalized_trim
    (a : Magnitude) :
    Normalized (trim a) := by
  induction a with
  | nil =>
      exact normalized_nil
  | cons x xs ih =>
      exact ih.push x

@[simp] theorem toNat_normalize
    (a : Magnitude) :
    toNat (normalize a) = toNat a := by
  unfold normalize
  split
  · rfl
  · exact toNat_trim a

@[simp] theorem normalized_normalize
    (a : Magnitude) :
    Normalized (normalize a) := by
  unfold normalize
  split
  · assumption
  · exact normalized_trim a

@[simp] theorem toNat_ofNat
    (n : Nat) :
    toNat (ofNat n) = n := by
  induction n using Nat.strongRecOn with
  | ind n ih =>
      rw [ofNat]
      split
      · rename_i h
        simp [h]
      · have hlow : (UInt32.ofNat (n % 2 ^ 32)).toNat = n % 2 ^ 32 := by
          rw [UInt32.toNat_ofNat']
          omega
        rw [toNat_cons, hlow, ih (n / 2 ^ 32) (by omega)]
        omega

@[simp] theorem normalized_ofNat
    (n : Nat) :
    Normalized (ofNat n) := by
  induction n using Nat.strongRecOn with
  | ind n ih =>
      rw [ofNat]
      split
      · exact normalized_nil
      · rename_i hn
        refine normalized_cons_iff.mpr ⟨ih (n / 2 ^ 32) (by omega), ?_⟩
        intro hnil hzero
        have hhigh := toNat_ofNat (n / 2 ^ 32)
        have hlow := congrArg UInt32.toNat hzero
        rw [UInt32.toNat_ofNat'] at hlow
        rw [hnil, toNat_nil] at hhigh
        simp only [UInt32.toNat_zero] at hlow
        omega

/-- A normalized magnitude is the one of its value. -/
theorem Normalized.eq_ofNat
    {a : Magnitude} (h : Normalized a) :
    a = ofNat (toNat a) :=
  toNat_injective h (normalized_ofNat _) (toNat_ofNat _).symm

/-! ### Words and sizes -/

theorem toNat_lowWord
    (a : Magnitude) :
    a.lowWord.toNat = toNat a % 2 ^ 64 := by
  match a with
  | [] => rfl
  | [x] =>
      simp [lowWord]
  | x :: y :: rest =>
      have hx := x.toNat_lt
      have hy := y.toNat_lt
      simp only [lowWord, UInt64.toNat_add, UInt64.toNat_mul, UInt32.toNat_toUInt64,
        toNat_limbBase, toNat_cons]
      omega

/-- The low word of a number below `2 ^ 64` is the number. -/
theorem toWord?_eq
    {a : Magnitude} (h : Normalized a) :
    a.toWord? = if toNat a < 2 ^ 64 then some (UInt64.ofNat (toNat a)) else none := by
  have hlow : a.lowWord = UInt64.ofNat (toNat a) := by
    apply UInt64.toNat_inj.mp
    rw [toNat_lowWord, UInt64.toNat_ofNat']
  have hiff : a.length ≤ 2 ↔ toNat a < 2 ^ 64 := by
    constructor
    · intro hlen
      exact (toNat_lt a).trans_le (Nat.pow_le_pow_right (by decide) (by omega))
    · intro hlt
      by_contra hlen
      have hne : a ≠ [] := by
        rintro rfl
        exact hlen (by simp)
      have hpow := h.pow_le hne
      have : 2 ^ 64 ≤ 2 ^ (32 * (a.length - 1)) :=
        Nat.pow_le_pow_right (by decide) (by omega)
      omega
  simp only [toWord?, hlow, hiff]

theorem limbBits_le_iff
    (x : UInt32) (n : Nat) :
    limbBits x ≤ n ↔ x.toNat < 2 ^ n := by
  unfold limbBits
  split
  · rename_i h
    simp [h]
  · rename_i h
    have hne : x.toNat ≠ 0 := fun h0 => h (UInt32.toNat_inj.mp h0)
    rw [Nat.succ_le_iff, Nat.log2_lt hne]

/-- The number of bits is the least exponent of a power of two above the value. -/
theorem Normalized.bitLength_le_iff
    {a : Magnitude} (h : Normalized a) (n : Nat) :
    bitLength a ≤ n ↔ toNat a < 2 ^ n := by
  induction a using List.reverseRecOn with
  | nil =>
      simp [bitLength]
  | append_singleton low high _ =>
      have hhigh : high.toNat ≠ 0 := by
        intro h0
        have hzero : high = 0 := UInt32.toNat_inj.mp h0
        simp [Normalized, hzero] at h
      have hlow := toNat_lt low
      have hbits : bitLength (low ++ [high]) = 32 * low.length + limbBits high := by
        simp [bitLength]
      have hvalue : toNat (low ++ [high]) = toNat low + 2 ^ (32 * low.length) * high.toNat := by
        rw [toNat_append]
        simp
      rw [hbits, hvalue]
      rcases Nat.lt_or_ge n (32 * low.length) with hlt | hge
      · -- the top limb alone is too large
        have hpow : 2 ^ n ≤ 2 ^ (32 * low.length) := Nat.pow_le_pow_right (by decide) hlt.le
        have := Nat.le_mul_of_pos_right (2 ^ (32 * low.length)) (Nat.pos_of_ne_zero hhigh)
        omega
      · obtain ⟨k, rfl⟩ := Nat.exists_eq_add_of_le hge
        rw [Nat.add_le_add_iff_left, limbBits_le_iff, Nat.pow_add]
        constructor
        · intro hk
          have := Nat.mul_le_mul_left (2 ^ (32 * low.length)) (Nat.succ_le_of_lt hk)
          rw [Nat.mul_succ] at this
          omega
        · intro hk
          by_contra hle
          have := Nat.mul_le_mul_left (2 ^ (32 * low.length)) (Nat.le_of_not_lt hle)
          omega

end Magnitude
end DeskCalculator
