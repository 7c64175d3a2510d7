import DeskCalculator.Proofs.Magnitude.Value

/-!
# Sums and differences of magnitudes

A step adds two limbs and what was carried, and the 64-bit word that it
computes in never overflows: the carry is below the base at the lowest limb and
at most one above it.  A step of a difference adds the base first, so that the
word never goes below zero.

**Results.**
* `toNat_add`, `Normalized.add`: sums are exact and normalized.
* `toNat_sub`, `normalized_sub`: so are differences that are not negative.
-/

namespace DeskCalculator
namespace Magnitude

/-! ### Sums -/

theorem addWord_eq
    (x : UInt32) {c : UInt64} (hc : c.toNat < 2 ^ 32) :
    (x.toUInt64 + c).toNat = x.toNat + c.toNat := by
  have hx := x.toNat_lt
  exact toNat_add_of_lt (by rw [UInt32.toNat_toUInt64]; omega)

theorem toNat_addCarry
    (a : Magnitude) {c : UInt64} (hc : c.toNat < 2 ^ 32) :
    toNat (addCarry a c) = toNat a + c.toNat := by
  induction a generalizing c with
  | nil =>
      rw [addCarry, (carryLimb_spec hc).1, toNat_nil, Nat.zero_add]
  | cons x xs ih =>
      unfold addCarry
      split
      · rename_i h
        simp [h]
      · have hhalves := word_halves (x.toUInt64 + c)
        rw [addWord_eq x hc] at hhalves
        simp only [toNat_cons, ih (word_high_lt _)]
        omega

theorem Normalized.addCarry
    {a : Magnitude} (ha : Normalized a) {c : UInt64} (hc : c.toNat < 2 ^ 32) :
    Normalized (addCarry a c) := by
  induction a generalizing c with
  | nil =>
      rw [Magnitude.addCarry]
      exact (carryLimb_spec hc).2
  | cons x xs ih =>
      obtain ⟨hxs, hx⟩ := normalized_cons_iff.mp ha
      unfold Magnitude.addCarry
      split
      · exact ha
      · refine normalized_cons_iff.mpr ⟨ih hxs (word_high_lt _), ?_⟩
        intro hnil hzero
        rename_i hne
        -- nothing was carried into a higher limb, so the word is this limb
        have hhigh := toNat_addCarry xs (word_high_lt (x.toUInt64 + c))
        rw [hnil, toNat_nil] at hhigh
        have hhalves := word_halves (x.toUInt64 + c)
        rw [hzero, UInt32.toNat_zero, addWord_eq x hc] at hhalves
        exact hne (UInt64.toNat_inj.mp (by simp only [UInt64.toNat_zero]; omega))

theorem sumWord_eq
    (x y : UInt32) {c : UInt64} (hc : c.toNat ≤ 1) :
    (x.toUInt64 + y.toUInt64 + c).toNat = x.toNat + y.toNat + c.toNat := by
  have hx := x.toNat_lt
  have hy := y.toNat_lt
  have hsum : (x.toUInt64 + y.toUInt64).toNat = x.toNat + y.toNat :=
    toNat_add_of_lt (by simp only [UInt32.toNat_toUInt64]; omega)
  rw [toNat_add_of_lt (by omega), hsum]

theorem sumWord_high_le
    (x y : UInt32) {c : UInt64} (hc : c.toNat ≤ 1) :
    ((x.toUInt64 + y.toUInt64 + c) >>> 32).toNat ≤ 1 := by
  have hx := x.toNat_lt
  have hy := y.toNat_lt
  have hword := sumWord_eq x y hc
  have hhalves := word_halves (x.toUInt64 + y.toUInt64 + c)
  omega

/-- The sum with a carry. -/
theorem toNat_addWithCarry
    (a b : Magnitude) {c : UInt64} (hc : c.toNat ≤ 1) :
    toNat (addWithCarry a b c) = toNat a + toNat b + c.toNat := by
  induction a generalizing b c with
  | nil =>
      rw [addWithCarry, toNat_addCarry b (by omega), toNat_nil, Nat.zero_add]
  | cons x xs ih =>
      cases b with
      | nil =>
          rw [addWithCarry, toNat_addCarry _ (by omega), toNat_nil, Nat.add_zero]
      | cons y ys =>
          have hword := sumWord_eq x y hc
          have hhalves := word_halves (x.toUInt64 + y.toUInt64 + c)
          have hcarry := sumWord_high_le x y hc
          simp only [addWithCarry, toNat_cons]
          rw [ih ys hcarry]
          omega

theorem Normalized.addWithCarry
    {a b : Magnitude} (ha : Normalized a) (hb : Normalized b) {c : UInt64} (hc : c.toNat ≤ 1) :
    Normalized (addWithCarry a b c) := by
  induction a generalizing b c with
  | nil =>
      rw [Magnitude.addWithCarry]
      exact hb.addCarry (by omega)
  | cons x xs ih =>
      cases b with
      | nil =>
          rw [Magnitude.addWithCarry]
          exact ha.addCarry (by omega)
      | cons y ys =>
          obtain ⟨hxs, hx⟩ := normalized_cons_iff.mp ha
          obtain ⟨hys, _⟩ := normalized_cons_iff.mp hb
          have hword := sumWord_eq x y hc
          have hhalves := word_halves (x.toUInt64 + y.toUInt64 + c)
          have hcarry := sumWord_high_le x y hc
          simp only [Magnitude.addWithCarry]
          refine normalized_cons_iff.mpr ⟨ih hxs hys hcarry, ?_⟩
          intro hnil hzero
          -- no higher limb is left, so the word is its low half and the limbs are zero
          have hhigh := toNat_addWithCarry xs ys hcarry
          rw [hnil, toNat_nil] at hhigh
          rw [hzero, UInt32.toNat_zero] at hhalves
          exact hx (hxs.toNat_eq_zero.mp (by omega)) (UInt32.toNat_inj.mp (by
            rw [UInt32.toNat_zero]
            omega))

@[simp] theorem toNat_add
    (a b : Magnitude) :
    toNat (add a b) = toNat a + toNat b :=
  toNat_addWithCarry a b (by decide)

theorem Normalized.add
    {a b : Magnitude} (ha : Normalized a) (hb : Normalized b) :
    Normalized (add a b) :=
  ha.addWithCarry hb (by decide)

@[simp] theorem toNat_addLimb
    (a : Magnitude) (x : UInt32) :
    toNat (addLimb a x) = toNat a + x.toNat := by
  rw [addLimb, toNat_addCarry a (toNat_toUInt64_lt x), UInt32.toNat_toUInt64]

theorem Normalized.addLimb
    {a : Magnitude} (ha : Normalized a) (x : UInt32) :
    Normalized (addLimb a x) :=
  ha.addCarry (toNat_toUInt64_lt x)

/-! ### Differences -/

/-- The limb of a difference, and what is borrowed for it. -/
theorem subWord_eq
    (x y : UInt32) {borrow : UInt64} (hb : borrow.toNat ≤ 1) :
    (x.toUInt64 + limbBase - y.toUInt64 - borrow).toNat =
      x.toNat + 2 ^ 32 - y.toNat - borrow.toNat := by
  have hx := x.toNat_lt
  have hy := y.toNat_lt
  have hbase := toNat_limbBase
  have hsum : (x.toUInt64 + limbBase).toNat = x.toNat + 2 ^ 32 :=
    toNat_add_of_lt (by rw [UInt32.toNat_toUInt64]; omega)
  have hfirst : (x.toUInt64 + limbBase - y.toUInt64).toNat = x.toNat + 2 ^ 32 - y.toNat := by
    rw [UInt64.toNat_sub_of_le, hsum, UInt32.toNat_toUInt64]
    rw [UInt64.le_iff_toNat_le, hsum, UInt32.toNat_toUInt64]
    omega
  rw [UInt64.toNat_sub_of_le, hfirst]
  rw [UInt64.le_iff_toNat_le, hfirst]
  omega

/-- The difference, if it is not negative. -/
theorem toNat_subWithBorrow
    (a b : Magnitude) {borrow : UInt64} (hb : borrow.toNat ≤ 1)
    (hle : toNat b + borrow.toNat ≤ toNat a) :
    toNat (subWithBorrow a b borrow) + (toNat b + borrow.toNat) = toNat a := by
  induction a generalizing b borrow with
  | nil =>
      simp only [subWithBorrow, toNat_nil] at hle ⊢
      omega
  | cons x xs ih =>
      have hx := x.toNat_lt
      have hy := (b.headD 0).toNat_lt
      have hparts := toNat_headD_tail b
      have hword := subWord_eq x (b.headD 0) hb
      have hhalves := word_halves (x.toUInt64 + limbBase - (b.headD 0).toUInt64 - borrow)
      have hlow := (x.toUInt64 + limbBase - (b.headD 0).toUInt64 - borrow).toUInt32.toNat_lt
      have hlt : x.toUInt64 + limbBase - (b.headD 0).toUInt64 - borrow < limbBase ↔
          x.toNat < (b.headD 0).toNat + borrow.toNat := by
        rw [UInt64.lt_iff_toNat_lt, hword, toNat_limbBase]
        omega
      simp only [subWithBorrow, toNat_cons] at hle ⊢
      split
      · rename_i h
        have hless := hlt.mp h
        have := ih b.tail (UInt64.toNat_one.le) (by rw [UInt64.toNat_one]; omega)
        rw [UInt64.toNat_one] at this
        omega
      · rename_i h
        have hmore := mt hlt.mpr h
        have := ih b.tail (UInt64.toNat_zero.le.trans (by decide))
          (by rw [UInt64.toNat_zero]; omega)
        rw [UInt64.toNat_zero] at this
        omega

@[simp] theorem toNat_sub
    {a b : Magnitude} (hle : toNat b ≤ toNat a) :
    toNat (sub a b) = toNat a - toNat b := by
  have := toNat_subWithBorrow a b (UInt64.toNat_zero.le.trans (by decide))
    (by simpa using hle)
  rw [UInt64.toNat_zero] at this
  rw [sub, toNat_normalize]
  omega

@[simp] theorem normalized_sub
    (a b : Magnitude) :
    Normalized (sub a b) :=
  normalized_normalize _

end Magnitude
end DeskCalculator
