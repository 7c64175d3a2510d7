import DeskCalculator.Magnitude.Digits
import DeskCalculator.Proofs.Magnitude.Value

/-!
# Products of magnitudes

A step of a row computes `x * y + a + c` from four numbers below `2 ^ 32`, which
fits in a 64-bit word.  A row is the multiple of one factor by a limb of the
other; the lowest limb of each row is settled and the rest is handed on.

**Results.**
* `toNat_mulLimbWithCarry`, `Normalized.mulLimbWithCarry`: multiples by a limb.
* `toNat_mul`, `normalized_mul`: products are exact and normalized.
* `mulPow_eq`: powers by repeated squaring are products with a power, for any
  map to a monoid that takes the product to the product of the monoid.
* `toNat_radixPow`, `normalized_radixPow`.
-/

namespace DeskCalculator

/--
What repeated squaring computes, seen through a map `f` that takes the product
to a product, on a set of numbers that the product does not leave.
-/
theorem mulPow_eq
    {α M : Type} [Monoid M] {mul : α → α → α} (f : α → M) (P : α → Prop)
    (hP : ∀ x y, P x → P y → P (mul x y))
    (hmul : ∀ x y, P x → P y → f (mul x y) = f x * f y)
    (acc base : α) (hacc : P acc) (hbase : P base) (n : Nat) :
    P (mulPow mul acc base n) ∧ f (mulPow mul acc base n) = f acc * f base ^ n := by
  induction n using Nat.strongRecOn generalizing acc base with
  | ind n ih =>
      rw [mulPow]
      by_cases hn : n = 0
      · rw [if_pos hn]
        exact ⟨hacc, by rw [hn, pow_zero, mul_one]⟩
      · rw [if_neg hn]
        have hsplit := Nat.div_add_mod n 2
        -- the factor that the lowest bit of the exponent brings
        have hacc' : P (if n % 2 = 1 then mul acc base else acc) := by
          split
          · exact hP _ _ hacc hbase
          · exact hacc
        have hvalue : f (if n % 2 = 1 then mul acc base else acc) = f acc * f base ^ (n % 2) := by
          split
          · rename_i hodd
            rw [hmul _ _ hacc hbase, hodd, pow_one]
          · rename_i heven
            rw [show n % 2 = 0 by omega, pow_zero, mul_one]
        dsimp only
        by_cases hhalf : n / 2 = 0
        · rw [if_pos hhalf]
          exact ⟨hacc', by rw [hvalue, show n % 2 = n by omega]⟩
        · rw [if_neg hhalf]
          obtain ⟨hp, hv⟩ := ih (n / 2) (by omega) _ _ hacc' (hP _ _ hbase hbase)
          refine ⟨hp, ?_⟩
          calc
            f (mulPow mul (if n % 2 = 1 then mul acc base else acc) (mul base base) (n / 2)) =
                f acc * f base ^ (n % 2) * (f base * f base) ^ (n / 2) := by
              rw [hv, hvalue, hmul _ _ hbase hbase]
            _ = f acc * f base ^ n := by
              rw [← pow_two, ← pow_mul, mul_assoc, ← pow_add, Nat.add_comm, hsplit]

namespace Magnitude

/-! ### Multiples by a limb -/

/-- The word of a product step holds its result. -/
theorem mulWord_eq
    {m c : UInt64} (x a : UInt32) (hm : m.toNat < 2 ^ 32) (hc : c.toNat < 2 ^ 32) :
    (m * x.toUInt64 + a.toUInt64 + c).toNat = m.toNat * x.toNat + a.toNat + c.toNat := by
  have hx := x.toNat_lt
  have ha := a.toNat_lt
  have hle := limb_mul_le hm hx
  have hprod : (m * x.toUInt64).toNat = m.toNat * x.toNat :=
    toNat_mul_of_lt (by rw [UInt32.toNat_toUInt64]; omega)
  have hsum : (m * x.toUInt64 + a.toUInt64).toNat = m.toNat * x.toNat + a.toNat := by
    rw [toNat_add_of_lt] <;> rw [hprod, UInt32.toNat_toUInt64]
    omega
  rw [toNat_add_of_lt] <;> rw [hsum]
  omega

theorem mulLimbWord_eq
    {m c : UInt64} (x : UInt32) (hm : m.toNat < 2 ^ 32) (hc : c.toNat < 2 ^ 32) :
    (x.toUInt64 * m + c).toNat = m.toNat * x.toNat + c.toNat := by
  have h := mulWord_eq x 0 hm hc
  have hzero : m * x.toUInt64 + (0 : UInt32).toUInt64 + c = x.toUInt64 * m + c := by
    rw [UInt64.mul_comm]
    simp
  rwa [hzero, UInt32.toNat_zero, Nat.add_zero] at h

theorem toNat_mulLimbWithCarry
    (a : Magnitude) {m c : UInt64} (hm : m.toNat < 2 ^ 32) (hc : c.toNat < 2 ^ 32) :
    toNat (mulLimbWithCarry m a c) = m.toNat * toNat a + c.toNat := by
  induction a generalizing c with
  | nil =>
      rw [mulLimbWithCarry, (carryLimb_spec hc).1, toNat_nil, Nat.mul_zero, Nat.zero_add]
  | cons x xs ih =>
      have hhalves := word_halves (x.toUInt64 * m + c)
      rw [mulLimbWord_eq x hm hc] at hhalves
      simp only [mulLimbWithCarry, toNat_cons, ih (word_high_lt _), Nat.mul_add,
        Nat.mul_left_comm m.toNat]
      omega

theorem Normalized.mulLimbWithCarry
    {a : Magnitude} (ha : Normalized a) {m c : UInt64} (hm : m.toNat < 2 ^ 32)
    (hpos : 0 < m.toNat) (hc : c.toNat < 2 ^ 32) :
    Normalized (mulLimbWithCarry m a c) := by
  induction a generalizing c with
  | nil =>
      rw [Magnitude.mulLimbWithCarry]
      exact (carryLimb_spec hc).2
  | cons x xs ih =>
      obtain ⟨hxs, hx⟩ := normalized_cons_iff.mp ha
      simp only [Magnitude.mulLimbWithCarry]
      refine normalized_cons_iff.mpr ⟨ih hxs (word_high_lt _), ?_⟩
      intro hnil hzero
      -- no higher limb is left, so the word is its low half and the limbs are zero
      have hhalves := word_halves (x.toUInt64 * m + c)
      have hhigh := toNat_mulLimbWithCarry xs hm (word_high_lt (x.toUInt64 * m + c))
      rw [hnil, toNat_nil] at hhigh
      rw [hzero, UInt32.toNat_zero, mulLimbWord_eq x hm hc] at hhalves
      have hxs0 : m.toNat * toNat xs = 0 := by omega
      have hx0 : m.toNat * x.toNat = 0 := by omega
      have hrest := (Nat.mul_eq_zero.mp hxs0).resolve_left (by omega)
      have hlimb := (Nat.mul_eq_zero.mp hx0).resolve_left (by omega)
      exact hx (hxs.toNat_eq_zero.mp hrest) (UInt32.toNat_inj.mp hlimb)

@[simp] theorem toNat_mulLimb
    (a : Magnitude) (m : UInt32) :
    toNat (mulLimb a m) = toNat a * m.toNat := by
  unfold mulLimb
  split
  · rename_i hm
    simp [hm]
  · rw [toNat_mulLimbWithCarry a (toNat_toUInt64_lt m) (by decide), UInt32.toNat_toUInt64,
      UInt64.toNat_zero, Nat.add_zero, Nat.mul_comm]

theorem Normalized.mulLimb
    {a : Magnitude} (ha : Normalized a) (m : UInt32) :
    Normalized (mulLimb a m) := by
  unfold Magnitude.mulLimb
  split
  · exact normalized_nil
  · rename_i hm
    have hpos : 0 < m.toUInt64.toNat := by
      rw [UInt32.toNat_toUInt64]
      exact Nat.pos_of_ne_zero fun h => hm (UInt32.toNat_inj.mp h)
    exact ha.mulLimbWithCarry (toNat_toUInt64_lt m) hpos (by decide)

/-! ### Rows -/

theorem length_mulRow
    (m : UInt64) {b acc : Magnitude} (hlen : b.length = acc.length) (c : UInt64) :
    (mulRow m b acc c).length = b.length + 1 := by
  induction b generalizing acc c with
  | nil =>
      rfl
  | cons y ys ih =>
      cases acc with
      | nil =>
          cases hlen
      | cons a as =>
          simp only [mulRow, List.length_cons, ih (Nat.succ.inj hlen)]

theorem toNat_mulRow
    {m c : UInt64} {b acc : Magnitude} (hlen : b.length = acc.length)
    (hm : m.toNat < 2 ^ 32) (hc : c.toNat < 2 ^ 32) :
    toNat (mulRow m b acc c) = m.toNat * toNat b + toNat acc + c.toNat := by
  induction b generalizing acc c with
  | nil =>
      rw [List.eq_nil_of_length_eq_zero hlen.symm]
      simp [mulRow, toNat_toUInt32_of_lt hc]
  | cons y ys ih =>
      cases acc with
      | nil =>
          cases hlen
      | cons a as =>
          have hhalves := word_halves (m * y.toUInt64 + a.toUInt64 + c)
          rw [mulWord_eq y a hm hc] at hhalves
          simp only [mulRow, toNat_cons, ih (Nat.succ.inj hlen) (word_high_lt _), Nat.mul_add,
            Nat.mul_left_comm m.toNat]
          omega

/-- The row of a zero limb. -/
theorem mulRow_zero
    {b acc : Magnitude} (hlen : b.length = acc.length) :
    mulRow 0 b acc 0 = acc ++ [0] := by
  induction b generalizing acc with
  | nil =>
      rw [List.eq_nil_of_length_eq_zero hlen.symm]
      rfl
  | cons y ys ih =>
      cases acc with
      | nil =>
          cases hlen
      | cons a as =>
          have ha := a.toNat_lt
          have hword := mulWord_eq (m := 0) (c := 0) y a (by decide) (by decide)
          rw [UInt64.toNat_zero, Nat.zero_mul, Nat.zero_add, Nat.add_zero] at hword
          have hhalves := word_halves (0 * y.toUInt64 + a.toUInt64 + 0)
          have hlow := (0 * y.toUInt64 + a.toUInt64 + 0).toUInt32.toNat_lt
          have hhigh : (0 * y.toUInt64 + a.toUInt64 + 0) >>> 32 = 0 :=
            UInt64.toNat_inj.mp (by rw [UInt64.toNat_zero]; omega)
          have hlimb : (0 * y.toUInt64 + a.toUInt64 + 0).toUInt32 = a :=
            UInt32.toNat_inj.mp (by omega)
          simp only [mulRow, hhigh, hlimb, ih (Nat.succ.inj hlen), List.cons_append]

theorem toNat_mulRows
    (b a : Magnitude) {acc : Magnitude} (hlen : b.length = acc.length) :
    toNat (mulRows b a acc) = toNat a * toNat b + toNat acc := by
  induction a generalizing acc with
  | nil =>
      simp [mulRows]
  | cons x xs ih =>
      have hrow := toNat_mulRow hlen (toNat_toUInt64_lt x) (UInt64.toNat_zero.le.trans_lt (by decide))
      have hrowlen := length_mulRow x.toUInt64 hlen 0
      have htail : b.length = (mulRow x.toUInt64 b acc 0).tail.length := by
        rw [List.length_tail, hrowlen, Nat.add_sub_cancel]
      have hparts := toNat_headD_tail (mulRow x.toUInt64 b acc 0)
      rw [hrow, UInt32.toNat_toUInt64, UInt64.toNat_zero] at hparts
      simp only [mulRows, toNat_cons, ih htail, Nat.add_mul, Nat.mul_assoc, Nat.mul_add]
      omega

@[simp] theorem toNat_mul
    (a b : Magnitude) :
    toNat (mul a b) = toNat a * toNat b := by
  unfold mul
  split
  · rename_i h
    rcases h with h | h <;> simp [h]
  · rw [toNat_normalize, toNat_mulRows b a (by simp)]
    simp

@[simp] theorem normalized_mul
    (a b : Magnitude) :
    Normalized (mul a b) := by
  unfold mul
  split
  · exact normalized_nil
  · exact normalized_normalize _

/-! ### Powers of a radix -/

theorem radixPow_spec
    (radix n : Nat) :
    Normalized (radixPow radix n) ∧ toNat (radixPow radix n) = radix ^ n := by
  have h := mulPow_eq toNat Normalized (fun x y _ _ => normalized_mul x y)
    (fun x y _ _ => toNat_mul x y) [1] (ofNat radix) (by decide) (normalized_ofNat radix) n
  rw [toNat_ofNat, show toNat [1] = 1 from rfl, one_mul] at h
  exact h

@[simp] theorem toNat_radixPow
    (radix n : Nat) :
    toNat (radixPow radix n) = radix ^ n :=
  (radixPow_spec radix n).2

@[simp] theorem normalized_radixPow
    (radix n : Nat) :
    Normalized (radixPow radix n) :=
  (radixPow_spec radix n).1

end Magnitude
end DeskCalculator
