import DeskCalculator.Proofs.Magnitude.Value

/-!
# Shifts of magnitudes

Shifts by less than a limb work in a 64-bit word that holds two neighbouring
limbs; shifts by whole limbs add or drop low limbs.

**Results.**
* `toNat_shiftLeftBits`, `toNat_shiftRightBits`: shifts by less than a limb.
* `toNat_shiftLeft`, `toNat_shiftRight`: shifts by any number of places.
-/

namespace DeskCalculator
namespace Magnitude

theorem toNat_shiftLeft_word
    (x s : UInt64) (hs : s.toNat < 64) (h : x.toNat * 2 ^ s.toNat < 2 ^ 64) :
    (x <<< s).toNat = x.toNat * 2 ^ s.toNat := by
  rw [UInt64.toNat_shiftLeft, Nat.mod_eq_of_lt hs, Nat.shiftLeft_eq, Nat.mod_eq_of_lt h]

theorem toNat_shiftRight_word
    (x s : UInt64) (hs : s.toNat < 64) :
    (x >>> s).toNat = x.toNat / 2 ^ s.toNat := by
  rw [UInt64.toNat_shiftRight, Nat.mod_eq_of_lt hs, Nat.shiftRight_eq_div_pow]

theorem toNat_ofNat_mod
    (n : Nat) :
    (UInt64.ofNat (n % 32)).toNat = n % 32 := by
  rw [UInt64.toNat_ofNat']
  omega

/-! ### Shifts to the left -/

theorem length_shiftLeftBits
    (s : UInt64) (a : Magnitude) (c : UInt64) :
    (shiftLeftBits s a c).length = a.length + 1 := by
  induction a generalizing c with
  | nil =>
      rfl
  | cons x xs ih =>
      simp only [shiftLeftBits, List.length_cons, ih]

/-- The word of a step holds the shifted limb and the carry. -/
theorem shiftLeftWord_eq
    (x : UInt32) {s c : UInt64} (hs : s.toNat < 32) (hc : c.toNat < 2 ^ 32) :
    (x.toUInt64 <<< s + c).toNat = x.toNat * 2 ^ s.toNat + c.toNat := by
  have hx := x.toNat_lt
  have hpow : 2 ^ s.toNat ≤ 2 ^ 31 := Nat.pow_le_pow_right (by decide) (by omega)
  have hle : x.toNat * 2 ^ s.toNat ≤ (2 ^ 32 - 1) * 2 ^ 31 :=
    Nat.mul_le_mul (by omega) hpow
  have hshift : (x.toUInt64 <<< s).toNat = x.toNat * 2 ^ s.toNat := by
    rw [toNat_shiftLeft_word _ _ (by omega)] <;> rw [UInt32.toNat_toUInt64]
    omega
  rw [toNat_add_of_lt] <;> rw [hshift]
  omega

theorem toNat_shiftLeftBits
    {s : UInt64} (hs : s.toNat < 32) (a : Magnitude) {c : UInt64} (hc : c.toNat < 2 ^ 32) :
    toNat (shiftLeftBits s a c) = toNat a * 2 ^ s.toNat + c.toNat := by
  induction a generalizing c with
  | nil =>
      simp [shiftLeftBits, toNat_toUInt32_of_lt hc]
  | cons x xs ih =>
      have hhalves := word_halves (x.toUInt64 <<< s + c)
      rw [shiftLeftWord_eq x hs hc] at hhalves
      simp only [shiftLeftBits, toNat_cons, ih (word_high_lt _), Nat.add_mul, Nat.mul_assoc]
      omega

@[simp] theorem toNat_shiftLeft
    (a : Magnitude) (n : Nat) :
    toNat (shiftLeft a n) = toNat a * 2 ^ n := by
  unfold shiftLeft
  split
  · rename_i h
    simp [h]
  · have hs := toNat_ofNat_mod n
    have hsplit : 2 ^ n = 2 ^ (32 * (n / 32)) * 2 ^ (n % 32) := by
      rw [← Nat.pow_add, Nat.div_add_mod]
    rw [toNat_normalize, toNat_append, toNat_replicate_zero, List.length_replicate,
      toNat_shiftLeftBits (by omega) a (by decide), hs, hsplit, UInt64.toNat_zero]
    ring

@[simp] theorem normalized_shiftLeft
    (a : Magnitude) (n : Nat) :
    Normalized (shiftLeft a n) := by
  unfold shiftLeft
  split
  · exact normalized_nil
  · exact normalized_normalize _

/-! ### Shifts to the right -/

/--
A number divided by a factor `p` of the base, limb by limb: the lowest limb of
the quotient is read off the two lowest limbs `x` and `y`.
-/
theorem div_digit
    {p q x y rest : Nat} (hpq : p * q = 2 ^ 32) (hx : x < 2 ^ 32) :
    (x + 2 ^ 32 * (y + 2 ^ 32 * rest)) / p =
      (x + y * 2 ^ 32) / p % 2 ^ 32 + 2 ^ 32 * ((y + 2 ^ 32 * rest) / p) := by
  have hp : 0 < p := Nat.pos_of_ne_zero (by rintro rfl; omega)
  have hdiv (m : Nat) : (x + 2 ^ 32 * m) / p = x / p + q * m := by
    rw [← hpq, Nat.mul_assoc, Nat.add_mul_div_left _ _ hp]
  have hlow : x / p < q := Nat.div_lt_of_lt_mul (by omega)
  -- both numbers leave the same remainder by `p`, and the quotient of it is below the base
  have hmod : (y + 2 ^ 32 * rest) % p = y % p := by
    rw [← hpq, Nat.mul_assoc, Nat.add_mul_mod_self_left]
  have hscale (m : Nat) : q * m = 2 ^ 32 * (m / p) + q * (m % p) := by
    calc
      q * m = q * (p * (m / p) + m % p) := by rw [Nat.div_add_mod]
      _ = 2 ^ 32 * (m / p) + q * (m % p) := by rw [← hpq]; ring
  have hsmall : x / p + q * (y % p) < 2 ^ 32 := by
    have hle : q * (y % p + 1) ≤ q * p := Nat.mul_le_mul_left q (Nat.mod_lt y hp)
    rw [Nat.mul_comm q p, hpq, Nat.mul_succ] at hle
    omega
  have hfirst : (x + y * 2 ^ 32) / p % 2 ^ 32 = x / p + q * (y % p) := by
    rw [Nat.mul_comm y, hdiv, hscale y, Nat.add_left_comm, Nat.mul_add_mod,
      Nat.mod_eq_of_lt hsmall]
  rw [hdiv, hfirst, hscale, hmod]
  omega

/-- The word of a step holds a limb and the next one above it. -/
theorem shiftRightWord_eq
    (x y : UInt32) :
    (x.toUInt64 + y.toUInt64 * limbBase).toNat = x.toNat + y.toNat * 2 ^ 32 := by
  rw [UInt64.add_comm, toNat_mul_limbBase_add (toNat_toUInt64_lt y) (toNat_toUInt64_lt x),
    UInt32.toNat_toUInt64, UInt32.toNat_toUInt64, Nat.add_comm]

theorem toNat_shiftRightBits
    {s : UInt64} (hs : s.toNat ≤ 32) (a : Magnitude) :
    toNat (shiftRightBits s a) = toNat a / 2 ^ s.toNat := by
  induction a with
  | nil =>
      simp [shiftRightBits]
  | cons x xs ih =>
      have hparts := toNat_headD_tail xs
      have hpq : 2 ^ s.toNat * 2 ^ (32 - s.toNat) = 2 ^ 32 := by
        rw [← Nat.pow_add]
        congr 1
        omega
      simp only [shiftRightBits, toNat_cons, ih]
      rw [UInt64.toNat_toUInt32, toNat_shiftRight_word _ _ (by omega), shiftRightWord_eq, ← hparts]
      exact (div_digit hpq x.toNat_lt).symm

@[simp] theorem toNat_shiftRight
    (a : Magnitude) (n : Nat) :
    toNat (shiftRight a n) = toNat a / 2 ^ n := by
  have hs := toNat_ofNat_mod n
  rw [shiftRight, toNat_normalize, toNat_shiftRightBits (by omega), toNat_drop, hs,
    Nat.div_div_eq_div_mul, ← Nat.pow_add, Nat.div_add_mod]

end Magnitude
end DeskCalculator
