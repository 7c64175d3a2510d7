import DeskCalculator.Proofs.Magnitude.QuotientEstimate
import DeskCalculator.Proofs.Magnitude.Sum

/-!
# A step of the long division

A step subtracts a multiple of the divisor modulo a power of the base: the
multiple is the largest one, and then the top limb of the result is zero, or
one too large, and then the result wraps around, its top limb is not zero and
the divisor is added back.

**Results.**
* `toNat_subMulRow`, `toNat_addBackRow`: what the rows compute.
* `getLast?_eq_zero_iff`: what the top limb tells.
* `subMulRow_cases`: the two ways a step can go.
* `divStep_spec`: a step takes the quotient limb and leaves the remainder.
-/

namespace DeskCalculator
namespace Magnitude

/-! ### Rows of the long division -/

theorem length_subMulRow
    (q : UInt64) (v w : Magnitude) (c : UInt64) (hlen : w.length = v.length + 1) :
    (subMulRow q v w c).length = w.length := by
  induction v generalizing w c with
  | nil =>
      obtain ⟨x, rfl⟩ := List.length_eq_one_iff.mp hlen
      rfl
  | cons y ys ih =>
      cases w with
      | nil =>
          cases hlen
      | cons x xs =>
          simp only [subMulRow, List.length_cons]
          rw [ih xs _ (Nat.succ.inj hlen)]

/-- The limb that a step of a row writes, and what it hands on. -/
theorem subMulWord_spec
    {q c : UInt64} (x y : UInt32) (hq : q.toNat < 2 ^ 32) (hc : c.toNat < 2 ^ 32)
    {p : UInt64} (hp : p = q * y.toUInt64 + c) :
    ((p >>> 32) + (if x < p.toUInt32 then 1 else 0)).toNat < 2 ^ 32 ∧
      (x - p.toUInt32).toNat + (q.toNat * y.toNat + c.toNat) =
        x.toNat + 2 ^ 32 * ((p >>> 32) + (if x < p.toUInt32 then 1 else 0)).toNat := by
  have hx := x.toNat_lt
  have hy := y.toNat_lt
  have hle := limb_mul_le hq hy
  have hprod : (q * y.toUInt64).toNat = q.toNat * y.toNat :=
    toNat_mul_of_lt (by rw [UInt32.toNat_toUInt64]; omega)
  have hword : p.toNat = q.toNat * y.toNat + c.toNat := by
    rw [hp, toNat_add_of_lt] <;> rw [hprod]
    omega
  have hhalves := word_halves p
  have hlow := p.toUInt32.toNat_lt
  have hlt : x < p.toUInt32 ↔ x.toNat < p.toUInt32.toNat := UInt32.lt_iff_toNat_lt
  split
  · rename_i h
    have hless := hlt.mp h
    have hcarry : (p >>> 32 + 1).toNat = (p >>> 32).toNat + 1 := by
      have := word_high_lt p
      rw [toNat_add_of_lt] <;> rw [UInt64.toNat_one]
      omega
    have hlimb : (x - p.toUInt32).toNat = x.toNat + 2 ^ 32 - p.toUInt32.toNat := by
      rw [UInt32.toNat_sub]
      omega
    rw [hcarry, hlimb]
    omega
  · rename_i h
    have hmore := mt hlt.mpr h
    have hlimb : (x - p.toUInt32).toNat = x.toNat - p.toUInt32.toNat :=
      UInt32.toNat_sub_of_le _ _ (UInt32.le_iff_toNat_le.mpr (by omega))
    rw [UInt64.add_zero, hlimb]
    omega

/-- A row subtracts the multiple, up to a multiple of a power of the base. -/
theorem toNat_subMulRow
    {q : UInt64} (hq : q.toNat < 2 ^ 32) (v w : Magnitude) {c : UInt64} (hc : c.toNat < 2 ^ 32)
    (hlen : w.length = v.length + 1) :
    ∃ k, toNat (subMulRow q v w c) + (q.toNat * toNat v + c.toNat) =
      toNat w + 2 ^ (32 * w.length) * k := by
  induction v generalizing w c with
  | nil =>
      obtain ⟨x, rfl⟩ := List.length_eq_one_iff.mp hlen
      have hx := x.toNat_lt
      have hlow := toNat_toUInt32_of_lt hc
      have hsub := UInt32.toNat_sub x c.toUInt32
      refine ⟨if x.toNat < c.toNat then 1 else 0, ?_⟩
      simp only [subMulRow, toNat_cons, toNat_nil, hsub, hlow, List.length_singleton]
      split <;> omega
  | cons y ys ih =>
      cases w with
      | nil =>
          cases hlen
      | cons x xs =>
          obtain ⟨hcarry, hdigit⟩ := subMulWord_spec x y hq hc rfl
          obtain ⟨k, hk⟩ := ih xs hcarry (Nat.succ.inj hlen)
          refine ⟨k, ?_⟩
          simp only [subMulRow, toNat_cons, List.length_cons, Nat.mul_add, Nat.mul_succ,
            Nat.pow_add, Nat.mul_left_comm q.toNat, Nat.mul_comm _ (2 ^ 32), Nat.mul_assoc]
          omega

/-- A multiple that is not above the window leaves the difference. -/
theorem toNat_subMulRow_of_le
    {q : UInt64} (hq : q.toNat < 2 ^ 32) {v w : Magnitude} (hlen : w.length = v.length + 1)
    (hle : q.toNat * toNat v ≤ toNat w) :
    toNat (subMulRow q v w 0) + q.toNat * toNat v = toNat w := by
  obtain ⟨k, hk⟩ := toNat_subMulRow hq v w (UInt64.toNat_zero.le.trans_lt (by decide)) hlen
  have hlt := toNat_lt (subMulRow q v w 0)
  rw [length_subMulRow q v w 0 hlen] at hlt
  rw [UInt64.toNat_zero, Nat.add_zero] at hk
  rcases Nat.eq_zero_or_pos k with rfl | hpos
  · omega
  · have := Nat.le_mul_of_pos_right (2 ^ (32 * w.length)) hpos
    omega

/-- A multiple that is neither zero nor twice the power wraps around once. -/
theorem eq_one_of_mul_lt
    {P k : Nat} (hpos : 0 < P * k) (hlt : P * k < P * 2) :
    k = 1 := by
  have hk := Nat.lt_of_mul_lt_mul_left hlt
  have hne := Nat.pos_of_mul_pos_left hpos
  omega

/-- A larger one makes the result wrap around, once if the excess is a magnitude. -/
theorem toNat_subMulRow_of_gt
    {q : UInt64} (hq : q.toNat < 2 ^ 32) {v w : Magnitude} (hlen : w.length = v.length + 1)
    (hgt : toNat w < q.toNat * toNat v)
    (hle : q.toNat * toNat v ≤ toNat w + 2 ^ (32 * w.length)) :
    toNat (subMulRow q v w 0) + q.toNat * toNat v = toNat w + 2 ^ (32 * w.length) := by
  obtain ⟨k, hk⟩ := toNat_subMulRow hq v w (UInt64.toNat_zero.le.trans_lt (by decide)) hlen
  have hlt := toNat_lt (subMulRow q v w 0)
  rw [length_subMulRow q v w 0 hlen] at hlt
  rw [UInt64.toNat_zero, Nat.add_zero] at hk
  obtain rfl : k = 1 := eq_one_of_mul_lt (P := 2 ^ (32 * w.length)) (by omega) (by omega)
  omega

theorem length_addBackRow
    (v w : Magnitude) (c : UInt64) (hlen : w.length = v.length + 1) :
    (addBackRow v w c).length = w.length := by
  induction v generalizing w c with
  | nil =>
      obtain ⟨x, rfl⟩ := List.length_eq_one_iff.mp hlen
      rfl
  | cons y ys ih =>
      cases w with
      | nil =>
          cases hlen
      | cons x xs =>
          simp only [addBackRow, List.length_cons]
          rw [ih xs _ (Nat.succ.inj hlen)]

/-- A row adds the divisor, up to a multiple of a power of the base. -/
theorem toNat_addBackRow
    (v w : Magnitude) {c : UInt64} (hc : c.toNat ≤ 1) (hlen : w.length = v.length + 1) :
    ∃ k, toNat (addBackRow v w c) + 2 ^ (32 * w.length) * k = toNat w + toNat v + c.toNat := by
  induction v generalizing w c with
  | nil =>
      obtain ⟨x, rfl⟩ := List.length_eq_one_iff.mp hlen
      have hx := x.toNat_lt
      have hlow := toNat_toUInt32_of_lt (show c.toNat < 2 ^ 32 by omega)
      have hadd := UInt32.toNat_add x c.toUInt32
      refine ⟨if x.toNat + c.toNat < 2 ^ 32 then 0 else 1, ?_⟩
      simp only [addBackRow, toNat_cons, toNat_nil, hadd, hlow, List.length_singleton]
      split <;> omega
  | cons y ys ih =>
      cases w with
      | nil =>
          cases hlen
      | cons x xs =>
          have hword := sumWord_eq x y hc
          have hhalves := word_halves (x.toUInt64 + y.toUInt64 + c)
          obtain ⟨k, hk⟩ := ih xs (sumWord_high_le x y hc) (Nat.succ.inj hlen)
          refine ⟨k, ?_⟩
          simp only [addBackRow, toNat_cons, List.length_cons, Nat.mul_succ, Nat.pow_add,
            Nat.mul_comm _ (2 ^ 32), Nat.mul_assoc]
          omega

/-- Adding the divisor to a result that wrapped around brings it back. -/
theorem toNat_addBackRow_of_ge
    {v w : Magnitude} (hlen : w.length = v.length + 1)
    (hge : 2 ^ (32 * w.length) ≤ toNat w + toNat v) :
    toNat (addBackRow v w 0) + 2 ^ (32 * w.length) = toNat w + toNat v := by
  obtain ⟨k, hk⟩ := toNat_addBackRow v w (UInt64.toNat_zero.le.trans (by decide)) hlen
  have hlt := toNat_lt (addBackRow v w 0)
  have hw := toNat_lt w
  have hv : toNat v < 2 ^ (32 * w.length) :=
    (toNat_lt v).trans_le (Nat.pow_le_pow_right (by decide) (by omega))
  rw [length_addBackRow v w 0 hlen] at hlt
  rw [UInt64.toNat_zero, Nat.add_zero] at hk
  obtain rfl : k = 1 := eq_one_of_mul_lt (P := 2 ^ (32 * w.length)) (by omega) (by omega)
  omega

/-! ### The top limbs -/

theorem topThree_append
    (low : Magnitude) (x y z : UInt32) :
    topThree (low ++ [x, y, z]) = (z.toUInt64, y.toUInt64, x.toUInt64) := by
  induction low with
  | nil =>
      rfl
  | cons a low ih =>
      rw [← ih]
      rcases low with - | ⟨_, - | ⟨_, - | ⟨_, low⟩⟩⟩ <;> rfl

theorem exists_topThree_cons
    (low : Magnitude) (x y : UInt32) :
    ∃ t, topThree (0 :: (low ++ [x, y])) = (y.toUInt64, x.toUInt64, t) := by
  induction low using List.reverseRecOn with
  | nil =>
      exact ⟨0, rfl⟩
  | append_singleton low z _ =>
      refine ⟨z.toUInt64, ?_⟩
      rw [← topThree_append (0 :: low) z x y]
      simp

theorem exists_append_one
    (a : Magnitude) {n : Nat} (hlen : a.length = n + 1) :
    ∃ low x, a = low ++ [x] ∧ low.length = n := by
  rcases List.eq_nil_or_concat' a with rfl | ⟨low, x, rfl⟩
  · simp at hlen
  · exact ⟨low, x, rfl, by simpa using hlen⟩

theorem exists_append_two
    (a : Magnitude) {n : Nat} (hlen : a.length = n + 2) :
    ∃ low x y, a = low ++ [x, y] ∧ low.length = n := by
  obtain ⟨rest, y, rfl, hrest⟩ := exists_append_one a hlen
  obtain ⟨low, x, rfl, hlow⟩ := exists_append_one rest hrest
  exact ⟨low, x, y, by simp, hlow⟩

theorem exists_append_three
    (a : Magnitude) {n : Nat} (hlen : a.length = n + 3) :
    ∃ low x y z, a = low ++ [x, y, z] ∧ low.length = n := by
  obtain ⟨rest, y, z, rfl, hrest⟩ := exists_append_two a hlen
  obtain ⟨low, x, rfl, hlow⟩ := exists_append_one rest hrest
  exact ⟨low, x, y, z, by simp, hlow⟩

/-- The top limb is zero if the value fits in the limbs below it. -/
theorem getLast?_eq_zero_iff
    {a : Magnitude} {n : Nat} (hlen : a.length = n + 1) :
    a.getLast? = some 0 ↔ toNat a < 2 ^ (32 * n) := by
  obtain ⟨low, x, rfl, rfl⟩ := exists_append_one a hlen
  have hlow := toNat_lt low
  rw [List.getLast?_concat, Option.some.injEq, toNat_append, toNat_cons, toNat_nil,
    Nat.mul_zero, Nat.add_zero]
  constructor
  · rintro rfl
    simpa using hlow
  · intro hlt
    have hx : x.toNat = 0 := by
      by_contra hne
      have := Nat.le_mul_of_pos_right (2 ^ (32 * low.length)) (Nat.pos_of_ne_zero hne)
      omega
    exact UInt32.toNat_inj.mp hx

theorem toNat_dropLast
    {a : Magnitude} (h : a.getLast? = some 0) :
    toNat a.dropLast = toNat a := by
  obtain ⟨low, rfl⟩ := List.getLast?_eq_some_iff.mp h
  rw [List.dropLast_concat, toNat_append]
  simp

/-! ### A step of the long division -/

/-- The heads of a divisor with its top bit set and of a window for one limb. -/
theorem heads_of_append
    {vlow wlow : Magnitude} {n h u₀ u₁ u₂ : UInt32} (hlen : wlow.length = vlow.length)
    (hh : 2 ^ 31 ≤ h.toNat)
    (hlt : toNat (wlow ++ [u₀, u₁, u₂]) < 2 ^ 32 * toNat (vlow ++ [n, h])) :
    Heads ⟨h.toUInt64, n.toUInt64⟩ u₂.toUInt64 u₁.toUInt64 u₀.toUInt64
      (2 ^ (32 * vlow.length)) (toNat (vlow ++ [n, h])) (toNat (wlow ++ [u₀, u₁, u₂])) := by
  have hn := n.toNat_lt
  have hv := toNat_lt vlow
  have hw := toNat_lt wlow
  rw [hlen] at hw
  have hV : toNat (vlow ++ [n, h]) =
      toNat vlow + (h.toNat * 2 ^ 32 + n.toNat) * 2 ^ (32 * vlow.length) := by
    rw [toNat_append]
    simp only [toNat_cons, toNat_nil]
    ring
  have hW : toNat (wlow ++ [u₀, u₁, u₂]) = toNat wlow +
      ((u₂.toNat * 2 ^ 32 + u₁.toNat) * 2 ^ 32 + u₀.toNat) * 2 ^ (32 * vlow.length) := by
    rw [toNat_append, hlen]
    simp only [toNat_cons, toNat_nil]
    ring
  have hP := Nat.two_pow_pos (32 * vlow.length)
  have hu₂ : u₂.toNat ≤ h.toNat := by
    by_contra hgt
    rw [hW, hV] at hlt
    have hstep : (h.toNat * 2 ^ 32 + n.toNat + 1) * 2 ^ 32 ≤
        (u₂.toNat * 2 ^ 32 + u₁.toNat) * 2 ^ 32 + u₀.toNat := by omega
    have := Nat.mul_le_mul_right (2 ^ (32 * vlow.length)) hstep
    nlinarith
  constructor
  case weight_pos => exact hP
  case quotient_lt => exact hlt
  all_goals simp only [UInt32.toNat_toUInt64]
  case high_lt => exact h.toNat_lt
  case next_lt => exact n.toNat_lt
  case u₂_le => exact hu₂
  case u₁_lt => exact u₁.toNat_lt
  case u₀_lt => exact u₀.toNat_lt
  case high_ge => exact hh
  case divisor_ge => rw [hV]; exact Nat.le_add_left _ _
  case divisor_lt => rw [hV]; linarith
  case window_ge => rw [hW]; exact Nat.le_add_left _ _
  case window_lt => rw [hW]; linarith

/--
A digit that is the quotient leaves the remainder, under a zero limb; one more
makes the row wrap around, and adding the divisor gives the remainder back.
-/
theorem subMulRow_cases
    {digit : UInt64} {v w : Magnitude} (hlen : w.length = v.length + 1)
    (hlt : toNat w < 2 ^ 32 * toNat v) (hge : toNat w / toNat v ≤ digit.toNat)
    (hle : digit.toNat ≤ toNat w / toNat v + 1) (hlimb : digit.toNat < 2 ^ 32) :
    (digit.toNat = toNat w / toNat v ∧ digit.toNat * toNat v ≤ toNat w ∧
        toNat (subMulRow digit v w 0) = toNat w % toNat v ∧
        (subMulRow digit v w 0).getLast? = some 0) ∨
      (digit.toNat = toNat w / toNat v + 1 ∧ toNat w < digit.toNat * toNat v ∧
        toNat (subMulRow digit v w 0) + toNat v = toNat w % toNat v + 2 ^ (32 * w.length) ∧
        (subMulRow digit v w 0).getLast? ≠ some 0) := by
  have hvlt := toNat_lt v
  have hpos : 0 < toNat v := Nat.pos_of_mul_pos_left (Nat.zero_lt_of_lt hlt)
  have hrem := Nat.mod_lt (toNat w) hpos
  have hdiv := Nat.div_add_mod' (toNat w) (toNat v)
  have hpow : 2 ^ (32 * w.length) = 2 ^ 32 * 2 ^ (32 * v.length) := by
    rw [hlen, Nat.mul_succ, Nat.pow_add, Nat.mul_comm]
  have htop := getLast?_eq_zero_iff (n := v.length)
    ((length_subMulRow digit v w 0 hlen).trans hlen)
  rcases (Nat.le_add_one_iff.mp hle).imp_left (fun h => h.antisymm hge) with hexact | hexcess
  · have hmultiple : digit.toNat * toNat v = toNat w / toNat v * toNat v := by rw [hexact]
    have hsub := toNat_subMulRow_of_le hlimb hlen (by omega)
    exact Or.inl ⟨hexact, by omega, by omega, htop.mpr (by omega)⟩
  · have hmultiple : digit.toNat * toNat v = toNat w / toNat v * toNat v + toNat v := by
      rw [hexcess, Nat.succ_mul]
    have hsub := toNat_subMulRow_of_gt hlimb hlen (by omega) (by omega)
    exact Or.inr ⟨hexcess, by omega, by omega, mt htop.mp (by omega)⟩

/-- A step takes the quotient limb and leaves the remainder. -/
theorem divStep_spec
    {vlow w : Magnitude} {n h : UInt32} (hh : 2 ^ 31 ≤ h.toNat)
    (hlen : w.length = vlow.length + 3)
    (hlt : toNat w < 2 ^ 32 * toNat (vlow ++ [n, h])) :
    (divStep ⟨h.toUInt64, n.toUInt64⟩ (vlow ++ [n, h]) w).1.toNat =
        toNat w / toNat (vlow ++ [n, h]) ∧
      toNat (divStep ⟨h.toUInt64, n.toUInt64⟩ (vlow ++ [n, h]) w).2 =
        toNat w % toNat (vlow ++ [n, h]) ∧
      (divStep ⟨h.toUInt64, n.toUInt64⟩ (vlow ++ [n, h]) w).2.length =
        (vlow ++ [n, h]).length := by
  obtain ⟨wlow, u₀, u₁, u₂, rfl, hwlow⟩ := exists_append_three w hlen
  obtain ⟨hge, hle, hlimb⟩ := QuotientEstimate.estimate_bounds (heads_of_append hwlow hh hlt)
  have hVlen : (vlow ++ [n, h]).length = vlow.length + 2 := by simp
  rw [divStep, topThree_append]
  dsimp only
  generalize vlow ++ [n, h] = V at *
  generalize wlow ++ [u₀, u₁, u₂] = W at *
  generalize (((QuotientEstimate.ofTop ⟨h.toUInt64, n.toUInt64⟩ u₂.toUInt64
    u₁.toUInt64).correct ⟨h.toUInt64, n.toUInt64⟩ u₀.toUInt64).correct
      ⟨h.toUInt64, n.toUInt64⟩ u₀.toUInt64) = e at *
  have hrow : W.length = V.length + 1 := by omega
  have hsublen := length_subMulRow e.digit V W 0 hrow
  rcases subMulRow_cases hrow hlt hge hle hlimb with
    ⟨hexact, -, hsub, hzero⟩ | ⟨hexcess, -, hsub, hnonzero⟩
  · -- the digit is the quotient, and the remainder stands there
    rw [if_pos hzero]
    refine ⟨(toNat_toUInt32_of_lt hlimb).trans hexact, ?_, ?_⟩
    · rw [toNat_dropLast hzero, hsub]
    · rw [List.length_dropLast, hsublen, hrow, Nat.add_sub_cancel]
  · -- the digit is one too large, and the divisor is added back
    rw [if_neg hnonzero]
    have hback := toNat_addBackRow_of_ge (hsublen.trans hrow) (by rw [hsublen]; omega)
    have hbacklen := length_addBackRow V (subMulRow e.digit V W 0) 0 (hsublen.trans hrow)
    rw [hsublen] at hback hbacklen
    have hrem := Nat.mod_lt (toNat W) (Nat.pos_of_mul_pos_left (Nat.zero_lt_of_lt hlt))
    have hVlt := toNat_lt V
    have hzero := (getLast?_eq_zero_iff (n := V.length) (hbacklen.trans hrow)).mpr (by omega)
    have hless : (e.digit - 1).toNat = toNat W / toNat V := by
      rw [UInt64.toNat_sub_of_le, hexcess, UInt64.toNat_one, Nat.add_sub_cancel]
      rw [UInt64.le_iff_toNat_le, hexcess, UInt64.toNat_one]
      exact Nat.le_add_left _ _
    refine ⟨?_, ?_, ?_⟩
    · rw [toNat_toUInt32_of_lt] <;> rw [hless]
      exact hge.trans_lt hlimb
    · rw [toNat_dropLast hzero]
      omega
    · rw [List.length_dropLast, hbacklen, hrow, Nat.add_sub_cancel]

end Magnitude
end DeskCalculator
