import DeskCalculator.Proofs.Magnitude.DivisionStep
import DeskCalculator.Proofs.Magnitude.Order
import DeskCalculator.Proofs.Magnitude.Shift

/-!
# Division of magnitudes is division of numbers

Division by a limb and the long division are inductions from the high end of
the dividend: what was read is the quotient so far times the divisor and a
remainder below it.

**Results.**
* `divModLimb_spec`: division by a limb.
* `divLoop_spec`, `longDiv_spec`: the long division.
* `toNat_divMod_fst`, `toNat_divMod_snd`: quotient and remainder.
* `toNat_gcd`: the greatest common divisor.
-/

namespace DeskCalculator
namespace Magnitude

/-! ### Division by a limb -/

theorem divModLimbLoop_nil
    (d : UInt64) (q : Magnitude) (r : UInt64) :
    divModLimbLoop d [] q r = (q, r) :=
  rfl

-- proved by unfolding, since the equation that the definition generates is slow to check
theorem divModLimbLoop_cons
    (d : UInt64) (x : UInt32) (xs q : Magnitude) (r : UInt64) :
    divModLimbLoop d (x :: xs) q r =
      divModLimbLoop d xs (push ((r * limbBase + x.toUInt64) / d).toUInt32 q)
        ((r * limbBase + x.toUInt64) % d) := by
  conv_lhs => unfold divModLimbLoop

/-- The word of a step, divided: the quotient is a limb. -/
theorem divModLimbWord_spec
    {d r : UInt64} (x : UInt32) (hd : d.toNat < 2 ^ 32) (hr : r.toNat < d.toNat) :
    ((r * limbBase + x.toUInt64) / d).toUInt32.toNat =
        (r.toNat * 2 ^ 32 + x.toNat) / d.toNat ∧
      ((r * limbBase + x.toUInt64) % d).toNat = (r.toNat * 2 ^ 32 + x.toNat) % d.toNat := by
  have hx := x.toNat_lt
  have hword : (r * limbBase + x.toUInt64).toNat = r.toNat * 2 ^ 32 + x.toNat := by
    rw [toNat_mul_limbBase_add (hr.trans hd) (toNat_toUInt64_lt x), UInt32.toNat_toUInt64]
  have hlt : (r.toNat * 2 ^ 32 + x.toNat) / d.toNat < 2 ^ 32 := by
    rw [Nat.div_lt_iff_lt_mul (by omega)]
    have hstep : (r.toNat + 1) * 2 ^ 32 ≤ d.toNat * 2 ^ 32 := Nat.mul_le_mul_right _ hr
    omega
  constructor
  · rw [toNat_toUInt32_of_lt] <;> rw [UInt64.toNat_div, hword]
    exact hlt
  · rw [UInt64.toNat_mod, hword]

/-- The invariant of the loop: what was read is the quotient times the limb and the rest. -/
theorem divModLimbLoop_spec
    {d : UInt64} (hd : d.toNat < 2 ^ 32) (digits : Magnitude) {q : Magnitude} {r : UInt64}
    (hq : Normalized q) (hr : r.toNat < d.toNat) :
    Normalized (divModLimbLoop d digits q r).1 ∧
      (divModLimbLoop d digits q r).2.toNat < d.toNat ∧
      toNat (divModLimbLoop d digits q r).1 * d.toNat +
          (divModLimbLoop d digits q r).2.toNat =
        (toNat q * d.toNat + r.toNat) * 2 ^ (32 * digits.length) + toNat digits.reverse := by
  induction digits generalizing q r with
  | nil =>
      refine ⟨hq, hr, ?_⟩
      rw [List.length_nil, List.reverse_nil, toNat_nil, Nat.mul_zero, Nat.pow_zero, Nat.mul_one,
        Nat.add_zero, divModLimbLoop_nil]
  | cons x xs ih =>
      obtain ⟨hdigit, hrest⟩ := divModLimbWord_spec x hd hr
      have hmod : ((r * limbBase + x.toUInt64) % d).toNat < d.toNat := by
        rw [hrest]
        exact Nat.mod_lt _ (by omega)
      obtain ⟨hnorm, hbound, hvalue⟩ :=
        ih (hq.push ((r * limbBase + x.toUInt64) / d).toUInt32) hmod
      rw [divModLimbLoop_cons]
      refine ⟨hnorm, hbound, ?_⟩
      have hsplit := Nat.div_add_mod' (r.toNat * 2 ^ 32 + x.toNat) d.toNat
      rw [hvalue, toNat_push, hdigit, hrest, List.reverse_cons, toNat_append,
        List.length_reverse, List.length_cons, Nat.mul_succ, Nat.pow_add]
      have hsum : ((r.toNat * 2 ^ 32 + x.toNat) / d.toNat + 2 ^ 32 * toNat q) * d.toNat +
            (r.toNat * 2 ^ 32 + x.toNat) % d.toNat =
          (toNat q * d.toNat + r.toNat) * 2 ^ 32 + x.toNat := by
        rw [Nat.add_mul]
        linarith
      rw [hsum]
      simp only [toNat_cons, toNat_nil]
      ring

/-- Quotient and remainder by a limb that is not zero. -/
theorem divModLimb_spec
    (a : Magnitude) {d : UInt32} (hd : d ≠ 0) :
    Normalized (divModLimb a d).1 ∧ toNat (divModLimb a d).1 = toNat a / d.toNat ∧
      (divModLimb a d).2.toNat = toNat a % d.toNat := by
  have hpos : 0 < d.toNat := by
    by_contra h
    exact hd (UInt32.toNat_inj.mp (by rw [UInt32.toNat_zero]; omega))
  obtain ⟨hnorm, hbound, hvalue⟩ :=
    divModLimbLoop_spec (toNat_toUInt64_lt d) a.reverse normalized_nil
      (show (0 : UInt64).toNat < d.toUInt64.toNat by simpa using hpos)
  rw [UInt32.toNat_toUInt64] at hbound hvalue
  rw [toNat_nil, List.reverse_reverse, UInt64.toNat_zero, Nat.zero_mul, Nat.zero_add,
    Nat.zero_mul, Nat.zero_add] at hvalue
  have hlow : (divModLimbLoop d.toUInt64 a.reverse [] 0).2.toUInt32.toNat =
      (divModLimbLoop d.toUInt64 a.reverse [] 0).2.toNat :=
    toNat_toUInt32_of_lt (hbound.trans d.toNat_lt)
  obtain ⟨hquot, hrem⟩ := (Nat.div_mod_unique hpos).mpr
    ⟨(by rw [Nat.add_comm, Nat.mul_comm]; exact hvalue : _ + d.toNat * _ = toNat a), hbound⟩
  exact ⟨hnorm, hquot.symm, by rw [hrem, ← hlow]; rfl⟩

/-! ### The long division -/

/-- A limb in front of a remainder makes a window that is below the divisor times the base. -/
theorem window_spec
    (x : UInt32) {vlow r : Magnitude} {n h : UInt32}
    (hlen : r.length = (vlow ++ [n, h]).length) (hlt : toNat r < toNat (vlow ++ [n, h])) :
    (x :: r).length = vlow.length + 3 ∧ toNat (x :: r) < 2 ^ 32 * toNat (vlow ++ [n, h]) := by
  have hx := x.toNat_lt
  constructor
  · rw [List.length_cons, hlen]
    simp
  · rw [toNat_cons]
    omega

/-- The invariant of the long division: the remainder is below the divisor. -/
theorem divLoop_spec
    {vlow : Magnitude} {n h : UInt32} (hh : 2 ^ 31 ≤ h.toNat) {top : Magnitude}
    (hlen : top.length = (vlow ++ [n, h]).length)
    (hlt : toNat top < toNat (vlow ++ [n, h])) (low : Magnitude) :
    Normalized (divLoop ⟨h.toUInt64, n.toUInt64⟩ (vlow ++ [n, h]) top low).1 ∧
      (divLoop ⟨h.toUInt64, n.toUInt64⟩ (vlow ++ [n, h]) top low).2.length =
        (vlow ++ [n, h]).length ∧
      toNat (divLoop ⟨h.toUInt64, n.toUInt64⟩ (vlow ++ [n, h]) top low).2 <
        toNat (vlow ++ [n, h]) ∧
      toNat (divLoop ⟨h.toUInt64, n.toUInt64⟩ (vlow ++ [n, h]) top low).1 *
            toNat (vlow ++ [n, h]) +
          toNat (divLoop ⟨h.toUInt64, n.toUInt64⟩ (vlow ++ [n, h]) top low).2 =
        toNat (low ++ top) := by
  induction low with
  | nil =>
      refine ⟨normalized_nil, hlen, hlt, ?_⟩
      simp only [divLoop, toNat_nil, Nat.zero_mul, Nat.zero_add, List.nil_append]
  | cons x low ih =>
      obtain ⟨hnorm, hrlen, hrlt, hvalue⟩ := ih
      rw [divLoop]
      generalize divLoop ⟨h.toUInt64, n.toUInt64⟩ (vlow ++ [n, h]) top low = rest at *
      obtain ⟨q, r⟩ := rest
      dsimp only at hnorm hrlen hrlt hvalue ⊢
      obtain ⟨hwlen, hwindow⟩ := window_spec x hrlen hrlt
      obtain ⟨hdigit, hrest, hlen'⟩ := divStep_spec hh hwlen hwindow
      have hsplit := Nat.div_add_mod' (toNat (x :: r)) (toNat (vlow ++ [n, h]))
      refine ⟨hnorm.push _, hlen', ?_, ?_⟩
      · rw [hrest]
        exact Nat.mod_lt _ (Nat.zero_lt_of_lt hrlt)
      · rw [toNat_push, hdigit, hrest, List.cons_append]
        simp only [toNat_cons] at hsplit ⊢
        rw [← hvalue, Nat.add_mul]
        linarith

theorem limbBits_bounds
    {x : UInt32} (hx : x ≠ 0) :
    1 ≤ limbBits x ∧ limbBits x ≤ 32 := by
  have hne : x.toNat ≠ 0 := fun hzero => hx (UInt32.toNat_inj.mp hzero)
  have hnone := mt (limbBits_le_iff x 0).mp (by omega)
  exact ⟨by omega, (limbBits_le_iff x 32).mpr x.toNat_lt⟩

/-- The top limb is at least the quotient by its place. -/
theorem le_top_limb
    {low : Magnitude} {h : UInt32} {k : Nat}
    (hle : 2 ^ (32 * low.length) * k ≤ toNat (low ++ [h])) :
    k ≤ h.toNat := by
  have hlow := toNat_lt low
  rw [toNat_append, toNat_cons, toNat_nil, Nat.mul_zero, Nat.add_zero] at hle
  by_contra hsmall
  have htoo := Nat.mul_le_mul_left (2 ^ (32 * low.length)) (Nat.lt_of_not_le hsmall)
  rw [Nat.mul_succ] at htoo
  omega

/-- Shifted by the leading zeros of its top limb, a magnitude fills its limbs. -/
theorem shifted_bounds
    {low : Magnitude} {high : UInt32} (hb : Normalized (low ++ [high])) (hhigh : high ≠ 0) :
    2 ^ (32 * low.length) * 2 ^ 31 ≤ toNat (low ++ [high]) * 2 ^ (32 - limbBits high) ∧
      toNat (low ++ [high]) * 2 ^ (32 - limbBits high) < 2 ^ (32 * (low.length + 1)) := by
  obtain ⟨hpos, hle⟩ := limbBits_bounds hhigh
  have hbits : bitLength (low ++ [high]) = 32 * low.length + limbBits high := by
    simp [bitLength]
  have habove : toNat (low ++ [high]) < 2 ^ bitLength (low ++ [high]) :=
    (hb.bitLength_le_iff _).mp le_rfl
  have hbelow : 2 ^ (bitLength (low ++ [high]) - 1) ≤ toNat (low ++ [high]) :=
    Nat.le_of_not_lt (mt (hb.bitLength_le_iff _).mpr (by omega))
  constructor
  · calc
      2 ^ (32 * low.length) * 2 ^ 31 =
          2 ^ (bitLength (low ++ [high]) - 1) * 2 ^ (32 - limbBits high) := by
        rw [← Nat.pow_add, ← Nat.pow_add, hbits]
        exact congrArg (2 ^ ·) (by omega)
      _ ≤ toNat (low ++ [high]) * 2 ^ (32 - limbBits high) := Nat.mul_le_mul_right _ hbelow
  · calc
      toNat (low ++ [high]) * 2 ^ (32 - limbBits high) <
          2 ^ bitLength (low ++ [high]) * 2 ^ (32 - limbBits high) :=
        Nat.mul_lt_mul_of_pos_right habove (Nat.two_pow_pos _)
      _ = 2 ^ (32 * (low.length + 1)) := by
        rw [← Nat.pow_add, hbits]
        exact congrArg (2 ^ ·) (by omega)

/-- A magnitude shifted until the top bit of its top limb is set. -/
theorem exists_shifted_divisor
    {b : Magnitude} (hb : Normalized b) (hlen : 2 ≤ b.length) :
    ∃ vlow n h, (shiftLeftBits (UInt64.ofNat (32 - limbBits (b.getLastD 0))) b 0).dropLast =
        vlow ++ [n, h] ∧
      (vlow ++ [n, h]).length = b.length ∧ 2 ^ 31 ≤ h.toNat ∧
      32 - limbBits (b.getLastD 0) < 32 ∧
      toNat (vlow ++ [n, h]) = toNat b * 2 ^ (32 - limbBits (b.getLastD 0)) := by
  obtain ⟨low, high, rfl, hlow⟩ := exists_append_one b (n := b.length - 1) (by omega)
  rw [List.getLastD_concat]
  have hhigh : high ≠ 0 := fun hzero => by simp [Normalized, hzero] at hb
  obtain ⟨hpos, hle⟩ := limbBits_bounds hhigh
  obtain ⟨hfull, hfits⟩ := shifted_bounds hb hhigh
  have hs : (UInt64.ofNat (32 - limbBits high)).toNat = 32 - limbBits high := by
    rw [UInt64.toNat_ofNat']
    omega
  have hvalue := toNat_shiftLeftBits (c := 0)
    (by rw [hs]; omega : (UInt64.ofNat (32 - limbBits high)).toNat < 32) (low ++ [high])
    (by decide)
  have hshiftlen := length_shiftLeftBits (UInt64.ofNat (32 - limbBits high)) (low ++ [high]) 0
  rw [hs, UInt64.toNat_zero, Nat.add_zero] at hvalue
  -- nothing was shifted into the limb on top
  have htop : (shiftLeftBits (UInt64.ofNat (32 - limbBits high)) (low ++ [high]) 0).getLast? =
      some 0 := by
    rw [getLast?_eq_zero_iff (n := low.length + 1) (by simp [hshiftlen]), hvalue]
    exact hfits
  obtain ⟨vlow, n, h, hv, hvlen⟩ := exists_append_two
    (shiftLeftBits (UInt64.ofNat (32 - limbBits high)) (low ++ [high]) 0).dropLast
    (n := low.length - 1) (by simp [hshiftlen]; omega)
  have hdrop := toNat_dropLast htop
  rw [hv, hvalue] at hdrop
  have hlowlen : (vlow ++ [n]).length = low.length := by
    rw [List.length_append, hvlen, List.length_singleton]
    omega
  refine ⟨vlow, n, h, hv, by simp [hvlen]; omega, ?_, by omega, hdrop⟩
  rw [← hdrop, ← hlowlen, List.append_cons vlow n [h]] at hfull
  exact le_top_limb hfull

/--
The operands of a long division, shifted by the number of leading zeros of the
divisor: the high limbs of the dividend are below the divisor.
-/
theorem exists_shifted_operands
    {a b : Magnitude} (hb : Normalized b) (hlen : 2 ≤ b.length) (hle : b.length ≤ a.length) :
    ∃ vlow n h t s top low,
      32 - limbBits (b.getLastD 0) = s ∧
      (shiftLeftBits (UInt64.ofNat s) b 0).dropLast = vlow ++ [n, h] ∧
      topThree (0 :: (vlow ++ [n, h])) = (h.toUInt64, n.toUInt64, t) ∧
      (shiftLeftBits (UInt64.ofNat s) a 0).drop
        ((shiftLeftBits (UInt64.ofNat s) a 0).length - (vlow ++ [n, h]).length) = top ∧
      (shiftLeftBits (UInt64.ofNat s) a 0).take
        ((shiftLeftBits (UInt64.ofNat s) a 0).length - (vlow ++ [n, h]).length) = low ∧
      s < 32 ∧ 2 ^ 31 ≤ h.toNat ∧
      toNat (vlow ++ [n, h]) = toNat b * 2 ^ s ∧ toNat (low ++ top) = toNat a * 2 ^ s ∧
      top.length = (vlow ++ [n, h]).length ∧ toNat top < toNat (vlow ++ [n, h]) := by
  obtain ⟨vlow, n, h, hv, hvlen, hh, hs, hvalue⟩ := exists_shifted_divisor hb hlen
  obtain ⟨t, ht⟩ := exists_topThree_cons vlow n h
  generalize 32 - limbBits (b.getLastD 0) = s at *
  have hword : (UInt64.ofNat s).toNat = s := by
    rw [UInt64.toNat_ofNat']
    omega
  have hu := toNat_shiftLeftBits (c := 0) (by omega : (UInt64.ofNat s).toNat < 32) a (by decide)
  have hulen := length_shiftLeftBits (UInt64.ofNat s) a 0
  rw [hword, UInt64.toNat_zero, Nat.add_zero] at hu
  refine ⟨vlow, n, h, t, s, _, _, rfl, hv, ht, rfl, rfl, hs, hh, hvalue, ?_, ?_, ?_⟩
  · rw [List.take_append_drop, hu]
  · rw [List.length_drop]
    omega
  · rw [toNat_drop, Nat.div_lt_iff_lt_mul (Nat.two_pow_pos _), hu, hvalue, Nat.mul_right_comm]
    refine Nat.mul_lt_mul_of_pos_right ?_ (Nat.two_pow_pos s)
    generalize hsplit : (shiftLeftBits (UInt64.ofNat s) a 0).length -
      (vlow ++ [n, h]).length = split
    calc
      toNat a < 2 ^ (32 * a.length) := toNat_lt a
      _ = 2 ^ (32 * (b.length - 1)) * 2 ^ (32 * split) := by
        rw [← Nat.pow_add]
        exact congrArg (2 ^ ·) (by omega)
      _ ≤ toNat b * 2 ^ (32 * split) :=
        Nat.mul_le_mul_right _ (hb.pow_le (List.ne_nil_of_length_pos (by omega)))

/-- Quotient and remainder by a divisor of two limbs or more. -/
theorem longDiv_spec
    {a b : Magnitude} (hb : Normalized b) (hlen : 2 ≤ b.length) (hle : b.length ≤ a.length) :
    Normalized (longDiv a b).1 ∧ toNat (longDiv a b).1 = toNat a / toNat b ∧
      Normalized (longDiv a b).2 ∧ toNat (longDiv a b).2 = toNat a % toNat b := by
  obtain ⟨vlow, n, h, t, s, top, low, hshift, hv, ht, hhigh, hrest, hs, hh, hvalue, hu, htoplen,
    htop⟩ := exists_shifted_operands hb hlen hle
  have hpos : 0 < toNat b := hb.toNat_pos (List.ne_nil_of_length_pos (by omega))
  have hword : (UInt64.ofNat s).toNat = s := by
    rw [UInt64.toNat_ofNat']
    omega
  obtain ⟨hnorm, _, hrlt, hloop⟩ := divLoop_spec hh htoplen htop low
  rw [hu, hvalue] at hloop
  rw [hvalue] at hrlt
  simp only [longDiv, hshift, hv, ht, hhigh, hrest]
  generalize divLoop ⟨h.toUInt64, n.toUInt64⟩ (vlow ++ [n, h]) top low = result at *
  obtain ⟨q, r⟩ := result
  dsimp only at hnorm hrlt hloop ⊢
  have hunique := (Nat.div_mod_unique (Nat.mul_pos hpos (Nat.two_pow_pos s))).mpr
    ⟨(by rw [Nat.add_comm, Nat.mul_comm]; exact hloop :
      toNat r + toNat b * 2 ^ s * toNat q = toNat a * 2 ^ s), hrlt⟩
  rw [Nat.mul_div_mul_right _ _ (Nat.two_pow_pos s), Nat.mul_mod_mul_right] at hunique
  refine ⟨hnorm, hunique.1.symm, normalized_normalize _, ?_⟩
  rw [toNat_normalize, toNat_shiftRightBits (by omega), hword, ← hunique.2,
    Nat.mul_div_cancel _ (Nat.two_pow_pos s)]

/-! ### Quotient, remainder and greatest common divisor -/

/-- Quotient and remainder of normalized magnitudes; zero divides into nothing. -/
theorem divMod_spec
    {a b : Magnitude} (ha : Normalized a) (hb : Normalized b) :
    Normalized (divMod a b).1 ∧ toNat (divMod a b).1 = toNat a / toNat b ∧
      Normalized (divMod a b).2 ∧ toNat (divMod a b).2 = toNat a % toNat b := by
  unfold divMod
  split
  · rename_i h
    rcases h with rfl | hlt
    · simp [ha]
    · rw [ha.compare_eq_lt hb] at hlt
      exact ⟨normalized_nil, (Nat.div_eq_of_lt hlt).symm, ha, (Nat.mod_eq_of_lt hlt).symm⟩
  · rename_i h
    rw [not_or, ha.compare_eq_lt hb, Nat.not_lt] at h
    split
    · rename_i d
      have hd : d ≠ 0 := (normalized_cons_iff.mp hb).2 rfl
      obtain ⟨hnorm, hquot, hrem⟩ := divModLimb_spec a hd
      refine ⟨hnorm, ?_, normalized_nil.push _, ?_⟩ <;> simp [hquot, hrem]
    · rename_i hlimb
      have hlen : 2 ≤ b.length := by
        rcases b with - | ⟨x, - | ⟨y, ys⟩⟩
        · exact absurd rfl h.1
        · exact absurd rfl (hlimb x)
        · simp
      refine longDiv_spec hb hlen (Nat.le_of_not_lt fun hlt => ?_)
      have := hb.toNat_lt_of_length_lt hlt
      omega

theorem toNat_divMod_fst
    {a b : Magnitude} (ha : Normalized a) (hb : Normalized b) :
    toNat (divMod a b).1 = toNat a / toNat b :=
  (divMod_spec ha hb).2.1

theorem normalized_divMod_snd
    {a b : Magnitude} (ha : Normalized a) (hb : Normalized b) :
    Normalized (divMod a b).2 :=
  (divMod_spec ha hb).2.2.1

theorem toNat_divMod_snd
    {a b : Magnitude} (ha : Normalized a) (hb : Normalized b) :
    toNat (divMod a b).2 = toNat a % toNat b :=
  (divMod_spec ha hb).2.2.2

/-- The greatest common divisor, and that it is normalized. -/
theorem gcd_spec
    {a b : Magnitude} (ha : Normalized a) (hb : Normalized b) :
    Normalized (gcd a b) ∧ toNat (gcd a b) = Nat.gcd (toNat a) (toNat b) := by
  induction hn : toNat b using Nat.strongRecOn generalizing a b with
  | ind n ih =>
      subst hn
      rw [gcd]
      split
      · rename_i h
        simp [h, ha]
      · rename_i h
        have hpos := hb.toNat_pos h
        have hr := normalized_divMod_snd ha hb
        have hvalue := toNat_divMod_snd ha hb
        have hlt : toNat (divMod a b).2 < toNat b := by
          rw [hvalue]
          exact Nat.mod_lt _ hpos
        rw [dif_pos ((hr.compare_eq_lt hb).mpr hlt)]
        obtain ⟨hnorm, hgcd⟩ := ih _ hlt hb hr rfl
        refine ⟨hnorm, ?_⟩
        rw [hgcd, hvalue, Nat.gcd_comm (toNat b), ← Nat.gcd_rec, Nat.gcd_comm]

theorem normalized_gcd
    {a b : Magnitude} (ha : Normalized a) (hb : Normalized b) :
    Normalized (gcd a b) :=
  (gcd_spec ha hb).1

theorem toNat_gcd
    {a b : Magnitude} (ha : Normalized a) (hb : Normalized b) :
    toNat (gcd a b) = Nat.gcd (toNat a) (toNat b) :=
  (gcd_spec ha hb).2

end Magnitude
end DeskCalculator
