import DeskCalculator.Proofs.Ratio.Binary64
import DeskCalculator.Proofs.Scientific.IntegerExponent

/-!
# Two ways to a power of ten

The key for powers of ten is exact for integers up to a limit, and beyond it
takes the power of binary64 numbers.  The key for powers with any exponent is
exact for all integers, up to the size limit.  Beyond the limit of the first key
a large power is too large for a binary64 number and refused, but a small one is
zero there and returned as zero.

**Results.**
* `powLimits_clamped`: functions that do what is relied on.
* `tenPow_ofInt`: which way an integer goes.
* `apply_tenPow_of_large`, `apply_tenPow_of_small`: the integers beyond the limit.
* `ten_powers_agree_unless_vanished`: where both keys return the same power.
-/

namespace DeskCalculator

open Ratio

/-! ### Powers of ten beyond binary64 -/

/--
What is relied on of powers of ten in binary64.  A power with an exponent `v` is
zero if it is below half of the least number above zero, and infinite if it is
above all numbers.
-/
structure PowLimits (F : RealFunctions) : Prop where
  underflow : ∀ (y : Float) (v : ℚ) (k : Int), Binary64.Denotes y v → v ≤ k →
    (10 : ℚ) ^ k < 2 ^ (-1075 : Int) → F.pow 10.0 y = 0.0
  overflow : ∀ (y : Float) (v : ℚ) (k : Int), Binary64.Denotes y v → k ≤ v →
    (2 : ℚ) ^ (1024 : Int) ≤ 10 ^ k → F.pow 10.0 y = 1.0 / 0.0

theorem two_zpow_lt_ten_zpow :
    (10 : ℚ) ^ (-324 : Int) < 2 ^ (-1075 : Int) ∧ (2 : ℚ) ^ (-1075 : Int) < 10 ^ (-323 : Int) ∧
      (10 : ℚ) ^ (308 : Int) < 2 ^ (1024 : Int) ∧ (2 : ℚ) ^ (1024 : Int) < 10 ^ (309 : Int) := by
  have hsmall : 2 ^ 1075 < 10 ^ 324 ∧ 10 ^ 323 < 2 ^ 1075 := by decide +kernel
  have hlarge : 10 ^ 308 < 2 ^ 1024 ∧ 2 ^ 1024 < 10 ^ 309 := by decide +kernel
  refine ⟨?_, ?_, ?_, ?_⟩
  · rw [zpow_neg, zpow_neg]
    exact inv_strictAnti₀ (by positivity) (by exact_mod_cast hsmall.1)
  · rw [zpow_neg, zpow_neg]
    exact inv_strictAnti₀ (by positivity) (by exact_mod_cast hsmall.2)
  · exact_mod_cast hlarge.1
  · exact_mod_cast hlarge.2

theorem ten_zpow_small_iff
    (k : Int) :
    (10 : ℚ) ^ k < 2 ^ (-1075 : Int) ↔ k ≤ -324 := by
  obtain ⟨hbelow, habove, -⟩ := two_zpow_lt_ten_zpow
  constructor
  · intro h
    have hlt := (zpow_lt_zpow_iff_right₀ (by norm_num : (1 : ℚ) < 10)).mp (h.trans habove)
    omega
  · intro h
    exact (zpow_le_zpow_right₀ (by norm_num) h).trans_lt hbelow

theorem ten_zpow_large_iff
    (k : Int) :
    (2 : ℚ) ^ (1024 : Int) ≤ 10 ^ k ↔ 309 ≤ k := by
  obtain ⟨-, -, hbelow, habove⟩ := two_zpow_lt_ten_zpow
  constructor
  · intro h
    have hlt := (zpow_lt_zpow_iff_right₀ (by norm_num : (1 : ℚ) < 10)).mp (hbelow.trans_le h)
    omega
  · intro h
    exact habove.le.trans (zpow_le_zpow_right₀ (by norm_num) h)

/--
The machine's functions, the logarithm within its bounds and the powers of ten
beyond binary64 spelled out.
-/
def clamped : RealFunctions :=
  { clampedLogarithm with
    pow := fun x y =>
      if x == 10.0 && y ≤ -324.0 then 0.0
      else if x == 10.0 && 309.0 ≤ y then 1.0 / 0.0
      else Float.pow x y }

theorem denotes_324 : Binary64.Denotes 324.0 324 := by
  exact_mod_cast Binary64.denotes_natCast (m := 324) (k := 44) (by decide) rfl
    ⟨by decide, by decide, by decide⟩

theorem denotes_309 : Binary64.Denotes 309.0 309 := by
  exact_mod_cast Binary64.denotes_natCast (m := 309) (k := 44) (by decide) rfl
    ⟨by decide, by decide, by decide⟩

theorem powLimits_clamped : PowLimits clamped := by
  have hten : ((10.0 : Float) == 10.0) = true := by decide
  have hlow : |(-324 : ℚ)| < 2 ^ 1024 := by
    rw [abs_neg]
    exact_mod_cast (by decide +kernel : 324 < 2 ^ 1024)
  have hhigh : |(309 : ℚ)| < 2 ^ 1024 := by
    exact_mod_cast (by decide +kernel : 309 < 2 ^ 1024)
  constructor
  case underflow =>
    intro y v k hdenotes hv hk
    have hle : v ≤ -324 := hv.trans (by exact_mod_cast (ten_zpow_small_iff k).mp hk)
    have hy := (hdenotes.le_iff denotes_324.neg (Or.inr hlow)).mpr hle
    simp [clamped, hten, hy]
  case overflow =>
    intro y v k hdenotes hv hk
    have hle : 309 ≤ v := le_trans (by exact_mod_cast (ten_zpow_large_iff k).mp hk) hv
    have hy := (denotes_309.le_iff hdenotes (Or.inl hhigh)).mpr hle
    have hnot : ¬ y ≤ -324.0 := by
      rw [hdenotes.le_iff denotes_324.neg (Or.inr hlow)]
      linarith
    simp [clamped, hten, hy, hnot]

namespace Scientific

variable {F : RealFunctions} {n : Int} {y : Ratio} {u : AngleUnit}

/-! ### Which way an integer goes -/

theorem tenPowExponent?_ofInt
    (n : Int) :
    tenPowExponent? (ofInt n) = if n.natAbs ≤ tenPowLimit then some n else none := by
  unfold tenPowExponent?
  rw [if_pos (isInteger_ofInt n), abs_ofInt, toWord_ofNat]
  have hlimit : tenPowLimit < 2 ^ 64 := by decide
  by_cases hword : n.natAbs < 2 ^ 64
  · rw [if_pos hword]
    simp only [UInt64.toNat_ofNat_of_lt' hword, signed_natAbs]
  · rw [if_neg hword, if_neg (by omega)]

/-- Integers up to the limit have an exact power. -/
theorem tenPow_ofInt
    (F : RealFunctions) (n : Int) :
    tenPow F (ofInt n) =
      if n.natAbs ≤ tenPowLimit then (ofInt 10).intPow F.log2 n
      else ofFloat (F.pow 10.0 (ofInt n).toFloat) := by
  unfold tenPow
  rw [tenPowExponent?_ofInt]
  by_cases h : n.natAbs ≤ tenPowLimit
  · rw [if_pos h, if_pos h]
  · rw [if_neg h, if_neg h]

/-- The key for powers of ten adds a check of the size. -/
theorem apply_tenPow
    (F : RealFunctions) (y : Ratio) (u : AngleUnit) :
    apply F .tenPow y false u = (tenPow F y).bind checkSize :=
  rfl

/-! ### Exact powers -/

theorem zero_ne_ten_zpow
    (n : Int) :
    zero ≠ ofRat (10 ^ n) := by
  intro h
  have hzero : (0 : ℚ) = 10 ^ n := by rw [← toRat_ofRat (10 ^ n), ← h, ← ofRat_zero, toRat_ofRat]
  exact zpow_ne_zero n (by norm_num) hzero.symm

/-- A power of ten has four bits for each zero at most, as its reciprocal has. -/
theorem bitLength_ten_zpow_le
    (n : Int) :
    (ofRat (10 ^ n)).bitLength ≤ 4 * n.natAbs + 1 := by
  have hnat : ∀ k : Nat, (ofRat (10 ^ k)).bitLength ≤ 4 * k + 1 := by
    intro k
    have hpow : 10 ^ k < 2 ^ (4 * k + 1) := by
      calc 10 ^ k ≤ 16 ^ k := Nat.pow_le_pow_left (by decide) k
        _ = 2 ^ (4 * k) := by
          rw [pow_mul]
          norm_num
        _ < 2 ^ (4 * k + 1) := Nat.pow_lt_pow_right (by decide) (Nat.lt_succ_self _)
    have hcast : (10 : ℚ) ^ k = (10 ^ k : Nat) := by rw [Nat.cast_pow, Nat.cast_ofNat]
    rw [hcast, bitLength_ofRat_le_iff, Rat.num_natCast, Rat.den_natCast, Int.natAbs_natCast]
    exact ⟨hpow, Nat.one_lt_two_pow (by omega)⟩
  obtain ⟨k, rfl | rfl⟩ := Int.eq_nat_or_neg n
  · rw [zpow_natCast, Int.natAbs_natCast]
    exact hnat k
  · rw [zpow_neg, zpow_natCast, bitLength_ofRat_inv, Int.natAbs_neg, Int.natAbs_natCast]
    exact hnat k

theorem bitLength_ten_le : (ofRat 10).bitLength ≤ 4 := by
  rw [bitLength_ofRat_le_iff]
  decide

/-- Up to the limit a power of ten is exact. -/
theorem powerOutcome_ten_eq_ok
    {log2 : Float → Float} (hlog : BinaryLogarithm log2) {o : Except CalcError Ratio}
    (h : PowerOutcome log2 10 n o) (hn : 4 * n.natAbs ≤ bitLimit + 1) :
    o = .ok (ofRat (10 ^ n)) :=
  h.eq_ok (by norm_num)
    (Or.inr ⟨hlog, Or.inr ((Nat.mul_le_mul_right _ bitLength_ten_le).trans hn)⟩)

theorem checkSize_ten_zpow
    (hn : 4 * n.natAbs < bitLimit) :
    (ofRat (10 ^ n)).checkSize = .ok (ofRat (10 ^ n)) := by
  have hbits := bitLength_ten_zpow_le n
  rw [checkSize, if_neg (by omega)]

theorem checkSize_zero : zero.checkSize = .ok zero := by
  rw [← ofRat_zero, checkSize_ofRat, if_pos ⟨by positivity, Nat.one_lt_two_pow (by decide)⟩]

/-- Integers up to the limit have this power itself. -/
theorem tenPow_ofInt_of_le
    (hlog : BinaryLogarithm F.log2) (hn : n.natAbs ≤ tenPowLimit) :
    tenPow F (ofInt n) = .ok (ofRat (10 ^ n)) := by
  have hbits : 4 * tenPowLimit < bitLimit := by decide
  rw [tenPow_ofInt, if_pos hn, show ofInt 10 = ofRat 10 from rfl]
  exact powerOutcome_ten_eq_ok hlog (intPow_outcome F.log2 10 n) (by omega)

/-- Up to the limit the key for powers of ten is exact. -/
theorem apply_tenPow_exact
    (hlog : BinaryLogarithm F.log2) (hn : n.natAbs ≤ tenPowLimit) (u : AngleUnit) :
    apply F .tenPow (ofInt n) false u = .ok (ofRat (10 ^ n)) := by
  have hbits : 4 * tenPowLimit < bitLimit := by decide
  rw [apply_tenPow, tenPow_ofInt_of_le hlog hn]
  exact checkSize_ten_zpow (by omega)

/-- What the key for powers of ten returns up to the limit is exact for any logarithm. -/
theorem apply_tenPow_returned
    {r : Ratio} (hn : n.natAbs ≤ tenPowLimit) (h : apply F .tenPow (ofInt n) false u = .ok r) :
    r = ofRat (10 ^ n) := by
  have hbits : 4 * tenPowLimit < bitLimit := by decide
  have houtcome := intPow_outcome F.log2 10 n
  rw [apply_tenPow, tenPow_ofInt, if_pos hn, show ofInt 10 = ofRat 10 from rfl] at h
  cases hpow : (ofRat 10).intPow F.log2 n with
  | error e =>
      rw [hpow] at h
      cases h
  | ok s =>
      obtain ⟨-, rfl⟩ := houtcome.of_ok hpow
      rw [hpow] at h
      exact Except.ok.inj (h.symm.trans (checkSize_ten_zpow (by omega)))

/-! ### Integers beyond the limit -/

/-- Large integers remain large as binary64 numbers. -/
theorem exists_toFloat_beyond
    (hn : tenPowLimit < n.natAbs) :
    ∃ w : ℚ, 512 ≤ w ∧ Binary64.Denotes (ofInt n).toFloat (if n < 0 then -w else w) := by
  have habs : (10 : ℚ) ^ (4 : Int) ≤ |(n : ℚ)| := by
    have hle : (10000 : ℤ) ≤ |n| := by
      rw [Int.abs_eq_natAbs]
      exact_mod_cast hn.le
    exact_mod_cast hle
  have hcanonical := Binary64.canonical_two_pow_52 (e := -43) (by decide)
  obtain ⟨w, hw, hdenotes⟩ := toFloat_large habs hcanonical (by norm_num)
  rw [ofRat_intCast] at hdenotes
  simp only [Int.cast_lt_zero] at hdenotes
  norm_num at hw
  exact ⟨w, hw, hdenotes⟩

/-- A power of ten that is too large for a binary64 number is refused. -/
theorem apply_tenPow_of_large
    (hF : PowLimits F) (hn : tenPowLimit < n) (u : AngleUnit) :
    apply F .tenPow (ofInt n) false u = .error .overflow := by
  obtain ⟨w, hw, hdenotes⟩ := exists_toFloat_beyond (n := n) (by omega)
  rw [if_neg (by omega)] at hdenotes
  have hle : ((309 : Int) : ℚ) ≤ w := by
    push_cast
    linarith
  have hpow := hF.overflow _ w 309 hdenotes hle ((ten_zpow_large_iff 309).mpr le_rfl)
  rw [apply_tenPow, tenPow_ofInt, if_neg (by omega), hpow]
  rfl

/-- A power of ten that is too small for a binary64 number vanishes. -/
theorem apply_tenPow_of_small
    (hF : PowLimits F) (hn : n < -tenPowLimit) (u : AngleUnit) :
    apply F .tenPow (ofInt n) false u = .ok zero := by
  obtain ⟨w, hw, hdenotes⟩ := exists_toFloat_beyond (n := n) (by omega)
  rw [if_pos (by omega)] at hdenotes
  have hle : -w ≤ ((-324 : Int) : ℚ) := by
    push_cast
    linarith
  have hpow := hF.underflow _ (-w) (-324) hdenotes hle ((ten_zpow_small_iff (-324)).mpr le_rfl)
  have hzero : ofFloat 0.0 = .ok zero := rfl
  rw [apply_tenPow, tenPow_ofInt, if_neg (by omega), hpow, hzero]
  exact checkSize_zero

/-! ### Both ways -/

/--
The power `10 ^ n` by the key for powers of ten and by the key for powers with
any exponent.  Both are exact up to the limit.  Beyond it the first is refused if
it is large and zero if it is small; the second is exact whenever it is returned.
-/
structure TenPowers (F : RealFunctions) (y : Ratio) (n : Int) (u : AngleUnit) : Prop where
  exact : BinaryLogarithm F.log2 → n.natAbs ≤ tenPowLimit →
    apply F .tenPow y false u = .ok (ofRat (10 ^ n)) ∧ pow F (ofInt 10) y = .ok (ofRat (10 ^ n))
  refused : tenPowLimit < n → apply F .tenPow y false u = .error .overflow
  vanished : n < -tenPowLimit → apply F .tenPow y false u = .ok zero
  returned : ∀ s, pow F (ofInt 10) y = .ok s → LowestTerms s ∧ s.toRat = 10 ^ n
  agree : ∀ r s, apply F .tenPow y false u = .ok r → pow F (ofInt 10) y = .ok s →
    (r = s ↔ -tenPowLimit ≤ n)

/-- **The two ways to a power of ten agree unless it vanishes.** What both keys
return is the same for exponents from the negative limit on, and below it never. -/
theorem ten_powers_agree_unless_vanished
    (hF : PowLimits F) (hy : LowestTerms y) (hn : y.toRat = n) (u : AngleUnit) :
    TenPowers F y n u := by
  obtain rfl := hy.eq_ofInt hn
  have houtcome : PowerOutcome F.log2 10 n (pow F (ofInt 10) (ofInt n)) :=
    pow_outcome (q := 10) F (by norm_num)
  have hbits : 4 * tenPowLimit < bitLimit := by decide
  constructor
  case exact =>
    exact fun hlog hle =>
      ⟨apply_tenPow_exact hlog hle u, powerOutcome_ten_eq_ok hlog houtcome (by omega)⟩
  case refused => exact fun hlt => apply_tenPow_of_large hF hlt u
  case vanished => exact fun hlt => apply_tenPow_of_small hF hlt u
  case returned =>
    intro s hs
    obtain ⟨-, rfl⟩ := houtcome.of_ok hs
    exact ⟨lowestTerms_ofRat _, toRat_ofRat _⟩
  case agree =>
    intro r s hr hs
    obtain ⟨-, rfl⟩ := houtcome.of_ok hs
    rcases lt_or_ge n (-tenPowLimit) with hlow | hlow
    · rw [apply_tenPow_of_small hF hlow] at hr
      obtain rfl := Except.ok.inj hr
      exact iff_of_false (zero_ne_ten_zpow n) (by omega)
    rcases le_or_gt n tenPowLimit with hhigh | hhigh
    · exact iff_of_true (apply_tenPow_returned (by omega) hr) hlow
    · rw [apply_tenPow_of_large hF hhigh] at hr
      cases hr

/-- A large power of ten: one key refuses it, the other one returns it exactly. -/
theorem large_ten_power :
    PowLimits clamped ∧ LowestTerms (ofInt 10001) ∧ (ofInt 10001).toRat = (10001 : Int) ∧
      apply clamped .tenPow (ofInt 10001) false .degrees = .error .overflow ∧
      ∀ s, pow clamped (ofInt 10) (ofInt 10001) = .ok s → s.toRat = 10 ^ (10001 : Int) := by
  have hy := lowestTerms_ofInt 10001
  have hn := toRat_ofInt 10001
  have h := ten_powers_agree_unless_vanished powLimits_clamped hy hn .degrees
  exact ⟨powLimits_clamped, hy, hn, h.refused (by decide), fun s hs => (h.returned s hs).2⟩

/-- The first power of ten that vanishes: one key returns zero, the other one the power. -/
theorem ten_power_vanishes :
    PowLimits clamped ∧
      apply clamped .tenPow (ofInt (-10001)) false .degrees = .ok zero ∧
      pow clamped (ofInt 10) (ofInt (-10001)) = .ok (ofRat (10 ^ (-10001 : Int))) ∧
      zero ≠ ofRat (10 ^ (-10001 : Int)) := by
  have hvanished := apply_tenPow_of_small (n := -10001) powLimits_clamped (by decide) .degrees
  have houtcome : PowerOutcome clamped.log2 10 (-10001) (pow clamped (ofInt 10) (ofInt (-10001))) :=
    pow_outcome (q := 10) clamped (by norm_num)
  exact ⟨powLimits_clamped, hvanished, powerOutcome_ten_eq_ok binaryLogarithm_clamped houtcome
    (by decide),
    zero_ne_ten_zpow (-10001)⟩

end Scientific
end DeskCalculator
