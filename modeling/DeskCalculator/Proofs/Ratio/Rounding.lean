import DeskCalculator.Proofs.Loop
import DeskCalculator.Proofs.Magnitude.Digits
import DeskCalculator.Proofs.Ratio.Truncation
import DeskCalculator.Ratio.Rounding
import Mathlib.Algebra.Order.Round
import Mathlib.Data.Int.Log

/-!
# The significant digits of a ratio

The search for the exponent of the first digit finds the integer part of the
logarithm, wherever it starts.  With this exponent the quotient has as many
digits before the point as are wanted, and rounding it gives the digits; only
when it reaches the next power of the radix is the exponent one more.

**Results.**
* `loopEnds_descendExponent`, `loopEnds_ascendExponent`: the search ends by its tests.
* `leadingExponent_ofNat`: the search is exact.
* `roundAt_ofNat`: the digits for this exponent.
* `significandFrom_ofRat`: the significand of a ratio in lowest terms.
-/

namespace DeskCalculator

namespace ScaledNumber

/-! ### Dividing natural numbers, and their size -/

theorem ofNat_divMod
    (a b : Nat) :
    (ofNat a).divMod (ofNat b) = (ofNat (a / b), ofNat (a % b)) := by
  have ha := Magnitude.normalized_ofNat a
  have hb := Magnitude.normalized_ofNat b
  have hrem : ((ofNat a).divMod (ofNat b)).2 = ofNat (a % b) := by
    have hsign : (ofNat a).isNegative = false := by
      rw [← ofInt_natCast, isNegative_ofInt]
      simp
    show ofParts (ofNat a).isNegative 0
      ((ofNat a).integerMagnitude.divMod (ofNat b).integerMagnitude).2 = _
    rw [hsign, integerMagnitude_ofNat, integerMagnitude_ofNat, ofNat,
      (Magnitude.normalized_divMod_snd ha hb).eq_ofNat, Magnitude.toNat_divMod_snd ha hb,
      Magnitude.toNat_ofNat, Magnitude.toNat_ofNat]
  exact Prod.ext (ofNat_quot a b) hrem

/-- The exponent and the length of the mantissa enclose a number. -/
theorem weight_bounds_ofNat
    {n : Nat} (hn : 0 < n) :
    weight (ofNat n).exponent ≤ n ∧
      (n : ℚ) < weight ((ofNat n).exponent + (ofNat n).mantissa.length) := by
  have hcanonical := canonical_ofNat n
  have hne : ofNat n ≠ zero := by
    intro hzero
    have hvalue := congrArg toRat hzero
    rw [toRat_ofNat, toRat_zero] at hvalue
    exact hn.ne' (by exact_mod_cast hvalue)
  have hvalue : (n : ℚ) = (ofNat n).mantissa.toNat * weight (ofNat n).exponent := by
    rw [← hcanonical.abs_toRat, toRat_ofNat, Nat.abs_cast]
  have hpos : (1 : ℚ) ≤ (ofNat n).mantissa.toNat := by
    exact_mod_cast hcanonical.mantissa_pos hne
  have hlt : ((ofNat n).mantissa.toNat : ℚ) < weight (ofNat n).mantissa.length := by
    rw [weight_natCast]
    exact_mod_cast Magnitude.toNat_lt _
  have hweight := weight_pos (ofNat n).exponent
  constructor
  · calc weight (ofNat n).exponent
        = 1 * weight (ofNat n).exponent := (one_mul _).symm
      _ ≤ (ofNat n).mantissa.toNat * weight (ofNat n).exponent := by gcongr
      _ = n := hvalue.symm
  · calc (n : ℚ)
        = (ofNat n).mantissa.toNat * weight (ofNat n).exponent := hvalue
      _ < weight (ofNat n).mantissa.length * weight (ofNat n).exponent := by gcongr
      _ = weight ((ofNat n).exponent + (ofNat n).mantissa.length) := by
        rw [weight_add, mul_comm]

end ScaledNumber

namespace Ratio

variable {n d radix : Nat}

/-! ### The search for the exponent -/

theorem powerAtMost_iff
    (hd : 0 < d) (hradix : 0 < radix) (e : Int) :
    powerAtMost (.ofNat n) (.ofNat d) radix e = true ↔ (radix : ℚ) ^ e ≤ n / d := by
  have hd' : (0 : ℚ) < d := by exact_mod_cast hd
  have hradix' : (0 : ℚ) < radix := by exact_mod_cast hradix
  rw [le_div_iff₀ hd', powerAtMost]
  split
  · rename_i he
    obtain ⟨k, rfl⟩ := Int.eq_ofNat_of_zero_le he
    rw [Int.toNat_natCast, ScaledNumber.radixPow_eq, ScaledNumber.ofNat_mul,
      ScaledNumber.atLeast_ofNat, zpow_natCast, mul_comm]
    exact_mod_cast Iff.rfl
  · rename_i he
    obtain ⟨k, rfl⟩ : ∃ k : Nat, e = -k := ⟨(-e).toNat, by omega⟩
    rw [neg_neg, Int.toNat_natCast, ScaledNumber.radixPow_eq, ScaledNumber.ofNat_mul,
      ScaledNumber.atLeast_ofNat, zpow_neg, zpow_natCast, inv_mul_le_iff₀ (by positivity),
      mul_comm]
    exact_mod_cast Iff.rfl

/-- A weight is a power of two. -/
theorem weight_eq_two_zpow
    (e : Int) :
    ScaledNumber.weight e = (2 : ℚ) ^ (32 * e) := by
  rw [ScaledNumber.weight, zpow_mul]
  norm_cast

/-- A power of the radix with an exponent not above zero is not above that of two. -/
theorem zpow_le_two_zpow
    (htwo : 2 ≤ radix) {e : Int} (he : e ≤ 0) :
    (radix : ℚ) ^ e ≤ 2 ^ e := by
  have htwo' : (2 : ℚ) ≤ radix := by exact_mod_cast htwo
  obtain ⟨k, rfl⟩ : ∃ k : Nat, e = -k := ⟨(-e).toNat, by omega⟩
  rw [zpow_neg, zpow_neg, zpow_natCast, zpow_natCast]
  gcongr

theorem two_zpow_le_zpow
    (htwo : 2 ≤ radix) {e : Int} (he : 0 ≤ e) :
    (2 : ℚ) ^ e ≤ radix ^ e := by
  have htwo' : (2 : ℚ) ≤ radix := by exact_mod_cast htwo
  exact zpow_le_zpow_left₀ he (by norm_num) htwo'

/-- The search is bounded from below by a power that is not above the quotient. -/
theorem zpow_lowestExponent_le
    (hn : 0 < n) (hd : 0 < d) (htwo : 2 ≤ radix) {e : Int}
    (he : e ≤ lowestExponent (.ofNat n) (.ofNat d)) :
    (radix : ℚ) ^ e ≤ n / d := by
  have hd' : (0 : ℚ) < d := by exact_mod_cast hd
  obtain ⟨hlow, -⟩ := ScaledNumber.weight_bounds_ofNat hn
  obtain ⟨-, hhigh⟩ := ScaledNumber.weight_bounds_ofNat hd
  obtain ⟨hzero, hbound⟩ := le_min_iff.mp he
  calc (radix : ℚ) ^ e
      ≤ 2 ^ e := zpow_le_two_zpow htwo hzero
    _ ≤ 2 ^ (32 * ((ScaledNumber.ofNat n).exponent - (ScaledNumber.ofNat d).exponent - (ScaledNumber.ofNat d).mantissa.length)) :=
        zpow_le_zpow_right₀ (by norm_num) hbound
    _ = ScaledNumber.weight (ScaledNumber.ofNat n).exponent /
          ScaledNumber.weight ((ScaledNumber.ofNat d).exponent + (ScaledNumber.ofNat d).mantissa.length) := by
        rw [← weight_eq_two_zpow, eq_div_iff (ScaledNumber.weight_ne_zero _),
          ← ScaledNumber.weight_add]
        congr 1
        ring
    _ ≤ n / d := div_le_div₀ (by positivity) hlow hd' hhigh.le

/-- And from above by a power that is above the quotient. -/
theorem lt_zpow_highestExponent
    (hn : 0 < n) (hd : 0 < d) (htwo : 2 ≤ radix) {e : Int}
    (he : highestExponent (.ofNat n) (.ofNat d) ≤ e) :
    (n : ℚ) / d < radix ^ e := by
  obtain ⟨-, hhigh⟩ := ScaledNumber.weight_bounds_ofNat hn
  obtain ⟨hlow, -⟩ := ScaledNumber.weight_bounds_ofNat hd
  obtain ⟨hzero, hbound⟩ := max_le_iff.mp he
  calc (n : ℚ) / d
      < ScaledNumber.weight ((ScaledNumber.ofNat n).exponent + (ScaledNumber.ofNat n).mantissa.length) /
          ScaledNumber.weight (ScaledNumber.ofNat d).exponent :=
        div_lt_div₀ hhigh hlow (ScaledNumber.weight_pos _).le (ScaledNumber.weight_pos _)
    _ = 2 ^ (32 * ((ScaledNumber.ofNat n).exponent + (ScaledNumber.ofNat n).mantissa.length - (ScaledNumber.ofNat d).exponent)) := by
        rw [← weight_eq_two_zpow, div_eq_iff (ScaledNumber.weight_ne_zero _),
          ← ScaledNumber.weight_add]
        congr 1
        ring
    _ ≤ 2 ^ e := zpow_le_zpow_right₀ (by norm_num) hbound
    _ ≤ radix ^ e := two_zpow_le_zpow htwo hzero

/-- The descent stops where the power is not above the quotient, and its bound never stops it. -/
theorem loopEnds_descendExponent
    (hn : 0 < n) (hd : 0 < d) (htwo : 2 ≤ radix) (start : Int) :
    LoopEnds (fun e => powerAtMost (.ofNat n) (.ofNat d) radix e = false) (· - 1) start
      (descendExponent (.ofNat n) (.ofNat d) radix start) := by
  fun_induction descendExponent (.ofNat n) (.ofNat d) radix start with
  | case1 e hlow hpower => exact .stop (by simp [hpower])
  | case2 e hlow hpower ih => exact .step (by simpa using hpower) ih
  | case3 e hlow =>
      refine .stop ?_
      rw [Bool.not_eq_false, powerAtMost_iff hd (by omega)]
      exact zpow_lowestExponent_le hn hd htwo (not_lt.mp hlow)

/-- The ascent stops where the next power is above the quotient, and its bound never stops it. -/
theorem loopEnds_ascendExponent
    (hn : 0 < n) (hd : 0 < d) (htwo : 2 ≤ radix) (start : Int) :
    LoopEnds (fun e => powerAtMost (.ofNat n) (.ofNat d) radix (e + 1) = true) (· + 1) start
      (ascendExponent (.ofNat n) (.ofNat d) radix start) := by
  fun_induction ascendExponent (.ofNat n) (.ofNat d) radix start with
  | case1 e hhigh hpower ih => exact .step hpower ih
  | case2 e hhigh hpower => exact .stop hpower
  | case3 e hhigh =>
      refine .stop ?_
      rw [powerAtMost_iff hd (by omega), not_le]
      exact lt_zpow_highestExponent hn hd htwo (by omega)

/-- The descent ends at a power that is not above the quotient. -/
theorem zpow_descendExponent_le
    (hn : 0 < n) (hd : 0 < d) (htwo : 2 ≤ radix) (start : Int) :
    (radix : ℚ) ^ descendExponent (.ofNat n) (.ofNat d) radix start ≤ n / d := by
  have hexit := (loopEnds_descendExponent hn hd htwo start).exit
  rwa [Bool.not_eq_false, powerAtMost_iff hd (by omega)] at hexit

/-- The ascent from there ends at the last such power. -/
theorem ascendExponent_spec
    (hn : 0 < n) (hd : 0 < d) (htwo : 2 ≤ radix) {start : Int}
    (hstart : (radix : ℚ) ^ start ≤ n / d) :
    (radix : ℚ) ^ ascendExponent (.ofNat n) (.ofNat d) radix start ≤ n / d ∧
      (n : ℚ) / d < radix ^ (ascendExponent (.ofNat n) (.ofNat d) radix start + 1) := by
  have hloop := loopEnds_ascendExponent hn hd htwo start
  constructor
  · exact hloop.invariant (P := fun e => (radix : ℚ) ^ e ≤ n / d)
      (fun e hpower _ => (powerAtMost_iff hd (by omega) _).mp hpower) hstart
  · have hexit := hloop.exit
    rwa [powerAtMost_iff hd (by omega), not_le] at hexit

/-- From any start the search finds the integer part of the logarithm. -/
theorem leadingExponent_ofNat
    (hn : 0 < n) (hd : 0 < d) (htwo : 2 ≤ radix) (start : Int) :
    leadingExponent (.ofNat n) (.ofNat d) radix start = Int.log radix ((n : ℚ) / d) := by
  have hpos : (0 : ℚ) < n / d := by positivity
  obtain ⟨hlow, hhigh⟩ := ascendExponent_spec hn hd htwo
    (zpow_descendExponent_le hn hd htwo start)
  have hle := (Int.zpow_le_iff_le_log htwo hpos).mp hlow
  have hlt := (Int.lt_zpow_iff_log_lt htwo hpos).mp hhigh
  rw [leadingExponent]
  omega

/-! ### The digits -/

/-- The scaled terms have the scaled quotient. -/
theorem scaleTerms_ofNat
    (hd : 0 < d) (hradix : 0 < radix) (k : Int) :
    ∃ n' d' : Nat, scaleTerms (.ofNat n) (.ofNat d) radix k = (.ofNat n', .ofNat d') ∧ 0 < d' ∧
      (n' : ℚ) / d' = n / d * (radix : ℚ) ^ k := by
  have hradix' : (radix : ℚ) ≠ 0 := by exact_mod_cast hradix.ne'
  have hd' : (d : ℚ) ≠ 0 := by exact_mod_cast hd.ne'
  unfold scaleTerms
  dsimp only
  rw [ScaledNumber.radixPow_eq]
  split
  · rename_i hk
    obtain ⟨k, rfl⟩ := Int.eq_ofNat_of_zero_le hk
    refine ⟨n * radix ^ k, d, by rw [Int.natAbs_natCast, ScaledNumber.ofNat_mul], hd, ?_⟩
    push_cast
    rw [zpow_natCast]
    ring
  · rename_i hk
    obtain ⟨k, rfl⟩ : ∃ k' : Nat, k = -k' := ⟨k.natAbs, by omega⟩
    refine ⟨n, d * radix ^ k, by rw [Int.natAbs_neg, Int.natAbs_natCast, ScaledNumber.ofNat_mul],
      by positivity, ?_⟩
    push_cast
    rw [zpow_neg, zpow_natCast]
    field_simp

/-- Half a unit is added before the quotient is cut off. -/
theorem round_natCast_div
    (hd : 0 < d) :
    round ((n : ℚ) / d) = ((2 * n + d) / (2 * d) : Nat) := by
  have hd' : (d : ℚ) ≠ 0 := by exact_mod_cast hd.ne'
  have hhalf : (n : ℚ) / d + 1 / 2 = ((2 * n + d : Nat) : Int) / ((2 * d : Nat) : ℚ) := by
    push_cast
    field_simp
  rw [round_eq, hhalf, Rat.floor_intCast_div_natCast]
  rfl

/-- The quotient goes up if twice the remainder is at least the divisor. -/
theorem add_half_div
    (hd : 0 < d) :
    (2 * n + d) / (2 * d) = n / d + if d ≤ n % d + n % d then 1 else 0 := by
  have hmod := Nat.mod_lt n hd
  have hdiv := Nat.div_add_mod n d
  have htwice : ∀ c, (n / d + c) * (2 * d) = 2 * (d * (n / d)) + c * (2 * d) := by
    intro c
    ring
  split
  · refine Nat.div_eq_of_lt_le ?_ ?_
    · rw [htwice]
      omega
    · rw [Nat.add_assoc, htwice]
      omega
  · refine Nat.div_eq_of_lt_le ?_ ?_
    · rw [htwice]
      omega
    · rw [Nat.add_assoc, htwice]
      omega

/-- The rounded quotient, the integer nearest to it. -/
theorem roundQuotient_ofNat
    (hd : 0 < d) :
    roundQuotient (.ofNat n) (.ofNat d) = .ofNat (round ((n : ℚ) / d)).toNat := by
  rw [round_natCast_div hd, Int.toNat_natCast, add_half_div hd, roundQuotient,
    ScaledNumber.ofNat_divMod]
  dsimp only
  rw [ScaledNumber.ofNat_add]
  split
  · rename_i hle
    rw [ScaledNumber.atLeast_ofNat] at hle
    rw [if_pos hle]
    exact ScaledNumber.ofNat_add _ 1
  · rename_i hle
    rw [ScaledNumber.atLeast_ofNat] at hle
    rw [if_neg hle, Nat.add_zero]

/-- The integer that the first `p` digits of a number above zero are rounded to. -/
def roundedDigits (radix p : Nat) (q : ℚ) : Nat :=
  (round (q * (radix : ℚ) ^ ((p : Int) - 1 - Int.log radix q))).toNat

/-- It has `p` digits, or is the next power of the radix. -/
theorem roundedDigits_bounds
    (htwo : 2 ≤ radix) {p : Nat} (hp : 0 < p) {q : ℚ} (hq : 0 < q) :
    radix ^ (p - 1) ≤ roundedDigits radix p q ∧ roundedDigits radix p q ≤ radix ^ p := by
  have hradix : (0 : ℚ) < radix := by exact_mod_cast (by omega : 0 < radix)
  set scaled := q * (radix : ℚ) ^ ((p : Int) - 1 - Int.log radix q) with hscaled
  have hlow : ((radix ^ (p - 1) : Nat) : ℚ) ≤ scaled := by
    have hle := Int.zpow_log_le_self htwo hq
    calc ((radix ^ (p - 1) : Nat) : ℚ)
        = (radix : ℚ) ^ Int.log radix q * (radix : ℚ) ^ ((p : Int) - 1 - Int.log radix q) := by
          rw [← zpow_add₀ hradix.ne', add_sub_cancel,
            show (p : Int) - 1 = ((p - 1 : Nat) : Int) by omega, zpow_natCast]
          push_cast
          rfl
      _ ≤ scaled := by rw [hscaled]; gcongr
  have hhigh : scaled < ((radix ^ p : Nat) : ℚ) := by
    have hlt := Int.lt_zpow_succ_log_self htwo q
    calc scaled
        < (radix : ℚ) ^ (Int.log radix q + 1) *
            (radix : ℚ) ^ ((p : Int) - 1 - Int.log radix q) := by rw [hscaled]; gcongr
      _ = ((radix ^ p : Nat) : ℚ) := by
          rw [← zpow_add₀ hradix.ne', show Int.log radix q + 1 + ((p : Int) - 1 - Int.log radix q) =
            p by ring, zpow_natCast]
          push_cast
          rfl
  have hmono : Monotone (round : ℚ → Int) := by
    intro a b hab
    rw [round_eq, round_eq]
    gcongr
  have hlow' := hmono hlow
  have hhigh' := hmono hhigh.le
  rw [round_natCast] at hlow' hhigh'
  show radix ^ (p - 1) ≤ (round scaled).toNat ∧ (round scaled).toNat ≤ radix ^ p
  omega

/-- The digits for the exponent of the first digit, rounded. -/
theorem roundAt_ofNat
    (hn : 0 < n) (hd : 0 < d) (htwo : 2 ≤ radix) (hradix : radix ≤ 16) {p : Nat} (hp : 0 < p) :
    roundAt (.ofNat n) (.ofNat d) radix p (Int.log radix ((n : ℚ) / d)) =
      if roundedDigits radix p (n / d) < radix ^ p then
        ⟨digitsOf radix (roundedDigits radix p (n / d)), Int.log radix ((n : ℚ) / d)⟩
      else ⟨'1' :: List.replicate (p - 1) '0', Int.log radix ((n : ℚ) / d) + 1⟩ := by
  have hpos : (0 : ℚ) < n / d := by positivity
  obtain ⟨hlow, hhigh⟩ := roundedDigits_bounds htwo hp hpos
  have hrounded : 0 < roundedDigits radix p ((n : ℚ) / d) :=
    (Nat.pow_pos (by omega)).trans_le hlow
  obtain ⟨n', d', hterms, hd', hquot⟩ := scaleTerms_ofNat (n := n) hd (by omega : 0 < radix)
    ((p : Int) - 1 - Int.log radix ((n : ℚ) / d))
  unfold roundAt roundScaled
  rw [hterms]
  dsimp only
  rw [roundQuotient_ofNat hd', hquot, ← roundedDigits, ScaledNumber.toDigits_ofNat htwo hradix]
  have hlength := length_digitsOf_le_iff htwo hrounded p
  split
  · rename_i hlong
    have hcarry : ¬roundedDigits radix p ((n : ℚ) / d) < radix ^ p := by
      rw [← hlength]
      omega
    have hpow : roundedDigits radix p ((n : ℚ) / d) = radix ^ p := by omega
    obtain ⟨k, rfl⟩ : ∃ k, p = k + 1 := ⟨p - 1, by omega⟩
    rw [if_neg hcarry, hpow, digitsOf_pow htwo]
    simp [List.take_replicate]
  · rename_i hshort
    rw [if_pos (hlength.mp (by omega))]

/-! ### The significand -/

/-- A significand of `p` digits, the first of them not zero, for the rounded number. -/
structure Significand.Rounds (radix p : Nat) (q : ℚ) (s : Significand) : Prop where
  length : s.digits.length = p
  digits : DigitsOf radix s.digits
  head : s.digits.head? ≠ some '0'
  exponent : s.exponent =
    if roundedDigits radix p q < radix ^ p then Int.log radix q else Int.log radix q + 1
  value : (natOf radix s.digits : ℚ) * (radix : ℚ) ^ (s.exponent - p + 1) =
    roundedDigits radix p q * (radix : ℚ) ^ (Int.log radix q - p + 1)

theorem roundAt_rounds
    (hn : 0 < n) (hd : 0 < d) (htwo : 2 ≤ radix) (hradix : radix ≤ 16) {p : Nat} (hp : 0 < p) :
    (roundAt (.ofNat n) (.ofNat d) radix p (Int.log radix ((n : ℚ) / d))).Rounds radix p
      (n / d) := by
  have hpos : (0 : ℚ) < n / d := by positivity
  obtain ⟨hlow, hhigh⟩ := roundedDigits_bounds htwo hp hpos
  have hrounded : 0 < roundedDigits radix p ((n : ℚ) / d) :=
    (Nat.pow_pos (by omega)).trans_le hlow
  rw [roundAt_ofNat hn hd htwo hradix hp]
  split
  · rename_i hshort
    have hle := (length_digitsOf_le_iff htwo hrounded p).mpr hshort
    have hge := mt (length_digitsOf_le_iff htwo hrounded (p - 1)).mp (not_lt.mpr hlow)
    exact {
      length := by
        show (digitsOf _ _).length = p
        omega
      digits := areDigits_digitsOf htwo _
      head := head_digitsOf_ne_zero htwo hradix hrounded
      exponent := (if_pos hshort).symm
      value := by rw [natOf_digitsOf htwo hradix] }
  · -- the digits are those of the next power, and the exponent is one more
    rename_i hcarry
    have hpow : roundedDigits radix p ((n : ℚ) / d) = radix ^ p := by omega
    have hone : digitNat '1' = 1 := by decide
    have hradix' : (radix : ℚ) ≠ 0 := by exact_mod_cast (by omega : radix ≠ 0)
    exact {
      length := by
        show ('1' :: List.replicate (p - 1) '0').length = p
        rw [List.length_cons, List.length_replicate]
        omega
      digits := by
        have hdigits := areDigits_digitsOf htwo (radix ^ (p - 1))
        rwa [digitsOf_pow htwo] at hdigits
      head := by
        show some '1' ≠ some '0'
        decide
      exponent := (if_neg hcarry).symm
      value := by
        rw [hpow, natOf_cons, hone, natOf_replicate_zero, List.length_replicate, one_mul,
          Nat.add_zero]
        push_cast
        rw [← zpow_natCast, ← zpow_natCast, ← zpow_add₀ hradix', ← zpow_add₀ hradix']
        congr 1
        omega }

/-- A number with at most `p` digits is rounded to itself. -/
theorem roundedDigits_of_short
    (htwo : 2 ≤ radix) {p m : Nat} (hm : m < radix ^ p) {k : Int} {q : ℚ} (hq : 0 < q)
    (hvalue : q = m * (radix : ℚ) ^ k) :
    (roundedDigits radix p q : ℚ) * (radix : ℚ) ^ (Int.log radix q - p + 1) = q := by
  have hradix : (0 : ℚ) < radix := by exact_mod_cast (by omega : 0 < radix)
  have hlog : Int.log radix q < p + k := by
    rw [← Int.lt_zpow_iff_log_lt htwo hq, hvalue, zpow_add₀ hradix.ne', zpow_natCast]
    have hm' : (m : ℚ) < radix ^ p := by exact_mod_cast hm
    gcongr
  obtain ⟨j, hj⟩ : ∃ j : Nat, k + (p - 1 - Int.log radix q) = j :=
    ⟨(k + (p - 1 - Int.log radix q)).toNat, by omega⟩
  have hscaled : q * (radix : ℚ) ^ ((p : Int) - 1 - Int.log radix q) = ((m * radix ^ j : Nat) : ℚ) := by
    conv_lhs => rw [hvalue]
    rw [mul_assoc, ← zpow_add₀ hradix.ne', ← hvalue, hj, zpow_natCast]
    push_cast
    rfl
  have hrounded : (roundedDigits radix p q : ℚ) =
      q * (radix : ℚ) ^ ((p : Int) - 1 - Int.log radix q) := by
    rw [roundedDigits, hscaled, round_natCast, Int.toNat_natCast]
  rw [hrounded, mul_assoc, ← zpow_add₀ hradix.ne']
  have hzero : (p : Int) - 1 - Int.log radix q + (Int.log radix q - p + 1) = 0 := by ring
  rw [hzero, zpow_zero, mul_one]

/-- From any start of the search, the digits are those for the exponent of the first one. -/
theorem significandFrom_eq
    (htwo : 2 ≤ radix) {p : Nat} (hp : 0 < p) {q : ℚ} (hq : q ≠ 0) (start : Int) :
    (ofRat q).significandFrom radix p start =
      some (roundAt (.ofNat q.num.natAbs) (.ofNat q.den) radix p (Int.log radix |q|)) := by
  have hn : 0 < q.num.natAbs := Int.natAbs_pos.mpr (Rat.num_ne_zero.mpr hq)
  rw [significandFrom, if_neg (mt (isZero_ofRat q).mp hq), abs_num_ofRat, abs_den_ofRat]
  dsimp only
  rw [leadingExponent_ofNat hn q.den_pos htwo, ← abs_eq_terms,
    show p.max 1 = p from Nat.max_eq_left hp]

/-- The significand of a ratio in lowest terms, from any start of the search. -/
theorem significandFrom_ofRat
    (htwo : 2 ≤ radix) (hradix : radix ≤ 16) {p : Nat} (hp : 0 < p) {q : ℚ} (hq : q ≠ 0)
    (start : Int) :
    ∃ s, (ofRat q).significandFrom radix p start = some s ∧ s.Rounds radix p |q| := by
  refine ⟨_, significandFrom_eq htwo hp hq start, ?_⟩
  rw [abs_eq_terms]
  exact roundAt_rounds (Int.natAbs_pos.mpr (Rat.num_ne_zero.mpr hq)) q.den_pos htwo hradix hp

end Ratio
end DeskCalculator
