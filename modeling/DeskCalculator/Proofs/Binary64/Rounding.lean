import Mathlib

/-!
# Rounding to a binary64 number

A number above zero is rounded to a multiple of its unit in the last place, the
power of two that leaves a mantissa of 53 bits, or `2 ^ -1074` for numbers so
small that they have fewer.

**Mantissas.**  A number is kept as the integer below it with one bit for the
half and one bit for anything beyond.  Shifts to the right keep what the two bits
say, and with them the integer is rounded to the nearest one, to the even one for
a half.

**Exponents.**  The first shift brings the unit to its place.  The second one is
needed only if the mantissa is rounded up to the next power of two.

**Results.**
* `roundWithAccuracy_rounds`: a mantissa with its two bits is rounded correctly.
-/

namespace DeskCalculator
namespace Binary64

open Float.Model Float.Model.UnpackedFloat

/-! ### Mantissas with two bits -/

/-- The nearest integer to a number, the even one for a half. -/
structure NearestEven (x : ℚ) (n : Nat) : Prop where
  near : |x - n| ≤ 1 / 2
  tie : |x - n| = 1 / 2 → Even n

theorem nearestEven_of_lt
    {x : ℚ} {n : Nat} (h : |x - n| < 1 / 2) :
    NearestEven x n :=
  ⟨h.le, fun heq => absurd heq h.ne⟩

/-- The multiple of one half that a mantissa with its round bit stands for. -/
def kept (em : ExtendedMantissa) : ℚ :=
  em.mantissa + if em.roundBit then 1 / 2 else 0

/-- A mantissa with its bits stands for a number above what is kept by less than
one half, and the sticky bit tells whether it is above. -/
structure Describes (em : ExtendedMantissa) (x : ℚ) : Prop where
  low : kept em ≤ x
  high : x < kept em + 1 / 2
  sticky : em.stickyBit = true ↔ kept em < x

variable {em : ExtendedMantissa} {x : ℚ}

theorem describes_exact
    (m : Nat) :
    Describes (.ofMantissaAndAccuracy m .exact) m := by
  constructor <;> simp [ExtendedMantissa.ofMantissaAndAccuracy, kept]

/-- The quotient and what the remainder says of it. -/
theorem describes_fraction
    (a : Nat) {d : Nat} (hd : 0 < d) :
    Describes (.ofMantissaAndAccuracy (a / d) (accuracyOfFraction (a % d) d)) ((a : ℚ) / d) := by
  have hd' : (0 : ℚ) < d := by exact_mod_cast hd
  have hquot : (a : ℚ) / d = (a / d : Nat) + (a % d : Nat) / d := by
    rw [div_eq_iff hd'.ne', add_mul, div_mul_cancel₀ _ hd'.ne', mul_comm]
    exact_mod_cast (Nat.div_add_mod a d).symm
  have hlt : ((a % d : Nat) : ℚ) / d < 1 := by
    rw [div_lt_one hd']
    exact_mod_cast Nat.mod_lt a hd
  rw [hquot]
  generalize a / d = q
  generalize a % d = r at hlt
  unfold accuracyOfFraction
  rcases Nat.eq_zero_or_pos r with rfl | hr
  · simpa using describes_exact q
  have hpos : (0 : ℚ) < r / d := div_pos (by exact_mod_cast hr) hd'
  rw [if_neg hr.ne']
  -- where the remainder lies relative to one half of the divisor
  rcases lt_trichotomy (2 * r) d with h | h | h
  · have hhalf : (r : ℚ) / d < 1 / 2 := by
      rw [div_lt_div_iff₀ hd' two_pos, one_mul, mul_comm]
      exact_mod_cast h
    rw [compare_lt_iff_lt.mpr h]
    constructor <;> simp [ExtendedMantissa.ofMantissaAndAccuracy, kept] <;> linarith
  · have hhalf : (r : ℚ) / d = 1 / 2 := by
      rw [div_eq_div_iff hd'.ne' two_ne_zero, one_mul, mul_comm]
      exact_mod_cast h
    rw [compare_eq_iff_eq.mpr h, hhalf]
    constructor <;> simp [ExtendedMantissa.ofMantissaAndAccuracy, kept]
  · have hhalf : 1 / 2 < (r : ℚ) / d := by
      rw [div_lt_div_iff₀ two_pos hd', one_mul, mul_comm]
      exact_mod_cast h
    rw [compare_gt_iff_gt.mpr h]
    constructor <;> simp [ExtendedMantissa.ofMantissaAndAccuracy, kept] <;> linarith

/-- A shift by one place drops the round bit. -/
theorem kept_shiftRightOne
    (em : ExtendedMantissa) :
    kept em.shiftRightOne = em.mantissa / 2 := by
  have hdiv : (em.mantissa : ℚ) = 2 * (em.mantissa / 2 : Nat) + (em.mantissa % 2 : Nat) := by
    exact_mod_cast (Nat.div_add_mod em.mantissa 2).symm
  rcases Nat.mod_two_eq_zero_or_one em.mantissa with h | h <;>
    simp only [kept, ExtendedMantissa.shiftRightOne, h] at hdiv ⊢ <;>
    norm_num at hdiv ⊢ <;>
    linarith

theorem Describes.shiftRightOne
    (h : Describes em x) :
    Describes em.shiftRightOne (x / 2) := by
  obtain ⟨hlow, hhigh, hsticky⟩ := h
  constructor
  all_goals rw [kept_shiftRightOne]
  case low =>
    unfold kept at hlow
    split at hlow <;> linarith
  case high =>
    unfold kept at hhigh
    split at hhigh <;> linarith
  case sticky =>
    rw [ExtendedMantissa.shiftRightOne, Bool.or_eq_true, hsticky]
    cases hround : em.roundBit with
    | false => simp [kept, hround, div_lt_div_iff_of_pos_right]
    | true =>
        -- a half is left over
        have habove : (em.mantissa : ℚ) / 2 < x / 2 := by
          simp only [kept, hround, if_true] at hlow
          linarith
        simp [habove]

theorem Describes.shiftRight
    (h : Describes em x) (k : Nat) :
    Describes (em >>> k) (x / 2 ^ k) := by
  change Describes (k.repeat ExtendedMantissa.shiftRightOne em) _
  induction k with
  | zero => simpa [Nat.repeat] using h
  | succ k ih =>
      rw [Nat.repeat, pow_succ, ← div_div]
      exact ih.shiftRightOne

/-- The two bits decide how the mantissa is rounded. -/
theorem Describes.nearestEven
    (h : Describes em x) :
    NearestEven x em.roundedMantissa := by
  obtain ⟨m, roundBit, stickyBit⟩ := em
  obtain ⟨hlow, hhigh, hsticky⟩ := h
  cases roundBit <;> cases stickyBit <;>
    simp only [kept, ExtendedMantissa.roundedMantissa, ExtendedMantissa.accuracy,
      Accuracy.roundToNearestEven] at hlow hhigh hsticky ⊢ <;>
    norm_num at hlow hhigh hsticky ⊢
  case false.false => exact nearestEven_of_lt (by rw [abs_lt]; constructor <;> linarith)
  case false.true => exact nearestEven_of_lt (by rw [abs_lt]; constructor <;> linarith)
  case true.true =>
    refine nearestEven_of_lt ?_
    rw [abs_lt]
    push_cast
    constructor <;> linarith
  case true.false =>
    -- the middle between two integers
    have hx : x = m + 1 / 2 := by linarith
    rcases Nat.mod_two_eq_zero_or_one m with hm | hm
    · refine ⟨?_, fun _ => ?_⟩
      · rw [hm, hx]
        norm_num
      · rw [hm]
        exact Nat.even_iff.mpr hm
    · refine ⟨?_, fun _ => ?_⟩
      · rw [hm, hx]
        norm_num
      · rw [hm]
        exact Nat.even_iff.mpr (by omega)

/-- The integer part is the mantissa. -/
theorem Describes.mantissa_bounds
    (h : Describes em x) :
    (em.mantissa : ℚ) ≤ x ∧ x < em.mantissa + 1 := by
  obtain ⟨hlow, hhigh, -⟩ := h
  unfold kept at hlow hhigh
  constructor
  · split at hlow <;> linarith
  · split at hhigh <;> linarith

/-! ### Units in the last place -/

/-- The exponent of the unit in the last place. -/
def ulpExponent (v : ℚ) : Int := max (Int.log 2 v - 52) (-1074)

/-- The unit in the last place. -/
def ulp (v : ℚ) : ℚ := 2 ^ ulpExponent v

theorem ulp_pos
    (v : ℚ) :
    0 < ulp v :=
  zpow_pos two_pos _

/-- The integer logarithm is found between two powers. -/
theorem log_eq_of_bounds
    {b : Nat} (hb : 1 < b) {v : ℚ} {k : Int} (hlow : (b : ℚ) ^ k ≤ v) (hhigh : v < b ^ (k + 1)) :
    Int.log b v = k := by
  have hv : 0 < v := (zpow_pos (by exact_mod_cast zero_lt_one.trans hb) k).trans_le hlow
  have hle := (Int.zpow_le_iff_le_log hb hv).mp hlow
  have hlt := (Int.lt_zpow_iff_log_lt hb hv).mp hhigh
  omega

/-- A number above zero lies between the power of two of its logarithm and the next one. -/
theorem log_bounds
    {v : ℚ} (hv : 0 < v) :
    2 ^ Int.log 2 v ≤ v ∧ v < 2 ^ (Int.log 2 v + 1) :=
  ⟨by exact_mod_cast Int.zpow_log_le_self (b := 2) (by decide) hv,
    by exact_mod_cast Int.lt_zpow_succ_log_self (b := 2) (by decide) v⟩

/-- In units in the last place a number is below the power of two of the format. -/
theorem div_ulp_lt
    {v : ℚ} (hv : 0 < v) :
    v / ulp v < 2 ^ 53 := by
  rw [div_lt_iff₀ (ulp_pos v), ulp, ← zpow_natCast, ← zpow_add₀ two_ne_zero]
  refine (log_bounds hv).2.trans_le (zpow_le_zpow_right₀ one_le_two ?_)
  have hle : Int.log 2 v - 52 ≤ ulpExponent v := le_max_left _ _
  omega

/-- Unless the unit is the least of all, a number has 53 bits. -/
theorem le_div_ulp
    {v : ℚ} (hv : 0 < v) (hne : ulpExponent v ≠ -1074) :
    2 ^ 52 ≤ v / ulp v := by
  rw [le_div_iff₀ (ulp_pos v), ulp, ← zpow_natCast, ← zpow_add₀ two_ne_zero]
  refine le_trans (zpow_le_zpow_right₀ one_le_two ?_) (log_bounds hv).1
  unfold ulpExponent at hne ⊢
  omega

theorem ulpExponent_ge
    {v : ℚ} {k : Int} (h : 2 ^ k ≤ v) :
    k - 52 ≤ ulpExponent v := by
  have hv : 0 < v := (zpow_pos two_pos k).trans_le h
  have hlog := (Int.zpow_le_iff_le_log (b := 2) (by decide) hv).mp (by exact_mod_cast h)
  exact (sub_le_sub_right hlog 52).trans (le_max_left _ _)

theorem targetExponent_binary64
    (m : Nat) (e : Int) :
    Format.binary64.targetExponent (totalExponent m e) = max (m.log2 + e - 52) (-1074) := by
  have hmin : Format.binary64.minExponent = -1074 := by decide
  have hbits : Format.binary64.mantissaBits = 53 := by decide
  rw [Format.targetExponent, totalExponent, hmin, hbits]
  omega

/-- The exponent that a mantissa is shifted to is that of the unit in the last
place, provided that no bits of the number were lost above it. -/
theorem targetExponent_eq
    {m : Nat} {e : Int} {x : ℚ} (hx : 0 < x) (hlow : (m : ℚ) ≤ x) (hhigh : x < m + 1)
    (he : e ≤ ulpExponent (x * 2 ^ e)) :
    Format.binary64.targetExponent (totalExponent m e) = ulpExponent (x * 2 ^ e) := by
  have hv : 0 < x * 2 ^ e := mul_pos hx (zpow_pos two_pos e)
  rw [targetExponent_binary64]
  rcases Nat.eq_zero_or_pos m with rfl | hm
  · -- the number is below the last bit of the mantissa, which has reached the least unit
    have hlog : Int.log 2 (x * 2 ^ e) < e := by
      refine (Int.lt_zpow_iff_log_lt (b := 2) (by decide) hv).mp ?_
      push_cast
      have hone : x < 1 := by simpa using hhigh
      calc x * 2 ^ e < 1 * 2 ^ e := mul_lt_mul_of_pos_right hone (zpow_pos two_pos e)
        _ = 2 ^ e := one_mul _
    unfold ulpExponent at he ⊢
    simp only [Nat.log2_zero, Nat.cast_zero, zero_add]
    omega
  · have hlog : Int.log 2 (x * 2 ^ e) = m.log2 + e := by
      have hself := Nat.log2_self_le hm.ne'
      have hlt : m + 1 ≤ 2 ^ (m.log2 + 1) := Nat.lt_log2_self
      refine log_eq_of_bounds (b := 2) (by decide) ?_ ?_
      · rw [Nat.cast_two, zpow_add₀ two_ne_zero, zpow_natCast]
        gcongr
        exact le_trans (by exact_mod_cast hself) hlow
      · rw [Nat.cast_two, add_right_comm, zpow_add₀ two_ne_zero]
        gcongr
        exact hhigh.trans_le (by exact_mod_cast hlt)
    rw [ulpExponent, hlog]

/-! ### Rounded numbers -/

/-- A mantissa of at most 53 bits, all of them used unless the unit is the least one. -/
structure Canonical (m : Nat) (e : Int) : Prop where
  lt : m < 2 ^ 53
  le : -1074 ≤ e
  normal : 2 ^ 52 ≤ m ∨ e = -1074

/-- A zero or a canonical number with a sign stands for a number without it. -/
inductive Holds (s : Sign) : UnpackedFloat → ℚ → Prop
  | zero : Holds s (.zero s) 0
  | finite {m : Nat} {e : Int} (hm : 0 < m) :
      Canonical m e →
      Holds s (.finite s m e hm) (m * 2 ^ e)

/-- A number above zero is rounded to the nearest multiple of its unit in the last place. -/
def RoundsTo (v w : ℚ) : Prop :=
  ∃ n, NearestEven (v / ulp v) n ∧ w = n * ulp v

/-- There is a nearest multiple of the unit. -/
theorem exists_roundsTo
    {v : ℚ} (hv : 0 < v) :
    ∃ w, RoundsTo v w := by
  have hpos : 0 < v / ulp v := div_pos hv (ulp_pos v)
  have hterms : ((v / ulp v).num.toNat : ℚ) / (v / ulp v).den = v / ulp v := by
    conv_rhs => rw [← Rat.num_div_den (v / ulp v)]
    congr 1
    exact_mod_cast Int.toNat_of_nonneg (Rat.num_pos.mpr hpos).le
  have hnearest := (describes_fraction (v / ulp v).num.toNat (v / ulp v).den_pos).nearestEven
  rw [hterms] at hnearest
  exact ⟨_, _, hnearest, rfl⟩

theorem RoundsTo.nonneg
    {v w : ℚ} (h : RoundsTo v w) :
    0 ≤ w := by
  obtain ⟨n, -, rfl⟩ := h
  have hulp := ulp_pos v
  positivity

/-- The nearest integer to a number stays between the integers around the number. -/
theorem NearestEven.le_of_le
    {x : ℚ} {n k : Nat} (h : NearestEven x n) (hx : x ≤ k) :
    n ≤ k := by
  have hlow := (abs_le.mp h.near).1
  have hlt : (n : ℚ) < k + 1 := by linarith
  exact Nat.lt_succ_iff.mp (by exact_mod_cast hlt)

theorem NearestEven.ge_of_ge
    {x : ℚ} {n k : Nat} (h : NearestEven x n) (hx : k ≤ x) :
    k ≤ n := by
  have hhigh := (abs_le.mp h.near).2
  have hlt : (k : ℚ) < n + 1 := by linarith
  exact Nat.lt_succ_iff.mp (by exact_mod_cast hlt)

/-- The first shift brings a mantissa to the unit in the last place, where it is rounded. -/
theorem nearestEven_shiftToTargetExponent
    {m : Nat} {acc : Accuracy} {e : Int} (h : Describes (.ofMantissaAndAccuracy m acc) x)
    (hx : 0 < x) (he : e ≤ ulpExponent (x * 2 ^ e)) :
    NearestEven (x * 2 ^ e / ulp (x * 2 ^ e))
        (shiftToTargetExponent .binary64 m e acc).1.roundedMantissa ∧
      (shiftToTargetExponent .binary64 m e acc).2 = ulpExponent (x * 2 ^ e) := by
  have hmantissa : (ExtendedMantissa.ofMantissaAndAccuracy m acc).mantissa = m := by
    rcases acc with _ | (_ | _ | _) <;> rfl
  have hbounds := h.mantissa_bounds
  rw [hmantissa] at hbounds
  have htarget := targetExponent_eq hx hbounds.1 hbounds.2 he
  rw [shiftToTargetExponent, htarget, shiftToExponent]
  have hvalue : x * 2 ^ e / ulp (x * 2 ^ e) =
      x / 2 ^ (ulpExponent (x * 2 ^ e) - e).toNat := by
    rw [ulp, div_eq_div_iff (zpow_pos two_pos _).ne' (by positivity), mul_assoc, ← zpow_natCast,
      ← zpow_add₀ two_ne_zero]
    congr 2
    omega
  refine ⟨?_, ?_⟩
  · rw [hvalue]
    exact (h.shiftRight _).nearestEven
  · show e + _ = _
    omega

/-- A mantissa of 53 bits is not shifted again. -/
theorem shiftToTargetExponent_exact
    {n : Nat} (hn : n < 2 ^ 53) {e : Int} (he : -1074 ≤ e) :
    shiftToTargetExponent .binary64 n e .exact = (⟨n, false, false⟩, e) := by
  have hlog : n.log2 ≤ 52 := by
    rcases Nat.eq_zero_or_pos n with rfl | hpos
    · decide
    · exact Nat.lt_succ_iff.mp ((Nat.log2_lt hpos.ne').mpr hn)
  have hzero : (max ((n.log2 : Int) + e - 52) (-1074) - e).toNat = 0 := by omega
  rw [shiftToTargetExponent, targetExponent_binary64, shiftToExponent]
  rw [hzero, Int.natCast_zero, add_zero]
  rfl

/-- The next power of two is shifted by one place. -/
theorem shiftToTargetExponent_carry
    {e : Int} (he : -1074 ≤ e) :
    shiftToTargetExponent .binary64 (2 ^ 53) e .exact = (⟨2 ^ 52, false, false⟩, e + 1) := by
  have hlog : (2 ^ 53).log2 = 53 := Nat.log2_two_pow
  have hone : (max (((2 ^ 53).log2 : Int) + e - 52) (-1074) - e).toNat = 1 := by omega
  rw [shiftToTargetExponent, targetExponent_binary64, shiftToExponent]
  rw [hone]
  rfl

/-- A mantissa with its two bits is rounded correctly. -/
theorem roundWithAccuracy_rounds
    (s : Sign) {m : Nat} {acc : Accuracy} {e : Int}
    (h : Describes (.ofMantissaAndAccuracy m acc) x) (hx : 0 < x)
    (he : e ≤ ulpExponent (x * 2 ^ e)) :
    ∃ w, RoundsTo (x * 2 ^ e) w ∧ Holds s (roundWithAccuracy .binary64 s m e acc) w := by
  have hv : 0 < x * 2 ^ e := mul_pos hx (zpow_pos two_pos e)
  obtain ⟨hnearest, hexponent⟩ := nearestEven_shiftToTargetExponent h hx he
  have hmin : -1074 ≤ ulpExponent (x * 2 ^ e) := le_max_right _ _
  have hle := hnearest.le_of_le (k := 2 ^ 53) (by exact_mod_cast (div_ulp_lt hv).le)
  have hnormal : ulpExponent (x * 2 ^ e) ≠ -1074 →
      2 ^ 52 ≤ (shiftToTargetExponent .binary64 m e acc).1.roundedMantissa :=
    fun hne => hnearest.ge_of_ge (by exact_mod_cast le_div_ulp hv hne)
  refine ⟨_, ⟨_, hnearest, rfl⟩, ?_⟩
  unfold roundWithAccuracy ulp
  dsimp only
  rw [hexponent]
  generalize (shiftToTargetExponent .binary64 m e acc).1.roundedMantissa = n at *
  generalize ulpExponent (x * 2 ^ e) = E at *
  rcases eq_or_lt_of_le hle with rfl | hlt
  · rw [shiftToTargetExponent_carry hmin]
    have hvalue : ((2 ^ 53 : Nat) : ℚ) * 2 ^ E = (2 ^ 52 : Nat) * 2 ^ (E + 1) := by
      rw [zpow_add_one₀ two_ne_zero]
      push_cast
      ring
    have hcanonical : Canonical (2 ^ 52) (E + 1) := ⟨by decide, by omega, Or.inl le_rfl⟩
    rw [hvalue]
    exact .finite (Nat.two_pow_pos 52) hcanonical
  · rw [shiftToTargetExponent_exact hlt hmin]
    dsimp only
    split
    · rename_i hzero
      simpa [hzero] using Holds.zero
    · exact .finite _ ⟨hlt, hmin, by tauto⟩

/-! ### Rounding keeps the order -/

section

variable {v w : ℚ}

theorem ulpExponent_mono
    {v' : ℚ} (hv : 0 < v) (h : v ≤ v') :
    ulpExponent v ≤ ulpExponent v' :=
  max_le_max_right _ (sub_le_sub_right (Int.log_mono_right hv h) 52)

/-- A canonical number is a multiple of its unit in the last place. -/
theorem Canonical.ulpExponent_le
    {m : Nat} {e : Int} (h : Canonical m e) (hm : 0 < m) :
    ulpExponent (m * 2 ^ e) ≤ e := by
  have hm' : (0 : ℚ) < m := by exact_mod_cast hm
  have hlog : Int.log 2 (m * 2 ^ e : ℚ) < e + 53 := by
    refine (Int.lt_zpow_iff_log_lt (b := 2) (by decide) (by positivity)).mp ?_
    push_cast
    rw [zpow_add₀ two_ne_zero, mul_comm]
    gcongr
    exact_mod_cast h.lt
  exact max_le (by omega) h.le

/-- A power of two not below the unit is a whole number of units. -/
theorem zpow_eq_mul_ulp
    {e : Int} (he : ulpExponent v ≤ e) :
    (2 : ℚ) ^ e = (2 ^ (e - ulpExponent v).toNat : Nat) * ulp v := by
  rw [ulp]
  push_cast
  rw [← zpow_natCast, ← zpow_add₀ two_ne_zero]
  congr 1
  omega

/-- A number not above a canonical one is not rounded above it. -/
theorem RoundsTo.le_of_le
    (h : RoundsTo v w) (hv : 0 < v) {m : Nat} {e : Int} (hm : 0 < m) (hc : Canonical m e)
    (hle : v ≤ m * 2 ^ e) :
    w ≤ m * 2 ^ e := by
  obtain ⟨n, hn, rfl⟩ := h
  have hexponent := (ulpExponent_mono hv hle).trans (hc.ulpExponent_le hm)
  rw [zpow_eq_mul_ulp hexponent, ← mul_assoc] at hle ⊢
  have hunits : n ≤ m * 2 ^ (e - ulpExponent v).toNat := by
    refine hn.le_of_le ?_
    rw [div_le_iff₀ (ulp_pos v)]
    exact_mod_cast hle
  have hulp := ulp_pos v
  gcongr
  exact_mod_cast hunits

/-- A number not below a canonical one is not rounded below it. -/
theorem RoundsTo.ge_of_ge
    (h : RoundsTo v w) (hv : 0 < v) {m : Nat} {e : Int} (hc : Canonical m e)
    (hle : m * 2 ^ e ≤ v) :
    m * 2 ^ e ≤ w := by
  obtain ⟨n, hn, rfl⟩ := h
  have hulp := ulp_pos v
  rcases le_or_gt (ulpExponent v) e with hexponent | hexponent
  · rw [zpow_eq_mul_ulp hexponent, ← mul_assoc] at hle ⊢
    have hunits : m * 2 ^ (e - ulpExponent v).toNat ≤ n := by
      refine hn.ge_of_ge ?_
      rw [le_div_iff₀ hulp]
      exact_mod_cast hle
    gcongr
    exact_mod_cast hunits
  · -- all bits of the mantissa are used, and its unit is larger than that of the other number
    have hfull : 2 ^ 52 ≤ n := by
      refine hn.ge_of_ge ?_
      exact_mod_cast le_div_ulp hv (by have := hc.le; omega)
    calc (m * 2 ^ e : ℚ)
        ≤ 2 ^ 53 * 2 ^ e := by
          gcongr
          exact_mod_cast hc.lt.le
      _ = 2 ^ 52 * 2 ^ (e + 1) := by
          rw [zpow_add_one₀ two_ne_zero]
          ring
      _ ≤ n * ulp v := by
          unfold ulp
          gcongr
          · exact_mod_cast hfull
          · exact one_le_two
          · omega

/-! ### Numbers rounded to one -/

/-- A half above an even integer is rounded down to it. -/
theorem NearestEven.le_iff_of_even
    {n k : Nat} (h : NearestEven x n) (hk : Even k) :
    n ≤ k ↔ x ≤ k + 1 / 2 := by
  obtain ⟨hlow, hhigh⟩ := abs_le.mp h.near
  constructor
  · intro hle
    have hle' : (n : ℚ) ≤ k := by exact_mod_cast hle
    linarith
  · intro hx
    by_contra hlt
    have hge : (k : ℚ) + 1 ≤ n := by exact_mod_cast not_le.mp hlt
    have hn : n = k + 1 := by exact_mod_cast (by linarith : (n : ℚ) = k + 1)
    have htie : |x - n| = 1 / 2 := by
      rw [abs_sub_comm, abs_of_nonneg (by linarith)]
      linarith
    have heven := h.tie htie
    rw [hn] at heven
    exact Nat.not_even_iff_odd.mpr hk.add_one heven

/-- A half above an odd integer is rounded up. -/
theorem NearestEven.le_iff_of_odd
    {n k : Nat} (h : NearestEven x n) (hk : Odd k) :
    n ≤ k ↔ x < k + 1 / 2 := by
  obtain ⟨hlow, hhigh⟩ := abs_le.mp h.near
  constructor
  · intro hle
    have hle' : (n : ℚ) ≤ k := by exact_mod_cast hle
    refine lt_of_le_of_ne (by linarith) fun hx => ?_
    have hn : n = k := by exact_mod_cast (by linarith : (n : ℚ) = k)
    have htie : |x - n| = 1 / 2 := by
      rw [hx, hn]
      norm_num
    have heven := h.tie htie
    rw [hn] at heven
    exact Nat.not_even_iff_odd.mpr hk heven
  · intro hx
    by_contra hlt
    have hge : (k : ℚ) + 1 ≤ n := by exact_mod_cast not_le.mp hlt
    linarith

theorem ulp_eq
    {k : Int} (hlow : 2 ^ k ≤ v) (hhigh : v < 2 ^ (k + 1)) (hk : -1022 ≤ k) :
    ulp v = 2 ^ (k - 52) := by
  have hlog := log_eq_of_bounds (b := 2) (by decide) (by exact_mod_cast hlow)
    (by exact_mod_cast hhigh)
  rw [ulp, ulpExponent, hlog, max_eq_left (by omega)]

theorem canonical_two_pow_52
    {e : Int} (he : -1074 ≤ e) :
    Canonical (2 ^ 52) e :=
  ⟨by decide, he, Or.inl le_rfl⟩

/-- Above one the unit is `2 ^ -52`, and half of it is rounded down. -/
theorem RoundsTo.le_one_iff
    (h : RoundsTo v w) (hv : 0 < v) :
    w ≤ 1 ↔ v ≤ 1 + 1 / 2 ^ 53 := by
  rcases lt_or_ge v 1 with hsmall | hone
  · have hw := h.le_of_le hv (Nat.two_pow_pos 52) (canonical_two_pow_52 (e := -52) (by decide))
    norm_num at hw
    exact iff_of_true (hw hsmall.le) (by linarith)
  rcases lt_or_ge v 2 with htwo | hlarge
  · obtain ⟨n, hn, rfl⟩ := h
    have hulp : ulp v = 1 / 2 ^ 52 := by
      rw [ulp_eq (k := 0) (by simpa using hone) (by simpa using htwo) (by decide)]
      norm_num
    have hiff := hn.le_iff_of_even (k := 2 ^ 52) (by decide)
    have hn' : n ≤ 2 ^ 52 ↔ (n : ℚ) ≤ 2 ^ 52 := by exact_mod_cast Iff.rfl
    rw [hulp, hn'] at hiff
    rw [hulp]
    push_cast at hiff
    constructor
    · intro hw
      have hle := hiff.mp (by linarith)
      linarith
    · intro hv
      have hle := hiff.mpr (by linarith)
      linarith
  · have hw := h.ge_of_ge hv (canonical_two_pow_52 (e := -51) (by decide))
    norm_num at hw
    have hw := hw hlarge
    exact iff_of_false (by linarith) (by linarith)

/-- Below one the unit is `2 ^ -53`, and half of it is rounded up. -/
theorem RoundsTo.lt_one_iff
    (h : RoundsTo v w) (hv : 0 < v) :
    w < 1 ↔ v < 1 - 1 / 2 ^ 54 := by
  rcases lt_or_ge v (1 / 2) with hsmall | hhalf
  · have hw := h.le_of_le hv (Nat.two_pow_pos 52) (canonical_two_pow_52 (e := -53) (by decide))
    norm_num at hw
    have hw := hw (by linarith)
    exact iff_of_true (by linarith) (by linarith)
  rcases lt_or_ge v 1 with hone | hlarge
  · obtain ⟨n, hn, rfl⟩ := h
    have hulp : ulp v = 1 / 2 ^ 53 := by
      rw [ulp_eq (k := -1) (by norm_num; linarith) (by simpa using hone) (by decide)]
      norm_num
    have hiff := hn.le_iff_of_odd (k := 2 ^ 53 - 1) (by decide)
    have hn' : n ≤ 2 ^ 53 - 1 ↔ (n : ℚ) < 2 ^ 53 := by
      rw [← Nat.lt_iff_le_pred (by decide)]
      exact_mod_cast Iff.rfl
    rw [hulp, hn'] at hiff
    rw [hulp]
    push_cast at hiff
    constructor
    · intro hw
      have hlt := hiff.mp (by linarith)
      linarith
    · intro hv
      have hlt := hiff.mpr (by linarith)
      linarith
  · have hw := h.ge_of_ge hv (canonical_two_pow_52 (e := -52) (by decide))
    norm_num at hw
    exact iff_of_false (by linarith [hw hlarge]) (by linarith)

end

end Binary64
end DeskCalculator
