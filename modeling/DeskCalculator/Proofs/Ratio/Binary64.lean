import DeskCalculator.Proofs.Binary64.Decimal
import DeskCalculator.Proofs.Numeral.Order
import DeskCalculator.Proofs.Ratio.Rounding

/-!
# The binary64 number of a ratio

A ratio is rounded twice on its way to a binary64 number, first to 17 decimal
digits, a half away from zero, then to a multiple of the binary unit, a half to
the even one.  Both times numbers close to one may become one.

**Results.**
* `toFloat_ofRat`: the number is rounded correctly both times.
* `le_one_iff`, `lt_one_iff`: which ratios are rounded to one.
-/

namespace DeskCalculator
namespace Ratio

open Binary64

/-- A number above zero rounded to the significant digits kept. -/
def decimalValue (x : ℚ) : ℚ :=
  roundedDigits 10 floatDigits x * 10 ^ (Int.log 10 x - 16)

variable {x : ℚ}

/-! ### Seventeen digits -/

theorem decimalValue_bounds
    (hx : 0 < x) :
    (10 : ℚ) ^ Int.log 10 x ≤ decimalValue x ∧ decimalValue x ≤ 10 ^ (Int.log 10 x + 1) := by
  obtain ⟨hlow, hhigh⟩ := roundedDigits_bounds (by decide : 2 ≤ 10)
    (by decide : 0 < floatDigits) hx
  have hlow' : (10 : ℚ) ^ 16 ≤ roundedDigits 10 floatDigits x := by exact_mod_cast hlow
  have hhigh' : (roundedDigits 10 floatDigits x : ℚ) ≤ 10 ^ 17 := by exact_mod_cast hhigh
  have hunit : (0 : ℚ) < 10 ^ (Int.log 10 x - 16) := zpow_pos (by norm_num) _
  have hpow : ∀ k : Nat,
      (10 : ℚ) ^ k * 10 ^ (Int.log 10 x - 16) = 10 ^ (Int.log 10 x - 16 + k) := by
    intro k
    rw [zpow_add₀ (by norm_num), zpow_natCast, mul_comm]
  constructor
  · calc (10 : ℚ) ^ Int.log 10 x
        = 10 ^ 16 * 10 ^ (Int.log 10 x - 16) := by
          rw [hpow]
          congr 1
          omega
      _ ≤ decimalValue x := by
          unfold decimalValue
          gcongr
  · calc decimalValue x
        ≤ 10 ^ 17 * 10 ^ (Int.log 10 x - 16) := by
          unfold decimalValue
          gcongr
      _ = 10 ^ (Int.log 10 x + 1) := by
          rw [hpow]
          congr 1
          omega

theorem decimalValue_pos
    (hx : 0 < x) :
    0 < decimalValue x :=
  (zpow_pos (by norm_num) _).trans_le (decimalValue_bounds hx).1

theorem decimalValue_le_of_lt
    (hx : 0 < x) {k : Int} (h : x < 10 ^ k) :
    decimalValue x ≤ 10 ^ k := by
  have hlog := (Int.lt_zpow_iff_log_lt (b := 10) (by decide) hx).mp (by exact_mod_cast h)
  exact (decimalValue_bounds hx).2.trans (zpow_le_zpow_right₀ (by norm_num) (by omega))

theorem le_decimalValue
    {k : Int} (h : 10 ^ k ≤ x) :
    10 ^ k ≤ decimalValue x := by
  have hx : 0 < x := (zpow_pos (by norm_num) k).trans_le h
  have hlog := (Int.zpow_le_iff_le_log (b := 10) (by decide) hx).mp (by exact_mod_cast h)
  exact (zpow_le_zpow_right₀ (by norm_num) hlog).trans (decimalValue_bounds hx).1

/-- With the exponent of the first digit known, the digits are a rounded integer. -/
theorem decimalValue_eq
    {k : Int} (hlow : 10 ^ k ≤ x) (hhigh : x < 10 ^ (k + 1)) :
    decimalValue x = round (x * 10 ^ (16 - k)) * 10 ^ (k - 16) := by
  have hx : 0 < x := (zpow_pos (by norm_num) k).trans_le hlow
  have hlog := log_eq_of_bounds (b := 10) (by decide) (by exact_mod_cast hlow)
    (by exact_mod_cast hhigh)
  have hnonneg : 0 ≤ round (x * (10 : ℚ) ^ (16 - k)) := by
    rw [round_eq]
    exact Int.floor_nonneg.mpr (by positivity)
  have hdigits : (roundedDigits 10 floatDigits x : ℚ) = round (x * (10 : ℚ) ^ (16 - k)) := by
    unfold roundedDigits
    rw [hlog, show ((floatDigits : Nat) : Int) - 1 - k = 16 - k by rw [floatDigits]; omega,
      ← Int.cast_natCast, Int.toNat_of_nonneg (by exact_mod_cast hnonneg)]
    rfl
  rw [decimalValue, hlog, hdigits]

theorem round_lt_iff
    (y : ℚ) (n : Int) :
    round y < n ↔ y + 1 / 2 < n := by
  rw [round_eq]
  exact Int.floor_lt

/-- Of the numbers with 17 digits above one, the first one is nearest to one in binary. -/
theorem decimalValue_le_iff
    (hx : 0 < x) :
    decimalValue x ≤ 1 + 1 / 2 ^ 53 ↔ x < 1 + 3 / (2 * 10 ^ 16) := by
  rcases lt_or_ge x 1 with hsmall | hone
  · have hle := decimalValue_le_of_lt hx (k := 0) (by simpa using hsmall)
    rw [zpow_zero] at hle
    exact iff_of_true (by linarith) (by linarith)
  rcases lt_or_ge x 10 with hten | hlarge
  · have hlimit : ⌊((1 + 1 / 2 ^ 53) * 10 ^ 16 : ℚ)⌋ = 10 ^ 16 + 1 := by
      rw [Int.floor_eq_iff]
      norm_num
    have hvalue : decimalValue x = round (x * 10 ^ 16) / 10 ^ 16 := by
      rw [decimalValue_eq (k := 0) (by simpa using hone) (by simpa using hten), div_eq_mul_inv]
      rfl
    rw [hvalue, div_le_iff₀ (by positivity), ← Int.le_floor, hlimit, ← Int.lt_add_one_iff,
      round_lt_iff]
    push_cast
    constructor <;> intro h <;> linarith
  · have hge := le_decimalValue (k := 1) (by simpa using hlarge)
    rw [zpow_one] at hge
    exact iff_of_false (by linarith) (by linarith)

/-- Of the numbers with 17 digits below one, the last five are nearest to one in binary. -/
theorem decimalValue_lt_iff
    (hx : 0 < x) :
    decimalValue x < 1 - 1 / 2 ^ 54 ↔ x < 1 - 11 / (2 * 10 ^ 17) := by
  rcases lt_or_ge x (1 / 10) with hsmall | htenth
  · have hle := decimalValue_le_of_lt hx (k := -1) (by norm_num; linarith)
    norm_num at hle
    exact iff_of_true (by linarith) (by linarith)
  rcases lt_or_ge x 1 with hone | hlarge
  · have hlimit : ⌈((1 - 1 / 2 ^ 54) * 10 ^ 17 : ℚ)⌉ = 10 ^ 17 - 5 := by
      rw [Int.ceil_eq_iff]
      norm_num
    have hvalue : decimalValue x = round (x * 10 ^ 17) / 10 ^ 17 := by
      rw [decimalValue_eq (k := -1) (by norm_num; linarith) (by simpa using hone), div_eq_mul_inv]
      rfl
    rw [hvalue, div_lt_iff₀ (by positivity), ← Int.lt_ceil, hlimit, round_lt_iff]
    push_cast
    constructor <;> intro h <;> linarith
  · have hge := le_decimalValue (k := 0) (by simpa using hlarge)
    rw [zpow_zero] at hge
    exact iff_of_false (by linarith) (by linarith)

/-- The first rounding is to 17 digits, the second one to the binary unit. -/
theorem toFloat_ofRat
    {q : ℚ} (hq : q ≠ 0) :
    ∃ w, RoundsTo (decimalValue |q|) w ∧
      Binary64.Denotes (ofRat q).toFloat (if q < 0 then -w else w) := by
  obtain ⟨s, hs, hrounds⟩ := significandFrom_ofRat (by decide : 2 ≤ 10) (by decide)
    (by decide : 0 < floatDigits) hq
    (estimateExponent (ofRat q).num.abs (ofRat q).den.abs 10)
  have hlength : s.digits.length = 17 := hrounds.length
  have hlarge : 10 ^ 16 ≤ natOf 10 s.digits := by
    have hle := hrounds.digits.length_le_iff (by decide) (by decide) hrounds.head 16
    omega
  have hdigits : (Magnitude.ofDigits? s.digits 10).getD [] = .ofNat (natOf 10 s.digits) := by
    rw [Magnitude.ofDigits?_eq (by decide) (by decide) (hrounds.digits.readable (by decide))]
    rfl
  have hvalue : (natOf 10 s.digits * 10 ^ (s.exponent - 16) : ℚ) = decimalValue |q| := by
    have hrounded := hrounds.value
    rw [show s.exponent - floatDigits + 1 = s.exponent - 16 by rw [floatDigits]; omega,
      show Int.log 10 |q| - floatDigits + 1 = Int.log 10 |q| - 16 by rw [floatDigits]; omega]
      at hrounded
    exact hrounded
  obtain ⟨w, hw, hdenotes⟩ := nearestFloat_rounds
    ((by decide : 2 ^ 53 ≤ 10 ^ 16).trans hlarge) (s.exponent - 16)
  rw [hvalue] at hw
  refine ⟨w, hw, ?_⟩
  have hfloat : (ofRat q).toFloat =
      if q < 0 then -nearestFloat (natOf 10 s.digits) (s.exponent - 16)
      else nearestFloat (natOf 10 s.digits) (s.exponent - 16) := by
    unfold toFloat significand?
    rw [hs]
    dsimp only
    rw [hdigits, hlength, Magnitude.toNat_ofNat]
    simp only [isNegative_ofRat]
    rfl
  rw [hfloat]
  split
  · exact hdenotes.neg
  · exact hdenotes

/-- A ratio beyond a power of ten is not rounded below a binary64 number before it. -/
theorem toFloat_large
    {q : ℚ} {k e : Int} {m : Nat} (hq : 10 ^ k ≤ |q|) (hm : Canonical m e)
    (hle : (m * 2 ^ e : ℚ) ≤ 10 ^ k) :
    ∃ w, (m * 2 ^ e : ℚ) ≤ w ∧ Binary64.Denotes (ofRat q).toFloat (if q < 0 then -w else w) := by
  have hpos : 0 < |q| := (zpow_pos (by norm_num) k).trans_le hq
  obtain ⟨w, hw, hdenotes⟩ := toFloat_ofRat (abs_pos.mp hpos)
  have hvalue := hle.trans (le_decimalValue hq)
  exact ⟨w, hw.ge_of_ge (decimalValue_pos hpos) hm hvalue, hdenotes⟩

theorem toFloat_zero : (ofRat 0).toFloat = 0.0 := by
  rw [ofRat_zero]
  rfl

/-! ### Near one -/

/-- The absolute value of the binary64 number, with its place relative to one. -/
structure NearOne (q w : ℚ) : Prop where
  nonneg : 0 ≤ w
  denotes : Binary64.Denotes (ofRat q).toFloat (if q < 0 then -w else w)
  le_one : w ≤ 1 ↔ |q| < 1 + 3 / (2 * 10 ^ 16)
  lt_one : w < 1 ↔ |q| < 1 - 11 / (2 * 10 ^ 17)

theorem exists_nearOne
    (q : ℚ) :
    ∃ w, NearOne q w := by
  rcases eq_or_ne q 0 with rfl | hq
  · refine ⟨0, le_rfl, ?_, by norm_num, by norm_num⟩
    rw [toFloat_zero, if_neg (lt_irrefl _)]
    exact denotes_zero
  · obtain ⟨w, hw, hdenotes⟩ := toFloat_ofRat hq
    have hpos := abs_pos.mpr hq
    exact ⟨w, hw.nonneg, hdenotes,
      (hw.le_one_iff (decimalValue_pos hpos)).trans (decimalValue_le_iff hpos),
      (hw.lt_one_iff (decimalValue_pos hpos)).trans (decimalValue_lt_iff hpos)⟩

end Ratio
end DeskCalculator
