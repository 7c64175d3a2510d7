import DeskCalculator.Proofs.Numeral.Layout
import DeskCalculator.Proofs.Ratio.Decimal
import DeskCalculator.Proofs.Ratio.LowestTerms
import DeskCalculator.Proofs.Ratio.Rounding
import DeskCalculator.Ratio.Text

/-!
# Decimal texts are read back

The text of a ratio is the layout of its rounded digits, or the digits of an
integer that fits in the precision, which are its rounded digits as well.  So in
every style the text stands for the rounded number, and the reader of decimal
literals makes that number of it.

**Results.**
* `read?_toText`: every text, read without limits, is the rounded number.
* `decimal_round_trip`: the same for the reader of literals, within its limits.
-/

namespace DeskCalculator
namespace Ratio

open Numeral

/-- The number that a significand of `p` digits stands for, with the sign of `r`. -/
def roundedValue (r : Ratio) (radix p : Nat) (s : Significand) : ℚ :=
  r.sign * (natOf radix s.digits * (radix : ℚ) ^ (s.exponent - p + 1))

theorem sign_ofRat
    (q : ℚ) :
    (ofRat q).sign = q.num.sign := by
  have hden : (ofRat q).den.sign = .positive :=
    (ScaledNumber.canonical_ofNat q.den).toRat_sign.2.2.mpr (by
      rw [ScaledNumber.toRat_ofNat]
      exact_mod_cast q.den_pos)
  obtain ⟨hneg, hzero, hpos⟩ := (ScaledNumber.canonical_ofInt q.num).toRat_sign
  rw [ScaledNumber.toRat_ofInt] at hneg hzero hpos
  have hnum : (ofRat q).num.sign.toInt = q.num.sign := by
    rcases lt_trichotomy q.num 0 with h | h | h
    · rw [ofRat, hneg.mpr (by exact_mod_cast h), Int.sign_eq_neg_one_of_neg h]
      rfl
    · rw [ofRat, hzero.mpr (by exact_mod_cast h), h]
      rfl
    · rw [ofRat, hpos.mpr (by exact_mod_cast h), Int.sign_eq_one_of_pos h]
      rfl
  rw [sign, hnum, hden]
  exact mul_one _

variable {radix p : Nat} {q : ℚ} {s : Significand}

/-- The sign as it is written. -/
theorem cast_sign_ofRat
    (hq : q ≠ 0) :
    ((ofRat q).sign : ℚ) = if (ofRat q).isNegative then -1 else 1 := by
  rw [sign_ofRat]
  rcases lt_or_gt_of_ne hq with hneg | hpos
  · rw [if_pos ((isNegative_ofRat q).mpr hneg), Int.sign_eq_neg_one_of_neg (Rat.num_neg.mpr hneg)]
    norm_num
  · rw [if_neg (mt (isNegative_ofRat q).mp hpos.not_gt),
      Int.sign_eq_one_of_pos (Rat.num_pos.mpr hpos)]
    norm_num

theorem sign_mul_abs
    (hq : q ≠ 0) :
    ((ofRat q).sign : ℚ) * |q| = q := by
  rw [cast_sign_ofRat hq]
  exact signFactor_mul_abs q

/-- A number with at most `p` digits keeps its value. -/
theorem roundedValue_of_short
    (htwo : 2 ≤ radix) (hq : q ≠ 0) (hs : s.Rounds radix p |q|) {m k : Int}
    (hm : m.natAbs < radix ^ p) (hvalue : q = m * (radix : ℚ) ^ k) :
    (ofRat q).roundedValue radix p s = q := by
  have hradix : (0 : ℚ) < radix := by exact_mod_cast (by omega : 0 < radix)
  have habs : |q| = m.natAbs * (radix : ℚ) ^ k := by
    rw [hvalue, abs_mul, abs_of_pos (zpow_pos hradix k), Nat.cast_natAbs, Int.cast_abs]
  rw [roundedValue, hs.value, roundedDigits_of_short htwo hm (abs_pos.mpr hq) habs,
    sign_mul_abs hq]

theorem significand?_ofRat
    (htwo : 2 ≤ radix) (hradix : radix ≤ 16) (hp : 0 < p) (hq : q ≠ 0) :
    ∃ s, (ofRat q).significand? radix p = some s ∧ s.Rounds radix p |q| :=
  significandFrom_ofRat htwo hradix hp hq _

/-! ### The parts of a text -/

/-- The parts of the text of a ratio that is not zero, without the sign. -/
def textParts (r : Ratio) (radix : Nat) (style : NumberStyle) (p : Nat) (s : Significand) :
    Parts :=
  match (if style = .floating then r.shortDigits? radix p else none) with
  | some digits => { whole := digits }
  | none => layoutParts s.digits s.exponent style p

theorem toDigits_num_ofRat
    (htwo : 2 ≤ radix) (hradix : radix ≤ 16) (q : ℚ) :
    (ofRat q).num.toDigits radix = digitsOf radix q.num.natAbs :=
  ScaledNumber.toDigits_ofInt htwo hradix q.num

/-- The short text of an integer holds its digits, and they fit. -/
theorem shortDigits?_ofRat
    (htwo : 2 ≤ radix) (hradix : radix ≤ 16) (hq : q ≠ 0) {digits : List Char}
    (h : (ofRat q).shortDigits? radix p = some digits) :
    q = q.num ∧ digits = digitsOf radix q.num.natAbs ∧ q.num.natAbs < radix ^ p := by
  have hpos : 0 < q.num.natAbs := Int.natAbs_pos.mpr (Rat.num_ne_zero.mpr hq)
  unfold shortDigits? at h
  split at h
  · rename_i hinteger
    dsimp only at h
    split at h
    · rename_i hlength
      rw [toDigits_num_ofRat htwo hradix] at h hlength
      have hden := (isInteger_ofRat q).mp hinteger.1
      exact ⟨((Rat.den_eq_one_iff q).mp hden).symm, (Option.some.inj h).symm,
        (length_digitsOf_le_iff htwo hpos p).mp hlength⟩
    · cases h
  · cases h

theorem Significand.Rounds.digits_ne_nil
    (hs : s.Rounds radix p |q|) (hp : 0 < p) :
    s.digits ≠ [] :=
  List.ne_nil_of_length_pos (by rwa [hs.length])

section

variable (htwo : 2 ≤ radix) (hradix : radix ≤ 16) (hq : q ≠ 0) (hs : s.Rounds radix p |q|)
  (hp : 0 < p) (style : NumberStyle)

include hs hp

/-- The numbers in the text are little larger than the exponent and the precision. -/
theorem textParts_limits :
    (∀ x ∈ ((ofRat q).textParts radix style p s).exponent?, x.natAbs ≤ s.exponent.natAbs + 2) ∧
      (((ofRat q).textParts radix style p s).exponent?.getD 0 -
          ((ofRat q).textParts radix style p s).fraction.length).natAbs ≤
        s.exponent.natAbs + p + 2 := by
  have hne := hs.digits_ne_nil hp
  unfold textParts
  split
  · simp
  · rw [← hs.length]
    exact layoutParts_limits hne hs.head _ _ _

include hq

/-- The text is that of its parts, with the sign in front. -/
theorem toText_eq
    (hsignificand : (ofRat q).significand? radix p = some s) :
    (ofRat q).toText radix style p =
      if (ofRat q).isNegative then '-' :: ((ofRat q).textParts radix style p s).text radix
      else ((ofRat q).textParts radix style p s).text radix := by
  have hne := hs.digits_ne_nil hp
  unfold toText textParts
  rw [if_neg (mt (isZero_ofRat q).mp hq)]
  cases (if style = .floating then (ofRat q).shortDigits? radix p else none) with
  | some digits => simp [signed, Parts.text, Parts.mantissa]
  | none =>
      simp only [roundedText, hsignificand]
      exact layout_eq hne hs.head _ _ _ _

include htwo hradix

theorem textParts_digital :
    ((ofRat q).textParts radix style p s).Digital radix := by
  have hne := hs.digits_ne_nil hp
  unfold textParts
  split
  · rename_i digits hshort
    obtain ⟨-, rfl, -⟩ :=
      shortDigits?_ofRat htwo hradix hq (Option.ite_none_right_eq_some.mp hshort).2
    have hdigits := (areDigits_digitsOf htwo q.num.natAbs).readable hradix
    exact ⟨digitsOf_ne_nil _, by simpa using hdigits⟩
  · exact layoutParts_digital hne hs.head (by omega) (hs.digits.readable hradix) _ _ _

/-- The text stands for the rounded digits, also when it is written in full. -/
theorem textParts_value :
    ((ofRat q).textParts radix style p s).value radix =
      natOf radix s.digits * (radix : ℚ) ^ (s.exponent - p + 1) := by
  have hne := hs.digits_ne_nil hp
  unfold textParts
  split
  · rename_i digits hshort
    obtain ⟨hint, rfl, hlt⟩ :=
      shortDigits?_ofRat htwo hradix hq (Option.ite_none_right_eq_some.mp hshort).2
    have habs : |q| = q.num.natAbs * (radix : ℚ) ^ (0 : Int) := by
      rw [zpow_zero, mul_one, Nat.cast_natAbs, Int.cast_abs, ← hint]
    rw [hs.value, roundedDigits_of_short htwo hlt (abs_pos.mpr hq) habs, habs]
    simp [Parts.value, natOf_digitsOf htwo hradix]
  · rw [layoutParts_value hne hs.head (by omega), hs.length]
    congr 2
    ring

/-- Every text, read without limits, is the rounded number. -/
theorem read?_toText
    (hsignificand : (ofRat q).significand? radix p = some s) :
    read? radix ((ofRat q).toText radix style p) =
      some ((ofRat q).roundedValue radix p s) := by
  rw [toText_eq hq hs hp style hsignificand,
    read?_signed_text (textParts_digital htwo hradix hq hs hp style),
    textParts_value htwo hradix hq hs hp, roundedValue, cast_sign_ofRat hq]

end

/-- The reader of literals makes the rounded number of every text. -/
theorem ofDecimal?_toText
    (hq : q ≠ 0) (hs : s.Rounds 10 p |q|) (hp : 0 < p) (style : NumberStyle)
    (hsignificand : (ofRat q).significand? 10 p = some s)
    (hlimit : s.exponent.natAbs + p ≤ 99990) :
    ofDecimal? ((ofRat q).toText 10 style p) = some (ofRat ((ofRat q).roundedValue 10 p s)) := by
  obtain ⟨hexponent, hscale⟩ := textParts_limits hs hp style
  have hword : ∀ e ∈ ((ofRat q).textParts 10 style p s).exponent?, -2 ^ 63 ≤ e ∧ e < 2 ^ 63 := by
    intro e he
    have := hexponent e he
    omega
  have hlimits : s.exponent.natAbs + p + 2 ≤ DecimalLiteral.scaleLimit := by
    unfold DecimalLiteral.scaleLimit
    omega
  rw [toText_eq hq hs hp style hsignificand, ofDecimal?_signed_text
      (textParts_digital (by decide) (by decide) hq hs hp style) hword (hscale.trans hlimits),
    textParts_value (by decide) (by decide) hq hs hp, roundedValue, cast_sign_ofRat hq]

/-- The text of zero is read as zero. -/
theorem ofDecimal?_toText_zero
    (style : NumberStyle) (p : Nat) :
    ofDecimal? (zero.toText 10 style p) = some zero := by
  have htext : zero.toText 10 style p = ['0'] := rfl
  rw [htext]
  decide +kernel

/--
Texts in decimal, of any style and with at least one digit, are read back.
Zero is read as zero.  Otherwise the text stands for the number of the rounded
digits; within the limits of the reader this number is what it makes of the
text; and a ratio with no more digits than are written is this number.
-/
theorem decimal_round_trip
    {r : Ratio} (hr : LowestTerms r) (hp : 0 < p) :
    (r.isZero = true → ∀ style, ofDecimal? (r.toText 10 style p) = some .zero) ∧
      (r.isZero = false → ∃ s, r.significand? 10 p = some s ∧
        (∀ style, read? 10 (r.toText 10 style p) = some (r.roundedValue 10 p s)) ∧
        (s.exponent.natAbs + p ≤ 99990 → ∀ style,
          ofDecimal? (r.toText 10 style p) = some (ofRat (r.roundedValue 10 p s))) ∧
        ∀ m k : Int, r.toRat = m * 10 ^ k → m.natAbs < 10 ^ p →
          ofRat (r.roundedValue 10 p s) = r) := by
  obtain ⟨q, rfl⟩ := hr.exists_ofRat
  refine ⟨fun hzero style => ?_, fun hzero => ?_⟩
  · rw [(isZero_ofRat q).mp hzero, ofRat_zero, ofDecimal?_toText_zero]
  · have hq : q ≠ 0 := fun hq => by simp [(isZero_ofRat q).mpr hq] at hzero
    obtain ⟨s, hsignificand, hs⟩ := significand?_ofRat (by decide : 2 ≤ 10) (by decide) hp hq
    refine ⟨s, hsignificand, ?_, ?_, ?_⟩
    · exact fun style => read?_toText (by decide) (by decide) hq hs hp style hsignificand
    · exact fun hlimit style => ofDecimal?_toText hq hs hp style hsignificand hlimit
    · intro m k hvalue hm
      rw [toRat_ofRat] at hvalue
      exact congrArg ofRat (roundedValue_of_short (by decide) hq hs hm (by exact_mod_cast hvalue))

/-- The eighth below zero has three digits, and is read back from every text of three digits. -/
theorem round_trip_eighth :
    LowestTerms (ofRat (-1 / 8)) ∧ 0 < 3 ∧
      ∀ style, ofDecimal? ((ofRat (-1 / 8)).toText 10 style 3) = some (ofRat (-1 / 8)) := by
  have hq : (-1 / 8 : ℚ) ≠ 0 := by norm_num
  have hterms := lowestTerms_ofRat (-1 / 8)
  have hzero : (ofRat (-1 / 8)).isZero = false :=
    Bool.eq_false_iff.mpr (mt (isZero_ofRat _).mp hq)
  obtain ⟨s, hsignificand, -, hread, hshort⟩ :=
    (decimal_round_trip hterms (by decide : 0 < 3)).2 hzero
  have hexponent : s.exponent.natAbs + 3 ≤ 99990 := by
    obtain ⟨s', hsignificand', hs'⟩ :=
      significand?_ofRat (by decide : 2 ≤ 10) (by decide) (by decide : 0 < 3) hq
    obtain rfl := Option.some.inj (hsignificand.symm.trans hsignificand')
    have habs : |(-1 / 8 : ℚ)| = 1 / 8 := by norm_num [abs_of_neg]
    have hpos : (0 : ℚ) < 1 / 8 := by norm_num
    have hlow : (-1 : Int) ≤ Int.log 10 (1 / 8 : ℚ) :=
      (Int.zpow_le_iff_le_log (by decide) hpos).mp (by norm_num)
    have hhigh : Int.log 10 (1 / 8 : ℚ) < 0 :=
      (Int.lt_zpow_iff_log_lt (by decide) hpos).mp (by norm_num)
    have hlog := hs'.exponent
    rw [habs] at hlog
    split at hlog <;> omega
  refine ⟨hterms, by decide, fun style => ?_⟩
  rw [hread hexponent style, hshort (-125) (-3) (by rw [toRat_ofRat]; norm_num) (by decide)]

end Ratio
end DeskCalculator
