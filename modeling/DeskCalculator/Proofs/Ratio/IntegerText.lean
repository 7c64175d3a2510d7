import DeskCalculator.Proofs.Numeral.Styles
import DeskCalculator.Proofs.Ratio.RoundTrip
import DeskCalculator.Proofs.Ratio.Scales

/-!
# Texts of integers

In the floating style an integer that fits in the precision is written in full,
without rounding, if it has few enough bits to be worth a try.  Rounding to the
precision appends zeros to its digits; the layout takes all zeros at the end off,
and fills up with zeros as far as the point.  What is left are the digits of the
integer, so that the number of bits that is tried does not matter.

The precision is read as a signed word for the scale of the rounded digits and for
their layout, but not where the digits in full are counted.  From `2 ^ 63` on the
first two readings are below zero, and the two ways part.

**Results.**
* `layout_rounded_integer`: the layout of the rounded digits of an integer that
  fits is its text in full.
* `toTextBy_eq`: the text is the same for every number of bits that is tried.
* `integer_text_in_words`: where the two ways to the text of an integer agree.
-/

namespace DeskCalculator
namespace Ratio

open Numeral

/-- The text by way of the rounded digits, in words. -/
def roundedTextBy (keep : WordRule) (r : Ratio) (radix : Nat) (style : NumberStyle)
    (precision : Nat) : Except WordFault (List Char) := do
  match ← r.significandBy keep radix precision with
  | none => return ['0']
  | some s => layoutBy keep r.isNegative s.digits s.exponent radix style precision

variable {radix p : Nat} {q : ℚ} {s : Significand}

section

variable (htwo : 2 ≤ radix) (hradix : radix ≤ 16) (hq : q ≠ 0) (hint : q = q.num)
  (hlength : (digitsOf radix q.num.natAbs).length ≤ p)

include htwo hq hint hlength

/-- The rounded digits of an integer that fits stand for the integer. -/
theorem placed_rounded_integer
    (hs : s.Rounds radix p |q|) :
    placed radix s.digits s.exponent = q.num.natAbs := by
  have hpos : 0 < q.num.natAbs := Int.natAbs_pos.mpr (Rat.num_ne_zero.mpr hq)
  have hlt : q.num.natAbs < radix ^ p := (length_digitsOf_le_iff htwo hpos p).mp hlength
  have habs : |q| = q.num.natAbs := by
    rw [Nat.cast_natAbs, Int.cast_abs, ← hint]
  have hscaled : |q| = q.num.natAbs * (radix : ℚ) ^ (0 : Int) := by
    rw [zpow_zero, mul_one, habs]
  have hplace : s.exponent + 1 - (p : Int) = s.exponent - p + 1 := by ring
  calc
    placed radix s.digits s.exponent
        = natOf radix s.digits * (radix : ℚ) ^ (s.exponent - p + 1) := by
      rw [placed, hs.length, hplace]
    _ = |q| := hs.value.trans (roundedDigits_of_short htwo hlt (abs_pos.mpr hq) hscaled)
    _ = q.num.natAbs := habs

include hradix

/-- The layout of the rounded digits of an integer that fits is its text in full. -/
theorem layout_rounded_integer
    (hs : s.Rounds radix p |q|) (negative : Bool) :
    layout negative s.digits s.exponent radix .floating p =
      signed negative (digitsOf radix q.num.natAbs) := by
  have hpos : 0 < q.num.natAbs := Int.natAbs_pos.mpr (Rat.num_ne_zero.mpr hq)
  have hne : digitsOf radix q.num.natAbs ≠ [] := digitsOf_ne_nil _
  have hhead := head_digitsOf_ne_zero htwo hradix hpos
  have hp : 0 < p := (List.length_pos_iff.mpr hne).trans_le hlength
  have hplaced : placed radix s.digits s.exponent =
      placed radix (digitsOf radix q.num.natAbs)
        ((digitsOf radix q.num.natAbs).length - 1) := by
    rw [placed_rounded_integer htwo hq hint hlength hs, placed, natOf_digitsOf htwo hradix,
      sub_add_cancel, sub_self, zpow_zero, mul_one]
  rw [layout_congr htwo hradix hs.digits (areDigits_digitsOf htwo _) (hs.digits_ne_nil hp) hne
      hs.head hhead hplaced, layout_whole hne hhead hlength, signed]

end

/-! ### Precisions that are signed words -/

/-- The first digit of an integer that fits stands at a place below the precision. -/
theorem log_integer_lt
    (htwo : 2 ≤ radix) (hq : q ≠ 0) (hint : q = q.num) {p : Nat}
    (hlength : (digitsOf radix q.num.natAbs).length ≤ p) :
    0 ≤ Int.log radix |q| ∧ Int.log radix |q| < p := by
  have hpos : 0 < q.num.natAbs := Int.natAbs_pos.mpr (Rat.num_ne_zero.mpr hq)
  have habs : |q| = (q.num.natAbs : ℚ) := by
    rw [Nat.cast_natAbs, Int.cast_abs, ← hint]
  rw [habs, Int.log_natCast]
  refine ⟨Int.natCast_nonneg _, ?_⟩
  exact_mod_cast Nat.log_lt_of_lt_pow hpos.ne' ((length_digitsOf_le_iff htwo hpos p).mp hlength)

section

variable {keep : WordRule} (hkeep : keep.Keeps (FitsWord 64)) (hword : p < 2 ^ 63)

include hkeep hword

/-- The digits of an integer that fits are rounded in words. -/
theorem significandBy_integer
    (htwo : 2 ≤ radix) (hq : q ≠ 0) (hint : q = q.num)
    (hlength : (digitsOf radix q.num.natAbs).length ≤ p) :
    (ofRat q).significandBy keep radix p = .ok ((ofRat q).significand? radix p) := by
  obtain ⟨hlow, hhigh⟩ := log_integer_lt htwo hq hint hlength
  have hp : 0 < p := by omega
  exact significandFromBy_of_fits htwo hp hword hq hkeep ⟨by omega, by omega⟩ (by omega) _

omit hkeep in
/-- The floating style does not compute with exponents. -/
theorem layoutBy_floating
    (keep : WordRule) (negative : Bool) (digits : List Char) (e : Int) :
    layoutBy keep negative digits e radix .floating p =
      .ok (layout negative digits e radix .floating p) := by
  have hread : signedWord 64 p = p :=
    signedWord_of_fits (by decide) ⟨by omega, by omega⟩
  unfold layoutBy layout
  dsimp only
  split
  · rfl
  · simp only [bodyBy, body, hread, bind, Except.bind]
    rfl

/-- The text by way of the rounded digits is the text in full. -/
theorem roundedTextBy_integer
    (htwo : 2 ≤ radix) (hradix : radix ≤ 16) (hq : q ≠ 0)
    (hinteger : (ofRat q).isInteger = true)
    (hlength : ((ofRat q).num.toDigits radix).length ≤ p) :
    (ofRat q).roundedTextBy keep radix .floating p =
      .ok (signed (ofRat q).isNegative ((ofRat q).num.toDigits radix)) := by
  have hint : q = q.num := ((Rat.den_eq_one_iff q).mp ((isInteger_ofRat q).mp hinteger)).symm
  rw [toDigits_num_ofRat htwo hradix] at hlength ⊢
  have hp : 0 < p := (List.length_pos_iff.mpr (digitsOf_ne_nil _)).trans_le hlength
  obtain ⟨s, hsignificand, hs⟩ := significand?_ofRat htwo hradix hp hq
  have hdigits := significandBy_integer hkeep hword htwo hq hint hlength
  rw [hsignificand] at hdigits
  simp only [roundedTextBy, hdigits, bind, Except.bind]
  rw [layoutBy_floating hword, layout_rounded_integer htwo hradix hq hint hlength hs]

/-- The text is the one by way of the rounded digits, whatever number of bits is tried. -/
theorem toTextBy_eq
    {r : Ratio} (hr : LowestTerms r) (htwo : 2 ≤ radix) (hradix : radix ≤ 16) (bits : Nat)
    (style : NumberStyle) :
    r.toTextBy keep bits radix style p = r.roundedTextBy keep radix style p := by
  obtain ⟨q, rfl⟩ := hr.exists_ofRat
  rcases eq_or_ne q 0 with rfl | hq
  · have hzero : (ofRat 0).significandBy keep radix p = .ok none := by
      rw [significandBy, significandFromBy, if_pos ((isZero_ofRat 0).mpr rfl)]
    simp only [toTextBy, roundedTextBy, hzero]
    rfl
  by_cases hfull : style = .floating ∧ (ofRat q).isInteger ∧ (ofRat q).bitLength ≤ bits ∧
      ((ofRat q).num.toDigits radix).length ≤ p
  · obtain ⟨rfl, hinteger, hbits, hlength⟩ := hfull
    rw [roundedTextBy_integer hkeep hword htwo hradix hq hinteger hlength]
    have hint : q = q.num := ((Rat.den_eq_one_iff q).mp ((isInteger_ofRat q).mp hinteger)).symm
    have hshort := hlength
    rw [toDigits_num_ofRat htwo hradix] at hshort
    have hp : 0 < p := (List.length_pos_iff.mpr (digitsOf_ne_nil _)).trans_le hshort
    obtain ⟨s, hsignificand, -⟩ := significand?_ofRat htwo hradix hp hq
    have hdigits := significandBy_integer hkeep hword htwo hq hint hshort
    rw [hsignificand] at hdigits
    simp only [toTextBy, hdigits, bind, Except.bind]
    rw [if_pos ⟨trivial, hinteger, hbits, hlength⟩]
    rfl
  · unfold toTextBy roundedTextBy
    cases (ofRat q).significandBy keep radix p with
    | error fault => rfl
    | ok s? =>
        cases s? with
        | none => rfl
        | some s => exact if_neg hfull

end

/-! ### Precisions beyond the signed words -/

/-- A text with an exponent is none of digits only. -/
theorem signed_ne_of_exponent
    {digits cs : List Char} {negative : Bool} {e : Int} {text : List Char} {parts : Parts}
    (hlaid : LaidOut radix digits negative e text parts) (hexponent : parts.exponent? ≠ none)
    (hne : cs ≠ []) (hcs : Readable radix cs) :
    text ≠ signed negative cs := by
  rintro rfl
  have hplain : ({ whole := cs, fraction := [] } : Parts).text radix = cs := by
    simp [Parts.text, Parts.mantissa]
  have hdigital : ({ whole := cs, fraction := [] } : Parts).Digital radix :=
    ⟨hne, by simpa using hcs⟩
  have hparts := parts?_signed_text hdigital negative
  rw [hplain] at hparts
  have heq := hlaid.parts_eq.symm.trans hparts
  rw [Option.some_inj, Prod.mk.injEq] at heq
  exact hexponent (by rw [heq.2])

/-- A text whose precision is read as a number below zero is not the text in full. -/
theorem layoutBy_ne_of_negative_precision
    (htwo : 2 ≤ radix) (hradix : radix ≤ 16) (hp : 2 ^ 63 ≤ p) (hword : p < 2 ^ 64) (hq : q ≠ 0)
    (hint : q = q.num) (hplaces : (digitsOf radix q.num.natAbs).length ≤ 2 ^ 63) (negative : Bool) :
    ∃ s, (ofRat q).significandBy (.wrapped 64) radix p = .ok (some s) ∧
      layoutBy (.wrapped 64) negative s.digits s.exponent radix .floating p ≠
        .ok (signed negative (digitsOf radix q.num.natAbs)) := by
  have hpos : 0 < q.num.natAbs := Int.natAbs_pos.mpr (Rat.num_ne_zero.mpr hq)
  have hne : digitsOf radix q.num.natAbs ≠ [] := digitsOf_ne_nil _
  have hhead := head_digitsOf_ne_zero htwo hradix hpos
  have hreadable : Readable radix (digitsOf radix q.num.natAbs) :=
    (areDigits_digitsOf htwo _).readable hradix
  obtain ⟨hlow, hhigh⟩ := log_integer_lt htwo hq hint hplaces
  obtain ⟨s, hs⟩ := exists_roundedInWords htwo hradix (by omega : 0 < p) hword hq
    ⟨by omega, by push_cast at hhigh; omega⟩ (estimateExponent (ofRat q).num.abs (ofRat q).den.abs radix)
  refine ⟨s, hs.wrapped, ?_⟩
  rcases lt_or_ge ((p : Int) - 1 - Int.log radix |q|) (2 ^ 63) with hfits | hbeyond
  · -- the digits are right, but their place is not below the precision as it is read
    have hrounded := hs.rounded hfits
    have hread : signedWord 64 p = (p : Int) - 2 ^ 64 :=
      signedWord_of_fits_sub (by decide) ⟨by omega, by omega⟩
    have hexponent : 0 ≤ s.exponent := by
      obtain ⟨-, h⟩ | ⟨-, h, -⟩ := hrounded.exponent <;> omega
    have hsne : s.digits ≠ [] := by
      rw [← List.length_pos_iff, hrounded.length]
      omega
    have hstyle : NumberStyle.floating = .engineering →
        -2 ^ 63 + 2 ≤ s.exponent ∧ s.exponent < 2 ^ 63 := fun h => nomatch h
    have hruns : Runs 64
        (fun keep => layoutBy keep negative s.digits s.exponent radix .floating p) _ :=
      layoutBy_runs hsne hrounded.head negative hstyle p
    have hlaid := laidOut_layout hsne hrounded.head (by omega : 0 < radix)
      (hrounded.digits.readable hradix) negative s.exponent (styleInWords s.exponent p .floating) p
    have hsome := (layoutParts_styled_in_words hsne hrounded.head s.exponent .floating p).1
    intro heq
    refine signed_ne_of_exponent hlaid (fun hnone => ?_) hne hreadable
      (Except.ok.inj (hruns.2.symm.trans heq))
    have := (hsome.mp hnone).2
    omega
  · -- nothing is left of the digits
    obtain rfl := hs.lost hbeyond
    have hzero : layoutBy (.wrapped 64) negative ['0'] (Int.log radix |q|) radix .floating p =
        .ok ['0'] := rfl
    intro heq
    have htext := Except.ok.inj (hzero.symm.trans heq)
    cases negative with
    | true =>
        rw [signed, if_pos rfl] at htext
        exact absurd (List.cons.inj htext).1 (by decide)
    | false =>
        rw [signed, if_neg Bool.false_ne_true] at htext
        exact hhead (htext ▸ rfl)

/--
**Both ways to the text of an integer agree, for every precision that is a signed
word.**  Take the lowest terms of an integer that is not zero and has at most `p`
digits in the radix.  The digits that are written in full are those of its
magnitude; it has rounded digits as well, and their layout in the floating style is
the text in full with its sign.  So no text depends on how many bits an integer may
have to be written in full.

A larger precision is read as a number below zero, and then the two ways give
different texts, for every integer.
-/
theorem integer_text_in_words
    {r : Ratio} (hr : LowestTerms r) (htwo : 2 ≤ radix) (hradix : radix ≤ 16)
    (hword : p < 2 ^ 64) :
    (∀ x : Int, r.toRat = x → x ≠ 0 → (digitsOf radix x.natAbs).length ≤ p →
        r.num.toDigits radix = digitsOf radix x.natAbs ∧ r.isNegative = decide (x < 0) ∧
          (p < 2 ^ 63 → ∃ s,
            Runs 64 (fun keep => r.significandBy keep radix p) (some s) ∧
              Runs 64
                (fun keep =>
                  layoutBy keep (decide (x < 0)) s.digits s.exponent radix .floating p)
                (signed (decide (x < 0)) (digitsOf radix x.natAbs))) ∧
          (2 ^ 63 ≤ p → (digitsOf radix x.natAbs).length ≤ 2 ^ 63 → ∃ s,
            r.significandBy (.wrapped 64) radix p = .ok (some s) ∧
              layoutBy (.wrapped 64) (decide (x < 0)) s.digits s.exponent radix .floating p ≠
                .ok (signed (decide (x < 0)) (digitsOf radix x.natAbs)))) ∧
      (p < 2 ^ 63 → ∀ keep : WordRule, keep.Keeps (FitsWord 64) → ∀ bits bits' style,
        r.toTextBy keep bits radix style p = r.toTextBy keep bits' radix style p) := by
  refine ⟨?integers, fun hsmall keep hkeep bits bits' style => ?bits⟩
  case integers =>
    obtain ⟨q, rfl⟩ := hr.exists_ofRat
    intro x hx hzero hlength
    rw [toRat_ofRat] at hx
    subst hx
    have hq : (x : ℚ) ≠ 0 := Int.cast_ne_zero.mpr hzero
    have hp : 0 < p := (List.length_pos_iff.mpr (digitsOf_ne_nil _)).trans_le hlength
    have hnegative : (ofRat x).isNegative = decide (x < 0) := by
      rw [Bool.eq_iff_iff, isNegative_ofRat, Int.cast_lt_zero, decide_eq_true_iff]
    refine ⟨toDigits_num_ofRat htwo hradix x, hnegative, fun hsmall => ?_, fun hlarge hplaces =>
      layoutBy_ne_of_negative_precision htwo hradix hlarge hword hq rfl hplaces _⟩
    obtain ⟨s, hsignificand, hs⟩ := significand?_ofRat htwo hradix hp hq
    refine ⟨s, runs_of_keeps (by decide) fun keep hkeep => ?_,
      runs_of_keeps (by decide) fun keep _ => ?_⟩
    · rw [significandBy_integer hkeep hsmall htwo hq rfl hlength, hsignificand]
    · rw [layoutBy_floating hsmall]
      exact congrArg Except.ok (layout_rounded_integer htwo hradix hq rfl hlength hs _)
  case bits =>
    rw [toTextBy_eq hkeep hsmall hr htwo hradix, toTextBy_eq hkeep hsmall hr htwo hradix]

/-- `-1200` has exactly the four digits of the precision. -/
theorem text_of_four_digits :
    LowestTerms (ofRat (-1200 : Int)) ∧ (ofRat (-1200 : Int)).toRat = (-1200 : Int) ∧
      (digitsOf 10 1200).length ≤ 4 ∧ 4 < 2 ^ 64 ∧
      ∃ s, (ofRat (-1200 : Int)).significandBy (.checked 64) 10 4 = .ok (some s) ∧
        layoutBy (.checked 64) true s.digits s.exponent 10 .floating 4 =
          .ok ['-', '1', '2', '0', '0'] := by
  have hterms := lowestTerms_ofRat (-1200 : Int)
  have hvalue := toRat_ofRat (-1200 : Int)
  have hdigits : digitsOf 10 1200 = ['1', '2', '0', '0'] := by decide +kernel
  have hlength : (digitsOf 10 1200).length ≤ 4 := by simp [hdigits]
  obtain ⟨-, -, hsmall, -⟩ :=
    (integer_text_in_words hterms (by decide : 2 ≤ 10) (by decide) (by decide : 4 < 2 ^ 64)).1
      (-1200) hvalue (by decide) hlength
  obtain ⟨s, hsignificand, hlayout⟩ := hsmall (by decide)
  refine ⟨hterms, hvalue, hlength, by decide, s, hsignificand.1, ?_⟩
  exact hlayout.1.trans (congrArg (fun text => Except.ok ('-' :: text)) hdigits)

/--
With the largest precision one is written in full as its digit, and by way of its
rounded digits as zero.
-/
theorem text_of_one_depends_on_way :
    LowestTerms one ∧ one.toRat = (1 : Int) ∧ (digitsOf 10 1).length ≤ 2 ^ 64 - 1 ∧
      one.significandBy (.checked 64) 10 (2 ^ 64 - 1) = .ok (some ⟨['0'], 0⟩) ∧
      layoutBy (.checked 64) false ['0'] 0 10 .floating (2 ^ 64 - 1) = .ok ['0'] ∧
      signed false (digitsOf 10 1) = ['1'] := by
  have hdigits : digitsOf 10 1 = ['1'] := by decide +kernel
  refine ⟨lowestTerms_one, ?_, ?_, significandBy_one_largest.1, rfl, hdigits⟩
  · rw [← ofRat_one, toRat_ofRat, Int.cast_one]
  · rw [hdigits]
    decide

end Ratio
end DeskCalculator
