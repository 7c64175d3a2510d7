import DeskCalculator.Proofs.MachineWord
import DeskCalculator.Proofs.Numeral.Layout

/-!
# The styles of a number

In every style the text of a number denotes its digits with the first at its
place, in any radix.  The styles differ in the number of digits before the point
and in the exponent that is left to be written: none, that of the first digit,
or a multiple of three.

**Results.**
* `layoutParts_styled`: the digits before the point and the exponent are as the
  style demands.
* `getLast?_fraction_layoutParts`: no fraction ends in a zero.
* `layoutBy_runs`, `layoutBy_lowest`: the layouts with exponents in words.
* `layout_in_words`: what a text denotes, and what it looks like.
-/

namespace DeskCalculator
namespace Numeral

variable {radix : Nat} {digits : List Char} {e : Int}

/-! ### What the styles demand -/

/-- One digit before the point, not a zero, and the exponent of the first digit. -/
structure Parts.Normalized (e : Int) (p : Parts) : Prop where
  length_whole : p.whole.length = 1
  head_whole : p.whole.head? ≠ some '0'
  exponent_eq : p.exponent? = some e

/-- One to three digits before the point, the first not a zero, and a multiple of three. -/
structure Parts.Grouped (p : Parts) : Prop where
  one_le : 1 ≤ p.whole.length
  le_three : p.whole.length ≤ 3
  head_whole : p.whole.head? ≠ some '0'
  exponent_eq : ∃ k : Int, p.exponent? = some (3 * k)

/--
What a style demands of the parts of a number whose first digit stands at the
place `e`, where the floating style is positional below the place `limit`.
-/
def Parts.Styled (e limit : Int) (p : Parts) : NumberStyle → Prop
  | .floating =>
      (p.exponent? = none ↔ -5 ≤ e ∧ e < limit) ∧ (p.exponent? ≠ none → p.Normalized e)
  | .scientific => p.Normalized e
  | .engineering => p.Grouped

theorem styled_scientific
    {limit : Int} {p : Parts} :
    p.Styled e limit .scientific ↔ p.Normalized e :=
  .rfl

theorem styled_engineering
    {limit : Int} {p : Parts} :
    p.Styled e limit .engineering ↔ p.Grouped :=
  .rfl

/-! ### Digits around the point -/

/-- Digits are filled up as far as the point. -/
theorem length_whole_pointedParts
    (digits : List Char) (whole : Nat) (exponent? : Option Int) :
    (pointedParts digits whole exponent?).whole.length = whole := by
  simp only [pointedParts, List.length_append, List.length_take, List.length_replicate]
  omega

theorem head?_whole_pointedParts
    (hne : digits ≠ []) {whole : Nat} (hwhole : 0 < whole) (exponent? : Option Int) :
    (pointedParts digits whole exponent?).whole.head? = digits.head? := by
  obtain ⟨c, cs, rfl⟩ := List.exists_cons_of_ne_nil hne
  obtain ⟨n, rfl⟩ := Nat.exists_eq_succ_of_ne_zero hwhole.ne'
  rfl

/-- A fraction ends as the digits do. -/
theorem getLast?_fraction_pointedParts
    (hlast : digits.getLast? ≠ some '0') (whole : Nat) (exponent? : Option Int) :
    (pointedParts digits whole exponent?).fraction.getLast? ≠ some '0' := by
  rw [pointedParts, List.getLast?_drop]
  split
  · simp
  · exact hlast

theorem normalized_pointedParts
    (hne : digits ≠ []) (hhead : digits.head? ≠ some '0') (e : Int) :
    (pointedParts digits 1 (some e)).Normalized e where
  length_whole := length_whole_pointedParts _ _ _
  head_whole := head?_whole_pointedParts hne one_pos _ ▸ hhead
  exponent_eq := rfl

/-! ### Layouts in a style -/

section

variable (hne : digits ≠ []) (hhead : digits.head? ≠ some '0')

include hne hhead

/-- The parts of digits without zeros at their ends are as the style demands. -/
theorem bodyParts_styled
    (e : Int) (style : NumberStyle) (precision : Nat) :
    (bodyParts digits e style precision).Styled e precision style := by
  cases style with
  | floating =>
      have hplace : (e < precision ∧ lowestPositional ≤ e) ↔ -5 ≤ e ∧ e < precision := and_comm
      unfold bodyParts
      dsimp only
      split
      · rename_i hpositional
        have hnone : (positionalParts digits e).exponent? = none := by
          unfold positionalParts
          split <;> rfl
        exact ⟨iff_of_true hnone (hplace.mp hpositional), fun hsome => absurd hnone hsome⟩
      · rename_i hscientific
        exact ⟨iff_of_false (by simp [pointedParts]) (mt hplace.mpr hscientific),
          fun _ => normalized_pointedParts hne hhead e⟩
  | scientific => exact normalized_pointedParts hne hhead e
  | engineering =>
      have hrest : e - e / 3 * 3 = e % 3 := by omega
      have hwhole : 1 ≤ (e - e / 3 * 3 + 1).toNat ∧ (e - e / 3 * 3 + 1).toNat ≤ 3 := by omega
      exact {
        one_le := (length_whole_pointedParts _ _ _).symm ▸ hwhole.1
        le_three := (length_whole_pointedParts _ _ _).symm ▸ hwhole.2
        head_whole := head?_whole_pointedParts hne hwhole.1 _ ▸ hhead
        exponent_eq := ⟨e / 3, congrArg some (Int.mul_comm _ _)⟩ }

omit hhead in
/-- No fraction ends in a zero, if the digits do not. -/
theorem getLast?_fraction_bodyParts
    (hlast : digits.getLast? ≠ some '0') (e : Int) (style : NumberStyle) (precision : Nat) :
    (bodyParts digits e style precision).fraction.getLast? ≠ some '0' := by
  obtain ⟨whole, exponent?, -, -, -, hparts⟩ | ⟨-, hparts⟩ :=
    bodyParts_cases digits e style precision
  · rw [hparts]
    exact getLast?_fraction_pointedParts hlast _ _
  · rw [hparts]
    rwa [List.getLast?_append_of_ne_nil _ hne]

theorem head?_withoutTrailingZeros :
    (withoutTrailingZeros digits).head? = digits.head? := by
  obtain ⟨-, hkept, n, hn⟩ := withoutTrailingZeros_spec hne hhead
  conv_rhs => rw [hn, List.head?_append_of_ne_nil _ hkept]

theorem layoutParts_styled
    (e : Int) (style : NumberStyle) (precision : Nat) :
    (layoutParts digits e style precision).Styled e precision style :=
  bodyParts_styled (withoutTrailingZeros_eq hne hhead).2
    (head?_withoutTrailingZeros hne hhead ▸ hhead) e style precision

theorem getLast?_fraction_layoutParts
    (e : Int) (style : NumberStyle) (precision : Nat) :
    (layoutParts digits e style precision).fraction.getLast? ≠ some '0' :=
  getLast?_fraction_bodyParts (withoutTrailingZeros_eq hne hhead).2
    (getLast?_withoutTrailingZeros hne hhead) e style precision

/-- The text of a layout and the number that it is read as. -/
structure LaidOut (radix : Nat) (digits : List Char) (negative : Bool) (e : Int)
    (text : List Char) (p : Parts) : Prop where
  text_eq : text = if negative then '-' :: p.text radix else p.text radix
  /-- The text has no other parts. -/
  parts_eq : parts? radix text = some (negative, p)
  digital : p.Digital radix
  fraction : p.fraction.getLast? ≠ some '0'
  read_eq : read? radix text =
    some ((if negative then -1 else 1) *
      (natOf radix digits / (radix : ℚ) ^ (digits.length - 1) * (radix : ℚ) ^ e))

omit hne hhead in
/-- Parts for the digits at their places are read as such. -/
theorem laidOut_signed_text
    {p : Parts} (hradix : 0 < radix) (hdigital : p.Digital radix)
    (hfraction : p.fraction.getLast? ≠ some '0') (hne : digits ≠ [])
    (hvalue : p.value radix = natOf radix digits * (radix : ℚ) ^ (e + 1 - digits.length))
    (negative : Bool) :
    LaidOut radix digits negative e
      (if negative then '-' :: p.text radix else p.text radix) p := by
  refine ⟨rfl, parts?_signed_text hdigital negative, hdigital, hfraction, ?_⟩
  have hbase : (radix : ℚ) ≠ 0 := by exact_mod_cast hradix.ne'
  have hplaces : (radix : ℚ) ^ (e + 1 - digits.length) =
      (radix : ℚ) ^ e / (radix : ℚ) ^ (digits.length - 1) := by
    have hlength := List.length_pos_iff.mpr hne
    rw [← zpow_natCast, ← zpow_sub₀ hbase]
    congr 1
    omega
  rw [read?_signed_text hdigital, hvalue, hplaces]
  congr 2
  ring

/-- In every style the layout has the digits with the first at its place. -/
theorem laidOut_layout
    (hradix : 0 < radix) (hdigits : Readable radix digits) (negative : Bool) (e : Int)
    (style : NumberStyle) (precision : Nat) :
    LaidOut radix digits negative e (layout negative digits e radix style precision)
      (layoutParts digits e style precision) := by
  rw [layout_eq hne hhead]
  exact laidOut_signed_text hradix (layoutParts_digital hne hhead hradix hdigits e style precision)
    (getLast?_fraction_layoutParts hne hhead e style precision) hne
    (layoutParts_value hne hhead hradix e style precision) negative

/-! ### Exponents in words -/

/-- In words the floating style is positional below the precision as it is read. -/
def styleInWords (e : Int) (precision : Nat) : NumberStyle → NumberStyle
  | .floating => if -5 ≤ e ∧ e < signedWord 64 precision then .floating else .scientific
  | style => style

omit hne hhead in
/-- The exponents of all styles are words, but for multiples of three below the lowest word. -/
theorem bodyBy_eq
    {keep : WordRule} (hkeep : keep.Keeps (FitsWord 64)) {style : NumberStyle}
    (hword : style = .engineering → -2 ^ 63 + 2 ≤ e ∧ e < 2 ^ 63) (precision : Nat) :
    bodyBy keep digits e radix style precision =
      .ok (body digits e radix (styleInWords e precision style) precision) := by
  cases style with
  | floating =>
      have hread : signedWord 64 precision ≤ precision := signedWord_natCast_le 64 precision
      unfold bodyBy styleInWords
      dsimp only
      rw [show lowestPositional = -5 from rfl]
      by_cases hplace : e < signedWord 64 precision ∧ -5 ≤ e
      · rw [if_pos hplace, if_pos hplace.symm]
        exact congrArg Except.ok (if_pos ⟨by omega, hplace.2⟩).symm
      · rw [if_neg hplace, if_neg (mt And.symm hplace)]
        rfl
  | scientific => rfl
  | engineering =>
      obtain ⟨hlow, hhigh⟩ := hword rfl
      have hmultiple : FitsWord 64 (e / 3 * 3) := ⟨by omega, by omega⟩
      have hleft : FitsWord 64 (e - e / 3 * 3) := ⟨by omega, by omega⟩
      have hwhole : FitsWord 64 (e - e / 3 * 3 + 1) := ⟨by omega, by omega⟩
      unfold bodyBy
      simp only [hkeep _ hmultiple, hkeep _ hleft, hkeep _ hwhole, bind, Except.bind]
      rfl

/-- The layout is that of its body, with the sign in front. -/
theorem layoutBy_eq
    (keep : WordRule) (negative : Bool) (e : Int) (style : NumberStyle) (precision : Nat) :
    layoutBy keep negative digits e radix style precision =
      (bodyBy keep (withoutTrailingZeros digits) e radix style precision).map fun text =>
        if negative then '-' :: text else text := by
  unfold layoutBy
  dsimp only
  rw [if_neg (withoutTrailingZeros_spec hne hhead).1]
  cases bodyBy keep (withoutTrailingZeros digits) e radix style precision <;> rfl

theorem layoutBy_runs
    (negative : Bool) {style : NumberStyle}
    (hword : style = .engineering → -2 ^ 63 + 2 ≤ e ∧ e < 2 ^ 63) (precision : Nat) :
    Runs 64 (fun keep => layoutBy keep negative digits e radix style precision)
      (layout negative digits e radix (styleInWords e precision style) precision) := by
  refine runs_of_keeps (by decide) fun keep hkeep => ?_
  have hzero := (withoutTrailingZeros_spec hne hhead).1
  rw [layoutBy_eq hne hhead, bodyBy_eq hkeep hword]
  simp only [layout, if_neg hzero]
  rfl

/-- In words the parts are as the style demands, for the precision as it is read. -/
theorem layoutParts_styled_in_words
    (e : Int) (style : NumberStyle) (precision : Nat) :
    (layoutParts digits e (styleInWords e precision style) precision).Styled e
      (signedWord 64 precision) style := by
  cases style with
  | floating =>
      unfold styleInWords
      dsimp only
      split
      · rename_i hplace
        have hread : signedWord 64 precision ≤ precision := signedWord_natCast_le 64 precision
        obtain ⟨hnone, hnormalized⟩ := layoutParts_styled hne hhead e .floating precision
        have hpositional := hnone.mpr ⟨hplace.1, by omega⟩
        exact ⟨iff_of_true hpositional hplace, hnormalized⟩
      · rename_i hplace
        have hnormalized := styled_scientific.mp (layoutParts_styled hne hhead e .scientific precision)
        exact ⟨iff_of_false (by simp [hnormalized.exponent_eq]) hplace, fun _ => hnormalized⟩
  | scientific =>
      exact styled_scientific.mpr <|
        styled_scientific.mp (layoutParts_styled hne hhead e .scientific precision)
  | engineering =>
      exact styled_engineering.mpr <|
        styled_engineering.mp (layoutParts_styled hne hhead e .engineering precision)

/-- The two lowest words have no multiple of three below them that is a word. -/
theorem layoutBy_lowest
    (hradix : 0 < radix) (hdigits : Readable radix digits) (negative : Bool)
    (he : FitsWord 64 e) (hlow : e < -2 ^ 63 + 2) (precision : Nat) :
    layoutBy (.checked 64) negative digits e radix .engineering precision = .error .overflow ∧
      ∃ text p, layoutBy (.wrapped 64) negative digits e radix .engineering precision = .ok text ∧
        LaidOut radix digits negative (e + 2 ^ 64) text p ∧ p.exponent? = some (2 ^ 63 - 1) := by
  have hmultiple : e / 3 * 3 = -2 ^ 63 - 1 := by
    have := he.1
    omega
  have hkept : Readable radix (withoutTrailingZeros digits) := by
    obtain ⟨-, -, n, hn⟩ := withoutTrailingZeros_spec hne hhead
    rw [hn] at hdigits
    exact hdigits.of_append.1
  have hlast := getLast?_withoutTrailingZeros hne hhead
  have hvalue := natOf_withoutTrailingZeros hne hhead hradix (e + 2 ^ 64 + 1)
  rw [layoutBy_eq hne hhead, layoutBy_eq hne hhead]
  generalize withoutTrailingZeros digits = kept at *
  constructor
  · unfold bodyBy
    dsimp only
    rw [hmultiple, checked_eq_overflow (by decide)]
    rfl
  · have hbody : bodyBy (.wrapped 64) kept e radix .engineering precision =
        .ok (withExponent kept (e + 2 ^ 63 + 2).toNat radix (2 ^ 63 - 1)) := by
      unfold bodyBy WordRule.wrapped
      dsimp only
      rw [hmultiple]
      obtain rfl | rfl : e = -2 ^ 63 ∨ e = -2 ^ 63 + 1 := by
        have := he.1
        omega
      · rfl
      · rfl
    have htext : withExponent kept (e + 2 ^ 63 + 2).toNat radix (2 ^ 63 - 1) =
        (pointedParts kept (e + 2 ^ 63 + 2).toNat (some (2 ^ 63 - 1))).text radix := by
      simp [pointedParts_text, withExponent]
    have hwhole : 0 < (e + 2 ^ 63 + 2).toNat := by
      have := he.1
      omega
    rw [hbody, htext]
    refine ⟨_, _, rfl, laidOut_signed_text hradix ?digital ?fraction hne ?value negative, rfl⟩
    case digital => exact pointedParts_digital hradix hkept hwhole _
    case fraction => exact getLast?_fraction_pointedParts hlast _ _
    case value =>
      rw [pointedParts_value hradix, ← hvalue, Option.getD_some]
      congr 2
      have := he.1
      omega

/--
**In every style a number is laid out exactly, but for the two lowest exponents.**
Take digits of a radix that do not begin with a zero, the place of the first of
them, a word, and a sign.  The mark of an exponent is no digit of the radix.  In
each style the text is that of parts with digits only, one at least before the
point, and it has no other parts: they have no point without a fraction and no
fraction that ends in a zero, and their digits before the point and their exponent
are as the style demands, the precision being read as a word with a sign.  The
text is read as `± d₁.d₂d₃… * radix ^ e`.

In groups of three places the exponents below `-2 ^ 63 + 2` have no multiple of
three below them that is a word.  There a check fails, and in words that wrap
around the text is that of a number larger by `radix ^ 2 ^ 64`.
-/
theorem layout_in_words
    (hradix : 0 < radix) (hdigits : Readable radix digits) (negative : Bool)
    (he : FitsWord 64 e) (precision : Nat) :
    radixDigit? radix (exponentMark radix) = none ∧
      (precision < 2 ^ 63 → signedWord 64 precision = precision) ∧
      (∀ style, (style = .engineering → -2 ^ 63 + 2 ≤ e) → ∃ text p,
        Runs 64 (fun keep => layoutBy keep negative digits e radix style precision) text ∧
          LaidOut radix digits negative e text p ∧ p.Styled e (signedWord 64 precision) style) ∧
      (e < -2 ^ 63 + 2 →
        layoutBy (.checked 64) negative digits e radix .engineering precision =
            .error .overflow ∧
          ∃ text p,
            layoutBy (.wrapped 64) negative digits e radix .engineering precision = .ok text ∧
              LaidOut radix digits negative (e + 2 ^ 64) text p ∧
              p.exponent? = some (2 ^ 63 - 1)) := by
  refine ⟨(exponentMark_spec radix).2, ?_, fun style hlow => ?_, fun hlow => ?_⟩
  · intro hsmall
    exact signedWord_of_fits (by decide) ⟨by omega, by omega⟩
  · exact ⟨_, _, layoutBy_runs hne hhead negative (fun h => ⟨hlow h, he.2⟩) precision,
      laidOut_layout hne hhead hradix hdigits negative e _ precision,
      layoutParts_styled_in_words hne hhead e style precision⟩
  · exact layoutBy_lowest hne hhead hradix hdigits negative he hlow precision

end

/-- `1F0` with the first digit at the place `-5` is `1F ^ -6` in groups of three places:
the denominator is `16 ^ 6`. -/
theorem layout_of_hexadecimal_digits :
    ['1', 'F', '0'] ≠ [] ∧ ['1', 'F', '0'].head? ≠ some '0' ∧ 0 < 16 ∧
      Readable 16 ['1', 'F', '0'] ∧ FitsWord 64 (-5) ∧
      layoutBy (.wrapped 64) true ['1', 'F', '0'] (-5) 16 .engineering 32 =
        .ok ['-', '1', 'F', '^', '-', '6'] ∧
      read? 16 ['-', '1', 'F', '^', '-', '6'] = some (-31 / 16 ^ 6) := by
  have hne : ['1', 'F', '0'] ≠ [] := List.cons_ne_nil _ _
  have hhead : ['1', 'F', '0'].head? ≠ some '0' := by decide
  have hall : ['1', 'F', '0'].all (fun c => (radixDigit? 16 c).isSome) = true := by decide
  have hdigits : Readable 16 ['1', 'F', '0'] :=
    fun c hc => Option.isSome_iff_exists.mp (List.all_eq_true.mp hall c hc)
  have htext : layoutBy (.wrapped 64) true ['1', 'F', '0'] (-5) 16 .engineering 32 =
      .ok ['-', '1', 'F', '^', '-', '6'] := by decide +kernel
  have hnumber : natOf 16 ['1', 'F', '0'] = 496 := by decide
  obtain ⟨text, p, hruns, hlaid, -⟩ :=
    (layout_in_words hne hhead (by decide) hdigits true (e := -5) (by decide) 32).2.2.1
      .engineering (by decide)
  obtain rfl : text = ['-', '1', 'F', '^', '-', '6'] := Except.ok.inj (hruns.2.symm.trans htext)
  have hread := hlaid.read_eq
  rw [hnumber] at hread
  refine ⟨hne, hhead, by decide, hdigits, by decide, htext, hread.trans (congrArg some ?_)⟩
  norm_num

/--
A precision beyond the signed words is read as a number below zero, so that one is
not written positionally although its place is below the precision.  And a text in
groups of three places may have the largest exponent instead of one below the
lowest, which is no multiple of three.
-/
theorem layout_beyond_words :
    (-5 ≤ (0 : Int) ∧ (0 : Int) < (2 ^ 64 - 1 : Nat)) ∧
      layoutBy (.checked 64) false ['1'] 0 10 .floating (2 ^ 64 - 1) =
        .ok ['1', 'e', '+', '0'] ∧
      layoutBy (.wrapped 64) false ['1'] 0 10 .floating (2 ^ 64 - 1) =
        .ok ['1', 'e', '+', '0'] ∧
      layoutBy (.checked 64) false ['1'] (-2 ^ 63) 10 .engineering 10 = .error .overflow ∧
      layoutBy (.wrapped 64) false ['1'] (-2 ^ 63) 10 .engineering 10 =
        .ok "10e+9223372036854775807".toList := by
  refine ⟨by decide, by decide +kernel, by decide +kernel, by decide +kernel, by decide +kernel⟩

end Numeral
end DeskCalculator
