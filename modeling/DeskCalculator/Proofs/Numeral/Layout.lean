import DeskCalculator.Proofs.Numeral.Order
import DeskCalculator.Proofs.Numeral.Parts
import Mathlib.Data.Int.Log
import Mathlib.Data.List.TakeWhile

/-!
# What a laid out number stands for

A layout puts the significant digits around a point, fills up with zeros and
writes what is left of the exponent.  Whatever the style, the digits and the
place of the first of them stay the same.

**Results.**
* `bodyParts_cases`: the two forms of a layout, whatever the style.
* `bodyParts_value`: the parts of a layout have the value of the digits with
  the first at its place.
* `read?_layout`: so the text of the layout is read, in every style.
* `layout_congr`: digits for the same number have the same layouts, however many
  zeros they end in.
* `layout_whole`: digits that end at the point are written as they are.
-/

namespace DeskCalculator
namespace Numeral

/-! ### Zeros at the end -/

/-- Of digits that do not begin with zero something is left. -/
theorem withoutTrailingZeros_eq
    {digits : List Char} (hne : digits ≠ []) (hhead : digits.head? ≠ some '0') :
    withoutTrailingZeros digits = (digits.reverse.dropWhile (· = '0')).reverse ∧
      withoutTrailingZeros digits ≠ [] := by
  have hkept : (digits.reverse.dropWhile (· = '0')).reverse ≠ [] := by
    intro hnil
    have hall := List.dropWhile_eq_nil_iff.mp (List.reverse_eq_nil_iff.mp hnil)
    have hfirst := hall _ (List.mem_reverse.mpr (List.head_mem hne))
    exact hhead (by rw [List.head?_eq_some_head hne, of_decide_eq_true hfirst])
  have heq : withoutTrailingZeros digits = (digits.reverse.dropWhile (· = '0')).reverse := by
    unfold withoutTrailingZeros
    split
    · rename_i hnil
      exact absurd hnil hkept
    · rfl
  exact ⟨heq, heq ▸ hkept⟩

/-- Digits that do not begin with zero lose nothing but zeros at their end. -/
theorem withoutTrailingZeros_spec
    {digits : List Char} (hne : digits ≠ []) (hhead : digits.head? ≠ some '0') :
    withoutTrailingZeros digits ≠ ['0'] ∧ withoutTrailingZeros digits ≠ [] ∧
      ∃ n, digits = withoutTrailingZeros digits ++ List.replicate n '0' := by
  obtain ⟨heq, hkept⟩ := withoutTrailingZeros_eq hne hhead
  have hsplit := List.takeWhile_append_dropWhile (p := (· = '0')) (l := digits.reverse)
  have hzeros : digits.reverse.takeWhile (· = '0') =
      List.replicate (digits.reverse.takeWhile (· = '0')).length '0' := by
    refine List.eq_replicate_of_mem fun c hc => ?_
    simpa using List.mem_takeWhile_imp hc
  have hdigits : digits = withoutTrailingZeros digits ++
      List.replicate (digits.reverse.takeWhile (· = '0')).length '0' := by
    rw [heq, ← List.reverse_replicate, ← hzeros, ← List.reverse_append, hsplit,
      List.reverse_reverse]
  refine ⟨?_, hkept, _, hdigits⟩
  intro hzero
  rw [hdigits, hzero] at hhead
  exact hhead rfl

/-- All zeros at the end are taken off. -/
theorem getLast?_withoutTrailingZeros
    {digits : List Char} (hne : digits ≠ []) (hhead : digits.head? ≠ some '0') :
    (withoutTrailingZeros digits).getLast? ≠ some '0' := by
  rw [(withoutTrailingZeros_eq hne hhead).1, List.getLast?_reverse]
  exact head?_dropWhile_zero_ne digits.reverse

/-- More zeros at the end do not matter. -/
theorem withoutTrailingZeros_append_zeros
    (digits : List Char) (n : Nat) :
    withoutTrailingZeros (digits ++ List.replicate n '0') = withoutTrailingZeros digits := by
  have hzeros : ∀ c ∈ List.replicate n '0', decide (c = '0') = true := by
    intro c hc
    exact decide_eq_true (List.eq_of_mem_replicate hc)
  rw [withoutTrailingZeros, List.reverse_append, List.reverse_replicate,
    List.dropWhile_append_of_pos hzeros, ← withoutTrailingZeros]

/-! ### The parts of a layout -/

/-- The parts of digits with `whole` of them before the point. -/
def pointedParts (digits : List Char) (whole : Nat) (exponent? : Option Int) : Parts where
  whole := digits.take whole ++ List.replicate (whole - (digits.take whole).length) '0'
  fraction := digits.drop whole
  exponent? := exponent?

/-- The parts of digits at their places. -/
def positionalParts (digits : List Char) (e : Int) : Parts :=
  if 0 ≤ e then pointedParts digits (e.toNat + 1) none
  else { whole := ['0'], fraction := List.replicate (-e - 1).toNat '0' ++ digits }

/-- The parts of a layout without its sign. -/
def bodyParts (digits : List Char) (e : Int) (style : NumberStyle) (precision : Nat) : Parts :=
  match style with
  | .floating =>
      if e < precision ∧ lowestPositional ≤ e then positionalParts digits e
      else pointedParts digits 1 (some e)
  | .scientific => pointedParts digits 1 (some e)
  | .engineering => pointedParts digits (e - e / 3 * 3 + 1).toNat (some (e / 3 * 3))

variable {radix : Nat} {digits : List Char}

theorem pointedParts_text
    (radix : Nat) (digits : List Char) (whole : Nat) (exponent? : Option Int) :
    (pointedParts digits whole exponent?).text radix =
      pointed digits whole ++ (exponent?.map (exponentSuffix radix)).getD [] := by
  unfold Parts.text Parts.mantissa pointedParts pointed
  dsimp only
  split <;> simp

/-- The layout is the text of its parts. -/
theorem body_eq
    (hne : digits ≠ []) (e : Int) (style : NumberStyle) (precision : Nat) :
    body digits e radix style precision = (bodyParts digits e style precision).text radix := by
  have hpositional : positional digits e = (positionalParts digits e).text radix := by
    unfold positional positionalParts
    split
    · simp [pointedParts_text]
    · simp [Parts.text, Parts.mantissa, hne]
  have hexponent : ∀ whole e, withExponent digits whole radix e =
      (pointedParts digits whole (some e)).text radix := by
    intro whole e
    simp [pointedParts_text, withExponent]
  unfold body bodyParts
  cases style with
  | floating =>
      dsimp only
      split
      · exact hpositional
      · exact hexponent 1 e
  | scientific => exact hexponent 1 e
  | engineering => exact hexponent _ _

/-- Digits around the point, with zeros as far as the point. -/
theorem pointedParts_digital
    (hpos : 0 < radix) (hdigits : Readable radix digits) {whole : Nat} (hwhole : 0 < whole)
    (exponent? : Option Int) :
    (pointedParts digits whole exponent?).Digital radix where
  whole_ne_nil := by
    intro hnil
    have hlen := congrArg List.length hnil
    simp only [pointedParts, List.length_append, List.length_replicate, List.length_take,
      List.length_nil] at hlen
    omega
  digits := ((hdigits.take whole).append (.replicate_zero hpos _)).append (hdigits.drop whole)

/-- The value of digits with `whole` of them before the point. -/
theorem pointedParts_value
    (hpos : 0 < radix) (digits : List Char) (whole : Nat) (exponent? : Option Int) :
    (pointedParts digits whole exponent?).value radix =
      natOf radix digits * (radix : ℚ) ^ (exponent?.getD 0 + whole - digits.length) := by
  have hradix : (radix : ℚ) ≠ 0 := by exact_mod_cast hpos.ne'
  unfold Parts.value pointedParts
  dsimp only
  rcases le_or_gt digits.length whole with hle | hlt
  · -- all digits stand before the point
    rw [List.drop_eq_nil_of_le hle, List.take_of_length_le hle, List.append_nil,
      natOf_append_zeros]
    push_cast
    rw [mul_assoc, ← zpow_natCast, ← zpow_add₀ hradix]
    congr 2
    simp only [List.length_nil]
    omega
  · have hfull : whole - (digits.take whole).length = 0 := by
      rw [List.length_take]
      omega
    rw [hfull, List.replicate_zero, List.append_nil, List.take_append_drop, List.length_drop]
    congr 2
    omega

/--
A layout writes its digits around a point, and the exponent makes up for the
place of the point, or it writes them after the point and the zeros in front.
-/
theorem bodyParts_cases
    (digits : List Char) (e : Int) (style : NumberStyle) (precision : Nat) :
    (∃ (whole : Nat) (exponent? : Option Int), 0 < whole ∧
        exponent?.getD 0 + whole = e + 1 ∧ (∀ x ∈ exponent?, x.natAbs ≤ e.natAbs + 2) ∧
        bodyParts digits e style precision = pointedParts digits whole exponent?) ∨
      (e < 0 ∧ bodyParts digits e style precision =
        { whole := ['0'], fraction := List.replicate (-e - 1).toNat '0' ++ digits }) := by
  have hscientific : (some e).getD 0 + (1 : Nat) = e + 1 ∧
      ∀ x ∈ some e, x.natAbs ≤ e.natAbs + 2 := by simp
  unfold bodyParts
  cases style with
  | floating =>
      dsimp only
      split
      · unfold positionalParts
        split
        · refine .inl ⟨e.toNat + 1, none, by omega, ?_, by simp, rfl⟩
          simp only [Option.getD_none]
          omega
        · exact .inr ⟨by omega, rfl⟩
      · exact .inl ⟨1, some e, by omega, hscientific.1, hscientific.2, rfl⟩
  | scientific => exact .inl ⟨1, some e, by omega, hscientific.1, hscientific.2, rfl⟩
  | engineering =>
      refine .inl ⟨_, _, by omega, ?place, ?size, rfl⟩
      case place =>
        simp only [Option.getD_some]
        omega
      case size =>
        rintro x ⟨⟩
        omega

theorem bodyParts_digital
    (hpos : 0 < radix) (hdigits : Readable radix digits) (e : Int) (style : NumberStyle)
    (precision : Nat) :
    (bodyParts digits e style precision).Digital radix := by
  obtain ⟨whole, exponent?, hwhole, -, -, hparts⟩ | ⟨-, hparts⟩ :=
    bodyParts_cases digits e style precision
  · rw [hparts]
    exact pointedParts_digital hpos hdigits hwhole _
  · rw [hparts]
    exact ⟨List.cons_ne_nil _ _, (Readable.replicate_zero hpos 1).append
      ((Readable.replicate_zero hpos _).append hdigits)⟩

/-- The first of the digits stands at the place `e`, whatever the style. -/
theorem bodyParts_value
    (hpos : 0 < radix) (digits : List Char) (e : Int) (style : NumberStyle) (precision : Nat) :
    (bodyParts digits e style precision).value radix =
      natOf radix digits * (radix : ℚ) ^ (e + 1 - digits.length) := by
  obtain ⟨whole, exponent?, -, hplace, -, hparts⟩ | ⟨he, hparts⟩ :=
    bodyParts_cases digits e style precision
  · rw [hparts, pointedParts_value hpos, hplace]
  · have hzeros : natOf radix (['0'] ++ (List.replicate (-e - 1).toNat '0' ++ digits)) =
        natOf radix digits := by
      rw [← List.append_assoc, ← List.replicate_one, ← List.replicate_add, natOf_zeros_append]
    rw [hparts, Parts.value, hzeros]
    congr 2
    simp only [Option.getD_none, List.length_append, List.length_replicate]
    omega

/-- The numbers in the text are little larger than the place and the number of digits. -/
theorem bodyParts_limits
    (digits : List Char) (e : Int) (style : NumberStyle) (precision : Nat) :
    (∀ x ∈ (bodyParts digits e style precision).exponent?, x.natAbs ≤ e.natAbs + 2) ∧
      ((bodyParts digits e style precision).exponent?.getD 0 -
          (bodyParts digits e style precision).fraction.length).natAbs ≤
        e.natAbs + digits.length + 2 := by
  obtain ⟨whole, exponent?, -, -, hexponent, hparts⟩ | ⟨he, hparts⟩ :=
    bodyParts_cases digits e style precision
  · rw [hparts]
    refine ⟨hexponent, ?_⟩
    simp only [pointedParts, List.length_drop]
    cases exponent? with
    | none =>
        simp only [Option.getD_none]
        omega
    | some x =>
        have hx := hexponent x rfl
        simp only [Option.getD_some]
        omega
  · rw [hparts]
    refine ⟨by simp, ?_⟩
    simp only [Option.getD_none, List.length_append, List.length_replicate]
    omega

/-! ### Layouts -/

/-- The parts of a whole layout, its zeros at the end left out. -/
def layoutParts (digits : List Char) (e : Int) (style : NumberStyle) (precision : Nat) : Parts :=
  bodyParts (withoutTrailingZeros digits) e style precision

section

variable (hne : digits ≠ []) (hhead : digits.head? ≠ some '0')

include hne hhead

theorem layout_eq
    (negative : Bool) (e : Int) (style : NumberStyle) (precision : Nat) :
    layout negative digits e radix style precision =
      if negative then '-' :: (layoutParts digits e style precision).text radix
      else (layoutParts digits e style precision).text radix := by
  obtain ⟨hzero, hkept, -⟩ := withoutTrailingZeros_spec hne hhead
  simp only [layout, if_neg hzero, body_eq hkept, layoutParts]

theorem layoutParts_digital
    (hpos : 0 < radix) (hdigits : Readable radix digits) (e : Int) (style : NumberStyle)
    (precision : Nat) :
    (layoutParts digits e style precision).Digital radix := by
  obtain ⟨-, -, n, hn⟩ := withoutTrailingZeros_spec hne hhead
  rw [hn] at hdigits
  exact bodyParts_digital hpos hdigits.of_append.1 e style precision

/-- Zeros at the end are places of the last digit that is left. -/
theorem natOf_withoutTrailingZeros
    (hpos : 0 < radix) (k : Int) :
    (natOf radix (withoutTrailingZeros digits) : ℚ) *
        (radix : ℚ) ^ (k - (withoutTrailingZeros digits).length) =
      natOf radix digits * (radix : ℚ) ^ (k - digits.length) := by
  have hradix : (radix : ℚ) ≠ 0 := by exact_mod_cast hpos.ne'
  obtain ⟨-, -, n, hn⟩ := withoutTrailingZeros_spec hne hhead
  have hlen := congrArg List.length hn
  rw [List.length_append, List.length_replicate] at hlen
  have hvalue := congrArg (natOf radix) hn
  rw [natOf_append_zeros] at hvalue
  rw [hvalue]
  push_cast
  rw [mul_assoc, ← zpow_natCast, ← zpow_add₀ hradix]
  congr 2
  omega

theorem layoutParts_value
    (hpos : 0 < radix) (e : Int) (style : NumberStyle) (precision : Nat) :
    (layoutParts digits e style precision).value radix =
      natOf radix digits * (radix : ℚ) ^ (e + 1 - digits.length) := by
  rw [layoutParts, bodyParts_value hpos, natOf_withoutTrailingZeros hne hhead hpos]

theorem layoutParts_limits
    (e : Int) (style : NumberStyle) (precision : Nat) :
    (∀ x ∈ (layoutParts digits e style precision).exponent?, x.natAbs ≤ e.natAbs + 2) ∧
      ((layoutParts digits e style precision).exponent?.getD 0 -
          (layoutParts digits e style precision).fraction.length).natAbs ≤
        e.natAbs + digits.length + 2 := by
  obtain ⟨-, -, n, hn⟩ := withoutTrailingZeros_spec hne hhead
  have hlen := congrArg List.length hn
  rw [List.length_append] at hlen
  obtain ⟨hexponent, hscale⟩ := bodyParts_limits (withoutTrailingZeros digits) e style precision
  exact ⟨hexponent, hscale.trans (by omega)⟩

/-- In every style a layout is read as its digits with the first at its place. -/
theorem read?_layout
    (hpos : 0 < radix) (hdigits : Readable radix digits) (negative : Bool)
    (e : Int) (style : NumberStyle) (precision : Nat) :
    read? radix (layout negative digits e radix style precision) =
      some ((if negative then -1 else 1) *
        (natOf radix digits * (radix : ℚ) ^ (e + 1 - digits.length))) := by
  rw [layout_eq hne hhead,
    read?_signed_text (layoutParts_digital hne hhead hpos hdigits e style precision),
    layoutParts_value hne hhead hpos]

end

/-! ### Digits for the same number -/

/-- The number of digits with the first at the place `e`. -/
def placed (radix : Nat) (digits : List Char) (e : Int) : ℚ :=
  natOf radix digits * (radix : ℚ) ^ (e + 1 - digits.length)

section

variable {cs ds : List Char} {e f : Int} (htwo : 2 ≤ radix) (hradix : radix ≤ 16)
  (hcs : DigitsOf radix cs) (hds : DigitsOf radix ds)

include htwo hradix hcs

/-- The first digit, if it is not a zero, stands at the first place of the number. -/
theorem log_placed
    (hne : cs ≠ []) (hhead : cs.head? ≠ some '0') (e : Int) :
    Int.log radix (placed radix cs e) = e := by
  have hbase : (0 : ℚ) < radix := by exact_mod_cast (by omega : 0 < radix)
  have hhigh : (natOf radix cs : ℚ) < (radix : ℚ) ^ (cs.length : Int) := by
    exact_mod_cast hcs.natOf_lt_pow hradix
  have hlow : (radix : ℚ) ^ (cs.length - 1 : Int) ≤ natOf radix cs := by
    obtain ⟨c, cs, rfl⟩ := List.exists_cons_of_ne_nil hne
    have hle := hcs.pow_le_natOf_cons hradix (by simpa using hhead)
    rw [List.length_cons, Nat.cast_succ, add_sub_cancel_right, zpow_natCast]
    exact_mod_cast hle
  have hpos : (0 : ℚ) < placed radix cs e :=
    mul_pos ((zpow_pos hbase _).trans_le hlow) (zpow_pos hbase _)
  have hscale : ∀ k : Int, (radix : ℚ) ^ k * (radix : ℚ) ^ (e + 1 - cs.length) =
      (radix : ℚ) ^ (e + (k - cs.length + 1)) := by
    intro k
    rw [← zpow_add₀ hbase.ne']
    congr 1
    ring
  apply le_antisymm
  · rw [← Int.lt_add_one_iff, ← Int.lt_zpow_iff_log_lt htwo hpos]
    calc
      placed radix cs e < (radix : ℚ) ^ (cs.length : Int) * (radix : ℚ) ^ (e + 1 - cs.length) :=
        mul_lt_mul_of_pos_right hhigh (zpow_pos hbase _)
      _ = (radix : ℚ) ^ (e + 1) := by rw [hscale, sub_self, zero_add]
  · rw [← Int.zpow_le_iff_le_log htwo hpos]
    calc
      (radix : ℚ) ^ e =
          (radix : ℚ) ^ (cs.length - 1 : Int) * (radix : ℚ) ^ (e + 1 - cs.length) := by
        rw [hscale, sub_sub_cancel_left, neg_add_cancel, add_zero]
      _ ≤ placed radix cs e := mul_le_mul_of_nonneg_right hlow (zpow_pos hbase _).le

include hds

/-- Of two strings of digits for one number, the longer one has zeros more. -/
theorem eq_append_zeros
    (hle : cs.length ≤ ds.length) (heq : placed radix cs e = placed radix ds e) :
    ds = cs ++ List.replicate (ds.length - cs.length) '0' := by
  have hbase : (radix : ℚ) ≠ 0 := by exact_mod_cast (by omega : radix ≠ 0)
  have hvalue : natOf radix ds = natOf radix cs * radix ^ (ds.length - cs.length) := by
    have hscaled : (natOf radix ds : ℚ) * (radix : ℚ) ^ (e + 1 - ds.length) =
        (natOf radix cs * radix ^ (ds.length - cs.length)) *
          (radix : ℚ) ^ (e + 1 - ds.length) := by
      rw [← placed, ← heq, placed, mul_assoc, ← zpow_natCast, ← zpow_add₀ hbase]
      congr 2
      omega
    exact_mod_cast mul_right_cancel₀ (zpow_ne_zero _ hbase) hscaled
  refine hds.eq_of_natOf_eq hradix (hcs.append (.replicate_zero (by omega) _)) ?length ?number
  case length => rw [List.length_append, List.length_replicate, Nat.add_sub_cancel' hle]
  case number => rw [natOf_append_zeros, hvalue]

/-- Digits for the same number have the same layouts, however many zeros they end in. -/
theorem layout_congr
    (hcsNe : cs ≠ []) (hdsNe : ds ≠ []) (hcsHead : cs.head? ≠ some '0')
    (hdsHead : ds.head? ≠ some '0') (heq : placed radix cs e = placed radix ds f)
    (negative : Bool) (style : NumberStyle) (precision : Nat) :
    layout negative cs e radix style precision = layout negative ds f radix style precision := by
  have hplace : e = f := by
    rw [← log_placed htwo hradix hcs hcsNe hcsHead e, heq,
      log_placed htwo hradix hds hdsNe hdsHead f]
  subst hplace
  have hkept : withoutTrailingZeros cs = withoutTrailingZeros ds := by
    rcases le_total cs.length ds.length with hle | hle
    · rw [eq_append_zeros htwo hradix hcs hds hle heq, withoutTrailingZeros_append_zeros]
    · rw [eq_append_zeros htwo hradix hds hcs hle heq.symm, withoutTrailingZeros_append_zeros]
  simp only [layout, hkept]

end

/-- Digits that end at the point are written as they are, if the precision admits them. -/
theorem layout_whole
    (hne : digits ≠ []) (hhead : digits.head? ≠ some '0') {precision : Nat}
    (hle : digits.length ≤ precision) (negative : Bool) :
    layout negative digits (digits.length - 1) radix .floating precision =
      if negative then '-' :: digits else digits := by
  obtain ⟨hzero, hkept, n, hn⟩ := withoutTrailingZeros_spec hne hhead
  have hpos := List.length_pos_iff.mpr hne
  have hlength : digits.length = (withoutTrailingZeros digits).length + n := by
    conv_lhs => rw [hn]
    rw [List.length_append, List.length_replicate]
  -- the zeros that were taken off come back as filling
  have hpointed : pointed (withoutTrailingZeros digits) digits.length = digits := by
    have htake : (withoutTrailingZeros digits).take digits.length = withoutTrailingZeros digits :=
      List.take_of_length_le (by omega)
    have hdrop : (withoutTrailingZeros digits).drop digits.length = [] :=
      List.drop_eq_nil_of_le (by omega)
    have hfill : digits.length - (withoutTrailingZeros digits).length = n := by omega
    simp only [pointed, htake, hdrop, hfill, if_true]
    exact hn.symm
  have hpositional :
      ((digits.length : Int) - 1 < precision) ∧ lowestPositional ≤ (digits.length : Int) - 1 := by
    unfold lowestPositional
    omega
  have hplaces : ((digits.length : Int) - 1).toNat + 1 = digits.length := by omega
  have hbody :
      body (withoutTrailingZeros digits) (digits.length - 1) radix .floating precision = digits := by
    rw [body, if_pos hpositional, positional, if_pos (by omega), hplaces, hpointed]
  simp only [layout, if_neg hzero, hbody]

end Numeral
end DeskCalculator
