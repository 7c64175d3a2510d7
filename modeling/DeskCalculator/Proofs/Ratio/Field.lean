import DeskCalculator.Proofs.Ratio.Bounded
import DeskCalculator.Proofs.Ratio.Words

/-!
# The field of ratios, with exponents in words

The sum, difference, product and quotient of two pairs of scaled numbers are
those of the rational numbers that the pairs denote, and so is their order.  The
pairs may have common divisors, denominators of any sign and exponents below
zero; the results are in lowest terms.

The terms are added, multiplied and compared with exponents in words.  As long
as no check fails this changes nothing.  No check fails for pairs whose limbs do
not reach a quarter as far as a word.  Beyond, the sum of two exponents may wrap
around, and the value is lost.  Ratios in lowest terms are that large only with
terms of more than `2 ^ 33` bits.

Exact exponents are the case of words that are wide enough for the two pairs, so
that the exact operations need no proofs of their own.

**Results.**
* `mulBy_follows` and its likes for the other operations: checked words.
* `mulBy_of_within` and its likes: words that hold every exponent.
* `LowestTerms.fieldPasses`: ratios in lowest terms pass the checks.
* `field_operations_in_words`: the operations on any two pairs.
-/

namespace DeskCalculator
namespace Ratio

variable {a b : Ratio} {bits : Nat} {keep : WordRule}

/-! ### Checked words -/

section

variable (hkeep : keep.Keeps (FitsWord bits))

include hkeep

theorem crossAddBy_follows
    (a b : Ratio) :
    Follows (a.crossAddBy (.checked bits) b) (a.crossAddBy keep b) := by
  refine (ScaledNumber.mulBy_follows hkeep _ _).bind fun _ => ?_
  refine (ScaledNumber.mulBy_follows hkeep _ _).bind fun _ => ?_
  refine (ScaledNumber.addBy_follows hkeep _ _).bind fun _ => ?_
  exact (ScaledNumber.mulBy_follows hkeep _ _).bind fun _ => simplifyBy_follows hkeep _

theorem addBy_follows
    (a b : Ratio) :
    Follows (a.addBy (.checked bits) b) (a.addBy keep b) :=
  .ite ((ScaledNumber.addBy_follows hkeep _ _).bind fun _ => simplifyBy_follows hkeep _)
    (crossAddBy_follows hkeep a b)

theorem mulBy_follows
    (a b : Ratio) :
    Follows (a.mulBy (.checked bits) b) (a.mulBy keep b) := by
  refine (ScaledNumber.mulBy_follows hkeep _ _).bind fun _ => ?_
  exact (ScaledNumber.mulBy_follows hkeep _ _).bind fun _ => simplifyBy_follows hkeep _

theorem divBy_follows
    (a b : Ratio) :
    Follows (a.divBy (.checked bits) b) (a.divBy keep b) := by
  refine .ite (.refl _) ((ScaledNumber.mulBy_follows hkeep _ _).bind fun _ => ?_)
  exact (ScaledNumber.mulBy_follows hkeep _ _).bind fun _ => (simplifyBy_follows hkeep _).map _

theorem compareBy_follows
    (a b : Ratio) :
    Follows (a.compareBy (.checked bits) b) (a.compareBy keep b) := by
  refine (ScaledNumber.mulBy_follows hkeep _ _).bind fun _ => ?_
  exact (ScaledNumber.mulBy_follows hkeep _ _).bind fun _ =>
    ScaledNumber.compareBy_follows hkeep _ _

theorem sameBy_follows
    (a b : Ratio) :
    Follows (a.sameBy (.checked bits) b) (a.sameBy keep b) :=
  (compareBy_follows hkeep a b).bind fun _ => .refl _

end

/-- A quotient is refused if the divisor is zero, whatever becomes of the exponents. -/
theorem WellFormed.divBy_error_iff
    (hb : WellFormed b) (a : Ratio) (keep : WordRule) (e : CalcError) :
    a.divBy keep b = .ok (.error e) ↔ e = .divisionByZero ∧ b.toRat = 0 := by
  unfold divBy
  split
  · rename_i hzero
    simp [hb.isZero_iff.mp hzero, eq_comm]
  · rename_i hne
    refine iff_of_false ?_ fun h => hne (hb.isZero_iff.mpr h.2)
    cases a.num.mulBy keep b.den with
    | error fault => exact fun h => nomatch h
    | ok num =>
        cases a.den.mulBy keep b.num with
        | error fault => exact fun h => nomatch h
        | ok den =>
            show ¬(simplifyBy keep ⟨num, den⟩).map Except.ok = _
            cases simplifyBy keep ⟨num, den⟩ with
            | error fault => exact fun h => nomatch h
            | ok r => exact fun h => nomatch h

/-! ### Words that hold every exponent -/

/-- Both terms have limbs at the places from `-c` up to `c` only. -/
def Within (c : Nat) (r : Ratio) : Prop := r.num.Within c ∧ r.den.Within c

instance (c : Nat) (r : Ratio) : Decidable (r.Within c) :=
  inferInstanceAs (Decidable (_ ∧ _))

/-- Two ratios are within some bound, and some words are wide enough for it. -/
theorem exists_within
    (a b : Ratio) :
    ∃ c bits, a.Within c ∧ b.Within c ∧ 4 * c + 2 < 2 ^ (bits - 1) := by
  obtain ⟨c₁, h₁⟩ := a.num.exists_within
  obtain ⟨c₂, h₂⟩ := a.den.exists_within
  obtain ⟨c₃, h₃⟩ := b.num.exists_within
  obtain ⟨c₄, h₄⟩ := b.den.exists_within
  refine ⟨c₁ + c₂ + c₃ + c₄, 4 * (c₁ + c₂ + c₃ + c₄) + 2 + 1, ⟨?_, ?_⟩, ⟨?_, ?_⟩,
    Nat.lt_two_pow_self⟩
  · exact h₁.mono (by omega)
  · exact h₂.mono (by omega)
  · exact h₃.mono (by omega)
  · exact h₄.mono (by omega)

theorem Within.withPositiveDen
    {c : Nat} (ha : a.Within c) :
    a.withPositiveDen.Within c := by
  unfold Ratio.withPositiveDen
  split
  · exact ha
  · exact ha

section

variable {c : Nat} (hkeep : keep.Keeps (FitsWord bits)) (hc : 4 * c + 2 < 2 ^ (bits - 1))
  (ha : WellFormed a) (hb : WellFormed b) (hca : a.Within c) (hcb : b.Within c)

include hkeep hc ha hb hca hcb

theorem crossAddBy_of_within :
    a.crossAddBy keep b = .ok (ofRat (a.toRat + b.toRat)) := by
  obtain ⟨hterms, hvalue⟩ := ha.cross hb
  have hleft := hca.1.mul hcb.2
  have hright := hcb.1.mul hca.2
  have hden := hca.2.mul hcb.2
  have hcleft := ha.num.mul hb.den
  have hcright := hb.num.mul ha.den
  unfold crossAddBy
  simp only [hca.1.mulBy hkeep hcb.2 (by omega), hcb.1.mulBy hkeep hca.2 (by omega),
    hca.2.mulBy hkeep hcb.2 (by omega), hleft.addBy hkeep hright hcleft hcright (by omega),
    bind, Except.bind]
  rw [hterms.simplifyBy_of_within hkeep (hleft.add hright hcleft hcright)
    (hden.mono (Nat.le_succ _)) (by omega), hterms.simplify_eq, hvalue]

/-- Over one denominator the numerators are added, to the same result as across. -/
theorem addBy_of_within :
    a.addBy keep b = .ok (ofRat (a.toRat + b.toRat)) := by
  unfold addBy
  split
  · rename_i hden
    obtain ⟨hterms, hvalue⟩ := ha.over_den hb hden
    simp only [hca.1.addBy hkeep hcb.1 ha.num hb.num (by omega), bind, Except.bind]
    rw [hterms.simplifyBy_of_within hkeep (hca.1.add hcb.1 ha.num hb.num)
      (hca.2.mono (Nat.le_succ _)) (by omega), hterms.simplify_eq, hvalue]
  · exact crossAddBy_of_within hkeep hc ha hb hca hcb

theorem subBy_of_within :
    a.subBy keep b = .ok (ofRat (a.toRat - b.toRat)) := by
  have h := addBy_of_within hkeep hc ha hb.neg hca hcb
  rwa [toRat_neg, ← sub_eq_add_neg] at h

theorem mulBy_of_within :
    a.mulBy keep b = .ok (ofRat (a.toRat * b.toRat)) := by
  unfold mulBy
  simp only [hca.1.mulBy hkeep hcb.1 (by omega), hca.2.mulBy hkeep hcb.2 (by omega), bind,
    Except.bind]
  rw [(ha.product hb).simplifyBy_of_within hkeep (hca.1.mul hcb.1) (hca.2.mul hcb.2) (by omega),
    ← ha.mul_eq hb]
  rfl

theorem divBy_of_within
    (hne : b.toRat ≠ 0) :
    a.divBy keep b = .ok (.ok (ofRat (a.toRat / b.toRat))) := by
  have hzero := mt hb.isZero_iff.mp hne
  have hdiv := ha.div_eq hb
  rw [Ratio.div, if_neg hzero, if_neg hne] at hdiv
  unfold divBy
  rw [if_neg hzero]
  simp only [hca.1.mulBy hkeep hcb.2 (by omega), hca.2.mulBy hkeep hcb.1 (by omega), bind,
    Except.bind]
  rw [(ha.quotient hb hzero).simplifyBy_of_within hkeep (hca.1.mul hcb.2) (hca.2.mul hcb.1)
    (by omega), ← hdiv]
  rfl

theorem compareBy_of_within :
    a.compareBy keep b = .ok (cmp a.toRat b.toRat) := by
  have hpa := hca.withPositiveDen
  have hpb := hcb.withPositiveDen
  have hcross : a.compareBy keep b = .ok (a.compare b) := by
    unfold compareBy
    simp only [hpa.1.mulBy hkeep hpb.2 (by omega), hpb.1.mulBy hkeep hpa.2 (by omega), bind,
      Except.bind]
    rw [(hpa.1.mul hpb.2).compareBy hkeep (hpb.1.mul hpa.2) (by omega)]
    rfl
  rw [hcross, ha.compare_eq hb]

theorem sameBy_of_within :
    a.sameBy keep b = .ok (decide (a.toRat = b.toRat)) := by
  unfold sameBy
  rw [compareBy_of_within hkeep hc ha hb hca hcb]
  exact congrArg Except.ok (decide_eq_decide.mpr (cmp_eq_eq_iff _ _))

end

/-! ### The operations -/

/-- What the operations on two ratios give, with exponents in words of 32 bits. -/
structure FieldOperations (a b : Ratio) : Prop where
  /-- The sum, which adding across denominators gives as well. -/
  add : ∃ r, Denotes r (a.toRat + b.toRat) ∧
    Guarded 32 (fun keep => a.addBy keep b) r ∧ Guarded 32 (fun keep => a.crossAddBy keep b) r
  sub : ∃ r, Denotes r (a.toRat - b.toRat) ∧ Guarded 32 (fun keep => a.subBy keep b) r
  mul : ∃ r, Denotes r (a.toRat * b.toRat) ∧ Guarded 32 (fun keep => a.mulBy keep b) r
  div : b.toRat ≠ 0 →
    ∃ r, Denotes r (a.toRat / b.toRat) ∧ Guarded 32 (fun keep => a.divBy keep b) (.ok r)
  div_error : ∀ keep e, a.divBy keep b = .ok (.error e) ↔ e = .divisionByZero ∧ b.toRat = 0
  compare : Guarded 32 (fun keep => a.compareBy keep b) (cmp a.toRat b.toRat)
  same : Guarded 32 (fun keep => a.sameBy keep b) (decide (a.toRat = b.toRat))

/-- No check of the operations on two ratios fails. -/
structure FieldPasses (a b : Ratio) : Prop where
  add : a.addBy (.checked 32) b ≠ .error .overflow
  cross : a.crossAddBy (.checked 32) b ≠ .error .overflow
  sub : a.subBy (.checked 32) b ≠ .error .overflow
  mul : a.mulBy (.checked 32) b ≠ .error .overflow
  div : a.divBy (.checked 32) b ≠ .error .overflow
  compare : a.compareBy (.checked 32) b ≠ .error .overflow
  same : a.sameBy (.checked 32) b ≠ .error .overflow

theorem WellFormed.fieldOperations
    (ha : WellFormed a) (hb : WellFormed b) :
    FieldOperations a b := by
  -- in words wide enough for the two ratios nothing is lost, as with exact exponents
  obtain ⟨c, bits, hca, hcb, hc⟩ := exists_within a b
  have hexact := keeps_exact (FitsWord bits)
  constructor
  case add =>
    refine ⟨_, denotes_ofRat _, ?_, ?_⟩
    · exact guarded_of_follows (by decide) (fun _ hkeep => addBy_follows hkeep a b)
        (addBy_of_within hexact hc ha hb hca hcb)
    · exact guarded_of_follows (by decide) (fun _ hkeep => crossAddBy_follows hkeep a b)
        (crossAddBy_of_within hexact hc ha hb hca hcb)
  case sub =>
    exact ⟨_, denotes_ofRat _, guarded_of_follows (by decide)
      (fun _ hkeep => addBy_follows hkeep a b.neg) (subBy_of_within hexact hc ha hb hca hcb)⟩
  case mul =>
    exact ⟨_, denotes_ofRat _, guarded_of_follows (by decide)
      (fun _ hkeep => mulBy_follows hkeep a b) (mulBy_of_within hexact hc ha hb hca hcb)⟩
  case div =>
    exact fun hne => ⟨_, denotes_ofRat _, guarded_of_follows (by decide)
      (fun _ hkeep => divBy_follows hkeep a b) (divBy_of_within hexact hc ha hb hca hcb hne)⟩
  case div_error => exact hb.divBy_error_iff a
  case compare =>
    exact guarded_of_follows (by decide) (fun _ hkeep => compareBy_follows hkeep a b)
      (compareBy_of_within hexact hc ha hb hca hcb)
  case same =>
    exact guarded_of_follows (by decide) (fun _ hkeep => sameBy_follows hkeep a b)
      (sameBy_of_within hexact hc ha hb hca hcb)

/-- Pairs whose limbs do not reach a quarter as far as a word pass every check. -/
theorem WellFormed.fieldPasses
    (ha : WellFormed a) (hb : WellFormed b) (hca : a.Within (2 ^ 29 - 1))
    (hcb : b.Within (2 ^ 29 - 1)) :
    FieldPasses a b := by
  have hkeep := keeps_checked 32
  have hc : 4 * (2 ^ 29 - 1) + 2 < 2 ^ (32 - 1) := by decide
  constructor
  case add => exact ne_overflow_of_eq_ok (addBy_of_within hkeep hc ha hb hca hcb)
  case cross => exact ne_overflow_of_eq_ok (crossAddBy_of_within hkeep hc ha hb hca hcb)
  case sub => exact ne_overflow_of_eq_ok (subBy_of_within hkeep hc ha hb hca hcb)
  case mul => exact ne_overflow_of_eq_ok (mulBy_of_within hkeep hc ha hb hca hcb)
  case div =>
    by_cases hzero : b.toRat = 0
    · exact ne_overflow_of_eq_ok (if_pos (hb.isZero_iff.mpr hzero))
    · exact ne_overflow_of_eq_ok (divBy_of_within hkeep hc ha hb hca hcb hzero)
  case compare => exact ne_overflow_of_eq_ok (compareBy_of_within hkeep hc ha hb hca hcb)
  case same => exact ne_overflow_of_eq_ok (sameBy_of_within hkeep hc ha hb hca hcb)

theorem LowestTerms.within
    {c : Nat} (hr : LowestTerms a) (hbits : a.bitLength ≤ 32 * c) :
    a.Within c := by
  rw [(lowestTerms_iff a).mp hr] at hbits ⊢
  obtain ⟨hnum, hden⟩ := (bitLength_ofRat_le_iff _ _).mp hbits
  constructor
  · exact ScaledNumber.within_ofParts _ (by omega) (by rwa [Magnitude.toNat_ofNat]) (by omega)
  · exact ScaledNumber.within_ofParts _ (by omega) (by rwa [Magnitude.toNat_ofNat]) (by omega)

/-- The terms of ratios in lowest terms are integers; up to `2 ^ 33` bits no check fails. -/
theorem LowestTerms.fieldPasses
    (ha : LowestTerms a) (hb : LowestTerms b) (hbitsa : a.bitLength ≤ 2 ^ 33)
    (hbitsb : b.bitLength ≤ 2 ^ 33) :
    FieldPasses a b :=
  ha.wellFormed.fieldPasses hb.wellFormed (ha.within (hbitsa.trans (by decide)))
    (hb.within (hbitsb.trans (by decide)))

/--
The operations on well-formed ratios, with exponents in words: either a check
fails, or the checked run and the run that wraps around give the exact result in
lowest terms.  No check fails for ratios whose limbs do not reach a quarter as far
as a word.
-/
theorem field_operations_in_words
    (ha : WellFormed a) (hb : WellFormed b) :
    FieldOperations a b ∧ (a.Within (2 ^ 29 - 1) → b.Within (2 ^ 29 - 1) → FieldPasses a b) :=
  ⟨ha.fieldOperations hb, ha.fieldPasses hb⟩

/-- Terms with a common divisor, a denominator below zero, an exponent below zero. -/
theorem field_operations_unreduced :
    WellFormed ⟨⟨.positive, 0, [2]⟩, ⟨.negative, 0, [4]⟩⟩ ∧
      WellFormed ⟨⟨.positive, -1, [1]⟩, ⟨.positive, 0, [3]⟩⟩ ∧
      ∃ r, Denotes r (-1 / (6 * 2 ^ 32)) ∧
        mulBy (.wrapped 32) ⟨⟨.positive, 0, [2]⟩, ⟨.negative, 0, [4]⟩⟩
          ⟨⟨.positive, -1, [1]⟩, ⟨.positive, 0, [3]⟩⟩ = .ok r := by
  have ha : WellFormed ⟨⟨.positive, 0, [2]⟩, ⟨.negative, 0, [4]⟩⟩ :=
    .mk_of_limb (by decide) (by decide) (by decide) (by decide)
  have hb : WellFormed ⟨⟨.positive, -1, [1]⟩, ⟨.positive, 0, [3]⟩⟩ :=
    .mk_of_limb (by decide) (by decide) (by decide) (by decide)
  obtain ⟨hfield, hpasses⟩ := field_operations_in_words ha hb
  obtain ⟨r, hr, hruns⟩ := hfield.mul
  refine ⟨ha, hb, r, ?_, (hruns.runs (hpasses (by decide) (by decide)).mul).2⟩
  convert hr using 1
  simp [toRat, ScaledNumber.toRat, Sign.toInt, ScaledNumber.weight]
  norm_num

/--
The exponents of two numerators may add up to a number beyond their words.  The
product of one by one is one, but here the checked run stops, and the run that
wraps around divides by zero.
-/
theorem product_of_large_exponents_lost :
    WellFormed ⟨⟨.positive, 2 ^ 30, [1]⟩, ⟨.positive, 2 ^ 30, [1]⟩⟩ ∧
      toRat ⟨⟨.positive, 2 ^ 30, [1]⟩, ⟨.positive, 2 ^ 30, [1]⟩⟩ = 1 ∧
      mulBy (.checked 32) ⟨⟨.positive, 2 ^ 30, [1]⟩, ⟨.positive, 2 ^ 30, [1]⟩⟩
          ⟨⟨.positive, 2 ^ 30, [1]⟩, ⟨.positive, 2 ^ 30, [1]⟩⟩ =
        .error .overflow ∧
      mulBy (.wrapped 32) ⟨⟨.positive, 2 ^ 30, [1]⟩, ⟨.positive, 2 ^ 30, [1]⟩⟩
          ⟨⟨.positive, 2 ^ 30, [1]⟩, ⟨.positive, 2 ^ 30, [1]⟩⟩ =
        .error .zeroDivisor := by
  have hpair : WellFormed ⟨⟨.positive, 2 ^ 30, [1]⟩, ⟨.positive, 2 ^ 30, [1]⟩⟩ :=
    .mk_of_limb (by decide) (by decide) (by decide) (by decide)
  have hproduct : ScaledNumber.mulBy (.wrapped 32) ⟨.positive, 2 ^ 30, [1]⟩
      ⟨.positive, 2 ^ 30, [1]⟩ = .ok ⟨.positive, -2 ^ 31, [1]⟩ := by
    decide +kernel
  refine ⟨hpair, div_self hpair.den_toRat_ne, by decide +kernel, ?_⟩
  unfold mulBy
  simp only [hproduct, bind, Except.bind]
  exact simplifyBy_lowest_exponents

end Ratio
end DeskCalculator
