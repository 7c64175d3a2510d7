import DeskCalculator.Proofs.Checked.Ratio
import DeskCalculator.Proofs.Loop
import DeskCalculator.Proofs.Ratio.Bounded

/-!
# Lowest terms as a normal form

Pairs of scaled numbers stand for the same rational number in many ways: with
common divisors, with both signs turned round, with exponents moved from one
term to the other.  Simplification gives all of them the one pair in lowest
terms, so that it decides equality of values and changes nothing the second time.

It rests on the greatest common divisor of the two integers, which successive
remainders find after finitely many divisions, none of them by zero.

**Results.**
* `loopEnds_gcd`: the successive remainders end, at the greatest common divisor.
* `WellFormed.simplify_eq_iff`: pairs of one value simplify to one pair.
* `simplify_unique_normal_form`: what simplification gives, of any pair.
-/

namespace DeskCalculator

/-! ### Successive remainders -/

namespace Magnitude

variable {a b : Magnitude}

/-- The divisor becomes the dividend, and the remainder the divisor. -/
def remainderStep (s : Magnitude × Magnitude) : Magnitude × Magnitude :=
  (s.2, (s.1.divMod s.2).2)

/-- A remainder is below its divisor, so that the divisors fall until there is none left. -/
theorem loopEnds_gcd
    (ha : Normalized a) (hb : Normalized b) :
    LoopEnds (fun s : Magnitude × Magnitude => s.2 ≠ []) remainderStep (a, b) (gcd a b, []) := by
  induction a, b using gcd.induct with
  | case1 a =>
      rw [gcd, if_pos rfl]
      exact .stop (not_not.mpr rfl)
  | case2 a b hne r hlt ih =>
      have hrest : compare (divMod a b).2 b = .lt := hlt
      rw [gcd, if_neg hne]
      simp only [dif_pos hrest]
      exact .step hne (ih hb (normalized_divMod_snd ha hb))
  | case3 a b hne r hlt =>
      -- the remainder always compares below its divisor
      have hr := normalized_divMod_snd ha hb
      refine absurd ((hr.compare_eq_lt hb).mpr ?_) hlt
      rw [toNat_divMod_snd ha hb]
      exact Nat.mod_lt _ (hb.toNat_pos hne)

/-- The greatest common divisor of two magnitudes is found, by divisions that are defined. -/
structure DivisorFound (a b : Magnitude) : Prop where
  ends :
    LoopEnds (fun s : Magnitude × Magnitude => s.2 ≠ []) remainderStep (a, b) (gcd a b, [])
  checked : checkedGcd a b = some (gcd a b)
  normalized : Normalized (gcd a b)
  toNat_eq : toNat (gcd a b) = Nat.gcd (toNat a) (toNat b)

theorem divisorFound
    (ha : Normalized a) (hb : Normalized b) :
    DivisorFound a b := by
  constructor
  case ends => exact loopEnds_gcd ha hb
  case checked => exact checkedGcd_eq ha hb
  case normalized => exact normalized_gcd ha hb
  case toNat_eq => exact toNat_gcd ha hb

end Magnitude

/-! ### One pair for each value -/

namespace Ratio

variable {r s : Ratio}

theorem WellFormed.toRat_simplify
    (hr : WellFormed r) :
    r.simplify.toRat = r.toRat := by
  rw [hr.simplify_eq, toRat_ofRat]

theorem WellFormed.lowestTerms_simplify
    (hr : WellFormed r) :
    LowestTerms r.simplify := by
  rw [hr.simplify_eq]
  exact lowestTerms_ofRat _

/-- Pairs of one value, and only these, simplify to one pair. -/
theorem WellFormed.simplify_eq_iff
    (hr : WellFormed r) (hs : WellFormed s) :
    s.simplify = r.simplify ↔ s.toRat = r.toRat := by
  constructor
  · intro h
    rw [← hs.toRat_simplify, h, hr.toRat_simplify]
  · intro h
    rw [hs.simplify_eq, hr.simplify_eq, h]

/-- A ratio in lowest terms is left as it is. -/
theorem LowestTerms.simplify_eq
    (hr : LowestTerms r) :
    r.simplify = r := by
  rw [hr.wellFormed.simplify_eq, ← (lowestTerms_iff r).mp hr]

/-- With exponents in words, lowest terms have no others. -/
theorem WellFormed.simplifyBy_simplify
    {keep : WordRule} (hr : WellFormed r) (hkeep : keep.Keeps (FitsWord 32))
    (hin : r.num ≠ .zero → r.ExponentsIn (FitsWord 32)) :
    r.simplify.simplifyBy keep = .ok r.simplify := by
  have hterms := hr.lowestTerms_simplify
  have hnum := of_decide_eq_true hterms.num_integer
  have hden := of_decide_eq_true hterms.den_integer
  have hsame := simplifyBy_eq hkeep (fun _ _ => fitsWord_down) hterms.wellFormed fun hne => by
    have hrne : r.num ≠ .zero := by
      intro hzero
      rw [simplify, if_pos (hr.num.isZero_eq.mpr hzero)] at hne
      exact hne rfl
    obtain ⟨hnumLe, hdenLe⟩ := hr.exponent_simplify_le hrne
    obtain ⟨-, hnumHigh⟩ := fitsWord_down hnum hnumLe (hin hrne).num
    obtain ⟨-, hdenHigh⟩ := fitsWord_down hden hdenLe (hin hrne).den
    constructor <;> simp only [FitsWord, exponentShift] at * <;> omega
  rwa [hterms.simplify_eq] at hsame

/-- What simplification with exponents in words of 32 bits makes of a pair. -/
structure NormalForm (r : Ratio) : Prop where
  /-- A check fails for the pairs whose exponents leave their words. -/
  stops_iff : r.simplifyBy (.checked 32) = .error .overflow ↔ r.ExponentsLeave
  /-- All others are simplified, so that nothing is divided by zero. -/
  runs : ¬r.ExponentsLeave → Runs 32 (fun keep => r.simplifyBy keep) r.simplify
  checked : r.checkedSimplify = some r.simplify
  toRat_eq : r.simplify.toRat = r.toRat
  lowestTerms : LowestTerms r.simplify
  zero : r.toRat = 0 → r.simplify = ⟨.zero, .one⟩
  unique : ∀ s, WellFormed s → (s.simplify = r.simplify ↔ s.toRat = r.toRat)
  idempotent : ¬r.ExponentsLeave → Runs 32 (fun keep => r.simplify.simplifyBy keep) r.simplify

/--
Simplification of a pair with exponents in words.  Unless the exponents leave
their words while they are raised, it divides by no zero, keeps the value and
gives lowest terms; it gives one pair for each value and leaves that pair alone.
The greatest common divisor that it divides by is found for any two magnitudes.
-/
theorem simplify_unique_normal_form
    (hr : WellFormed r) (hn : FitsWord 32 r.num.exponent) (hd : FitsWord 32 r.den.exponent) :
    NormalForm r ∧
      ∀ a b : Magnitude, a.Normalized → b.Normalized → Magnitude.DivisorFound a b := by
  have hin : ¬r.ExponentsLeave → r.num ≠ .zero → r.ExponentsIn (FitsWord 32) := fun hno hne =>
    (exponentsIn_fitsWord_iff hn hd).mpr fun hleave => hno ⟨hne, hleave⟩
  refine ⟨?_, fun a b ha hb => Magnitude.divisorFound ha hb⟩
  constructor
  case stops_iff => exact hr.simplifyBy_overflow_iff hn hd
  case runs =>
    intro hno
    exact (hr.simplifyBy_guarded (by decide)).runs (mt (hr.simplifyBy_overflow_iff hn hd).mp hno)
  case checked => exact checkedSimplify_eq hr
  case toRat_eq => exact hr.toRat_simplify
  case lowestTerms => exact hr.lowestTerms_simplify
  case zero =>
    intro hzero
    rw [hr.simplify_eq, hzero, ofRat_zero]
    rfl
  case unique => exact fun s hs => hr.simplify_eq_iff hs
  case idempotent =>
    intro hno
    exact runs_of_keeps (by decide) fun _ hkeep => hr.simplifyBy_simplify hkeep (hin hno)

/-- Exponents above and below zero, both signs and a common divisor, for the value `3 / 2 ^ 33`. -/
theorem simplify_scaled_pairs :
    WellFormed ⟨⟨.negative, -1, [6]⟩, ⟨.negative, 0, [4]⟩⟩ ∧
      WellFormed ⟨⟨.positive, 2, [9]⟩, ⟨.positive, 3, [6]⟩⟩ ∧
      NormalForm ⟨⟨.negative, -1, [6]⟩, ⟨.negative, 0, [4]⟩⟩ ∧
      simplify ⟨⟨.positive, 2, [9]⟩, ⟨.positive, 3, [6]⟩⟩ =
        simplify ⟨⟨.negative, -1, [6]⟩, ⟨.negative, 0, [4]⟩⟩ ∧
      simplifyBy (.wrapped 32) ⟨⟨.negative, -1, [6]⟩, ⟨.negative, 0, [4]⟩⟩ =
        .ok (simplify ⟨⟨.negative, -1, [6]⟩, ⟨.negative, 0, [4]⟩⟩) ∧
      Magnitude.DivisorFound [0, 256] [0, 6] := by
  have hlow : WellFormed ⟨⟨.negative, -1, [6]⟩, ⟨.negative, 0, [4]⟩⟩ :=
    .mk_of_limb (by decide) (by decide) (by decide) (by decide)
  have hhigh : WellFormed ⟨⟨.positive, 2, [9]⟩, ⟨.positive, 3, [6]⟩⟩ :=
    .mk_of_limb (by decide) (by decide) (by decide) (by decide)
  obtain ⟨hnormal, hdivisor⟩ := simplify_unique_normal_form hlow (by decide) (by decide)
  have hstays : ¬ExponentsLeave ⟨⟨.negative, -1, [6]⟩, ⟨.negative, 0, [4]⟩⟩ := by
    norm_num [ExponentsLeave]
  refine ⟨hlow, hhigh, hnormal, (hnormal.unique _ hhigh).mpr ?_, (hnormal.runs hstays).2,
    hdivisor _ _ (by decide) (by decide)⟩
  simp [toRat, ScaledNumber.toRat, Sign.toInt, ScaledNumber.weight]
  norm_num

/--
The lowest word has no opposite.  The pair of two equal terms with this exponent
is one, but the checked run stops, and the run that wraps around divides by zero.
-/
theorem lowest_exponents_not_simplified :
    WellFormed ⟨⟨.positive, -2 ^ 31, [1]⟩, ⟨.positive, -2 ^ 31, [1]⟩⟩ ∧
      toRat ⟨⟨.positive, -2 ^ 31, [1]⟩, ⟨.positive, -2 ^ 31, [1]⟩⟩ = 1 ∧
      simplifyBy (.checked 32) ⟨⟨.positive, -2 ^ 31, [1]⟩, ⟨.positive, -2 ^ 31, [1]⟩⟩ =
        .error .overflow ∧
      simplifyBy (.wrapped 32) ⟨⟨.positive, -2 ^ 31, [1]⟩, ⟨.positive, -2 ^ 31, [1]⟩⟩ =
        .error .zeroDivisor := by
  have hpair : WellFormed ⟨⟨.positive, -2 ^ 31, [1]⟩, ⟨.positive, -2 ^ 31, [1]⟩⟩ :=
    .mk_of_limb (by decide) (by decide) (by decide) (by decide)
  exact ⟨hpair, div_self hpair.den_toRat_ne, by decide +kernel, simplifyBy_lowest_exponents⟩

end Ratio
end DeskCalculator
