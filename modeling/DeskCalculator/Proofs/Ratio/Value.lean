import DeskCalculator.Proofs.ScaledNumber.Arithmetic
import DeskCalculator.Ratio.Basic

/-!
# The rational number that a ratio denotes

A ratio is well-formed if its terms are canonical and its denominator is not
zero; it is then a pair of any integers or scaled fractions, of any sign, with
or without common divisors.  `ofRat` is the one ratio in lowest terms of a
rational number, and `simplify` computes it.

**Results.**
* `lowestTerms_iff`: a ratio is in lowest terms if it is the one of its value.
* `WellFormed.simplify_eq`: `simplify` gives the ratio in lowest terms.
-/

namespace DeskCalculator
namespace Ratio

/-- The number denoted. -/
def toRat (r : Ratio) : ℚ := r.num.toRat / r.den.toRat

/-- Canonical terms, and a denominator that is not zero. -/
structure WellFormed (r : Ratio) : Prop where
  num : r.num.Canonical
  den : r.den.Canonical
  den_ne : r.den ≠ .zero

/--
Canonical integers without a common divisor, the denominator above zero; zero is
written `0 / 1`.
-/
structure LowestTerms (r : Ratio) : Prop where
  num : r.num.Canonical
  den : r.den.Canonical
  num_integer : r.num.isInteger = true
  den_integer : r.den.isInteger = true
  den_pos : 0 < r.den.toRat
  coprime : Nat.gcd r.num.integerMagnitude.toNat r.den.integerMagnitude.toNat = 1
  zero : r.num.isZero = true → r = Ratio.zero

/-- The ratio in lowest terms of a rational number. -/
def ofRat (q : ℚ) : Ratio := ⟨.ofInt q.num, .ofNat q.den⟩

/-! ### Well-formed ratios -/

theorem WellFormed.den_toRat_ne
    {r : Ratio} (hr : WellFormed r) :
    r.den.toRat ≠ 0 :=
  mt hr.den.toRat_eq_zero.mp hr.den_ne

theorem WellFormed.mk_of_ne
    {n d : ScaledNumber} (hn : n.Canonical) (hd : d.Canonical) (hne : d.toRat ≠ 0) :
    WellFormed ⟨n, d⟩ :=
  ⟨hn, hd, fun h => hne (hd.toRat_eq_zero.mpr h)⟩

theorem LowestTerms.wellFormed
    {r : Ratio} (hr : LowestTerms r) :
    WellFormed r :=
  ⟨hr.num, hr.den, fun h => by simpa [h] using hr.den_pos⟩

@[simp] theorem toRat_ofScaled
    (n : ScaledNumber) :
    (ofScaled n).toRat = n.toRat := by
  simp [toRat, ofScaled]

/-- A ratio is zero if its numerator is. -/
theorem WellFormed.isZero_iff
    {r : Ratio} (hr : WellFormed r) :
    r.isZero = true ↔ r.toRat = 0 := by
  rw [isZero, ScaledNumber.isZero_iff hr.num, toRat, div_eq_zero_iff,
    or_iff_left hr.den_toRat_ne]

/-! ### The ratio of a rational number -/

@[simp] theorem toRat_ofRat
    (q : ℚ) :
    (ofRat q).toRat = q := by
  rw [toRat, ofRat, ScaledNumber.toRat_ofInt, ScaledNumber.toRat_ofNat, Rat.num_div_den]

/-- Two coprime integers, the second above zero, are the terms of their quotient. -/
theorem ofRat_div
    {n d : Int} (hd : 0 < d) (h : Nat.Coprime n.natAbs d.natAbs) :
    ofRat (n / d) = ⟨.ofInt n, .ofInt d⟩ := by
  rw [ofRat, ← ScaledNumber.ofInt_natCast, Rat.num_div_eq_of_coprime hd h,
    Rat.den_div_eq_of_coprime hd h]

@[simp] theorem ofRat_zero : ofRat 0 = zero := by
  simp [ofRat, zero, ofScaled, ScaledNumber.one]

theorem ofRat_ne_zero
    {q : ℚ} (hq : q ≠ 0) :
    ofRat q ≠ zero := by
  rw [← ofRat_zero]
  intro h
  have hvalue := congrArg toRat h
  rw [toRat_ofRat, toRat_ofRat] at hvalue
  exact hq hvalue

@[simp] theorem ofRat_intCast
    (n : Int) :
    ofRat n = ofInt n := by
  simp [ofRat, ofInt, ofScaled, ScaledNumber.one]

@[simp] theorem toRat_ofInt
    (n : Int) :
    (ofInt n).toRat = n := by
  rw [← ofRat_intCast, toRat_ofRat]

@[simp] theorem ofRat_natCast
    (n : Nat) :
    ofRat n = ofNat n := by
  have h := ofRat_intCast n
  rwa [ofInt, ScaledNumber.ofInt_natCast, Int.cast_natCast] at h

theorem ofRat_one : ofRat 1 = one := by
  exact_mod_cast ofRat_natCast 1

theorem lowestTerms_ofRat
    (q : ℚ) :
    LowestTerms (ofRat q) := by
  have hden : (ofRat q).den = .ofInt q.den := (ScaledNumber.ofInt_natCast q.den).symm
  constructor
  case num => exact ScaledNumber.canonical_ofInt _
  case den => exact ScaledNumber.canonical_ofNat _
  case num_integer => exact decide_eq_true (ScaledNumber.exponent_ofInt_nonneg _)
  case den_integer =>
    rw [hden]
    exact decide_eq_true (ScaledNumber.exponent_ofInt_nonneg _)
  case den_pos =>
    rw [ofRat, ScaledNumber.toRat_ofNat]
    exact Nat.cast_pos.mpr q.den_pos
  case coprime =>
    rw [hden, ofRat, ScaledNumber.integerMagnitude_ofInt, ScaledNumber.integerMagnitude_ofInt,
      Magnitude.toNat_ofNat, Magnitude.toNat_ofNat, Int.natAbs_natCast]
    exact q.reduced
  case zero =>
    intro h
    rw [ofRat, ScaledNumber.isZero_ofInt, decide_eq_true_iff, Rat.num_eq_zero] at h
    rw [h, ofRat_zero]

/-- A ratio is in lowest terms if it is the one of the number that it denotes. -/
theorem lowestTerms_iff
    (r : Ratio) :
    LowestTerms r ↔ r = ofRat r.toRat := by
  constructor
  · intro h
    obtain ⟨n, hn⟩ := h.num.exists_ofInt (of_decide_eq_true h.num_integer)
    obtain ⟨d, hd⟩ := h.den.exists_ofInt (of_decide_eq_true h.den_integer)
    have hpos := h.den_pos
    have hcoprime := h.coprime
    rw [hn, hd, ScaledNumber.integerMagnitude_ofInt, ScaledNumber.integerMagnitude_ofInt,
      Magnitude.toNat_ofNat, Magnitude.toNat_ofNat] at hcoprime
    rw [hd, ScaledNumber.toRat_ofInt, Int.cast_pos] at hpos
    rw [toRat, hn, hd, ScaledNumber.toRat_ofInt, ScaledNumber.toRat_ofInt,
      ofRat_div hpos hcoprime, ← hn, ← hd]
  · intro h
    rw [h]
    exact lowestTerms_ofRat _

/-! ### Lowest terms -/

theorem exponent_ofParts_nonneg
    (negative : Bool) {e : Int} (he : 0 ≤ e) (m : Magnitude) :
    0 ≤ (ScaledNumber.ofParts negative e m).exponent := by
  unfold ScaledNumber.ofParts
  dsimp only
  split
  · exact le_rfl
  · exact Int.add_nonneg he (Int.natCast_nonneg _)

/-- A canonical number with its exponent raised is multiplied by a weight. -/
theorem toRat_raised
    {x : ScaledNumber} (hx : x.Canonical) (k : Int) :
    (ScaledNumber.ofParts x.isNegative (x.exponent + k) x.mantissa).toRat =
      x.toRat * ScaledNumber.weight k := by
  rw [ScaledNumber.toRat_ofParts, hx.toRat_eq, hx.abs_toRat, ScaledNumber.weight_add]
  ring

/-- With exponents raised together the terms are integers of the same quotient. -/
theorem WellFormed.clearExponents_spec
    {r : Ratio} (hr : WellFormed r) :
    ∃ n d : Int, ∃ w : ℚ, w ≠ 0 ∧ r.clearExponents = ⟨.ofInt n, .ofInt d⟩ ∧
      (n : ℚ) = r.num.toRat * w ∧ (d : ℚ) = r.den.toRat * w := by
  unfold clearExponents
  dsimp only
  generalize hk : max (max (-r.num.exponent) (-r.den.exponent)) 0 = k
  split
  · obtain ⟨n, hn⟩ := (ScaledNumber.canonical_ofParts r.num.isNegative (r.num.exponent + k)
      r.num.mantissa).exists_ofInt (exponent_ofParts_nonneg _ (by omega) _)
    obtain ⟨d, hd⟩ := (ScaledNumber.canonical_ofParts r.den.isNegative (r.den.exponent + k)
      r.den.mantissa).exists_ofInt (exponent_ofParts_nonneg _ (by omega) _)
    refine ⟨n, d, ScaledNumber.weight k, ScaledNumber.weight_ne_zero k, by rw [hn, hd], ?_, ?_⟩
    · rw [← toRat_raised hr.num, hn, ScaledNumber.toRat_ofInt]
    · rw [← toRat_raised hr.den, hd, ScaledNumber.toRat_ofInt]
  · obtain ⟨n, hn⟩ := hr.num.exists_ofInt (by omega)
    obtain ⟨d, hd⟩ := hr.den.exists_ofInt (by omega)
    refine ⟨n, d, 1, one_ne_zero, by rw [← hn, ← hd], ?_, ?_⟩
    · rw [hn, ScaledNumber.toRat_ofInt, mul_one]
    · rw [hd, ScaledNumber.toRat_ofInt, mul_one]

/-- Integers divided by their greatest common divisor, the sign in the numerator. -/
theorem ofRat_div_gcd
    {n d : Int} (hd : d ≠ 0) :
    (if (ScaledNumber.ofInt (d.tdiv (Int.gcd n d))).isNegative then
        ⟨(ScaledNumber.ofInt (n.tdiv (Int.gcd n d))).neg,
          (ScaledNumber.ofInt (d.tdiv (Int.gcd n d))).neg⟩
      else ⟨.ofInt (n.tdiv (Int.gcd n d)), .ofInt (d.tdiv (Int.gcd n d))⟩ : Ratio) =
      ofRat (n / d) := by
  have hpos : 0 < Int.gcd n d := Int.gcd_pos_of_ne_zero_right n hd
  obtain ⟨n', d', hcoprime, hn, hd'⟩ := Int.exists_gcd_one hpos
  have hg : ((Int.gcd n d : Nat) : Int) ≠ 0 := by omega
  generalize Int.gcd n d = g at *
  have hdne : d' ≠ 0 := by
    rintro rfl
    exact hd (by rw [hd', Int.zero_mul])
  have hvalue : (n / d : ℚ) = n' / d' := by
    rw [hn, hd']
    push_cast
    exact mul_div_mul_right _ _ (by exact_mod_cast hg)
  rw [Int.tdiv_eq_of_eq_mul_left hg hn, Int.tdiv_eq_of_eq_mul_left hg hd', hvalue,
    ScaledNumber.isNegative_ofInt]
  rcases lt_or_gt_of_ne hdne with hneg | hpos'
  · rw [if_pos (decide_eq_true hneg), ScaledNumber.ofInt_neg, ScaledNumber.ofInt_neg,
      ← ofRat_div (by omega) (by rw [Int.natAbs_neg, Int.natAbs_neg]; exact hcoprime)]
    push_cast
    rw [neg_div_neg_eq]
  · rw [if_neg (by simpa using hpos'.le), ofRat_div hpos' hcoprime]

/-- The ratio in lowest terms of any pair. -/
theorem WellFormed.simplify_eq
    {r : Ratio} (hr : WellFormed r) :
    r.simplify = ofRat r.toRat := by
  unfold simplify
  split
  · rename_i h
    rw [toRat, (ScaledNumber.isZero_iff hr.num).mp h, zero_div, ofRat_zero]
  · obtain ⟨n, d, w, hw, hclear, hn, hd⟩ := hr.clearExponents_spec
    have hdne : d ≠ 0 := by
      rintro rfl
      rw [Int.cast_zero, eq_comm, mul_eq_zero, or_iff_left hw] at hd
      exact hr.den_toRat_ne hd
    have hvalue : (n / d : ℚ) = r.toRat := by
      rw [hn, hd, toRat, mul_div_mul_right _ _ hw]
    -- dividing by a common divisor of one changes nothing
    have hquot : (if ((ScaledNumber.ofInt n).gcd (.ofInt d)).isOne then ⟨.ofInt n, .ofInt d⟩
          else ⟨(ScaledNumber.ofInt n).quot ((ScaledNumber.ofInt n).gcd (.ofInt d)),
            (ScaledNumber.ofInt d).quot ((ScaledNumber.ofInt n).gcd (.ofInt d))⟩ : Ratio) =
        ⟨.ofInt (n.tdiv (Int.gcd n d)), .ofInt (d.tdiv (Int.gcd n d))⟩ := by
      rw [ScaledNumber.ofInt_gcd, ← ScaledNumber.ofInt_natCast, ScaledNumber.ofInt_quot,
        ScaledNumber.ofInt_quot]
      split
      · rename_i hone
        rw [ScaledNumber.isOne_iff (ScaledNumber.canonical_ofInt _), ScaledNumber.toRat_ofInt,
          Int.cast_eq_one] at hone
        rw [hone, Int.tdiv_one, Int.tdiv_one]
      · rfl
    rw [← hvalue, ← ofRat_div_gcd hdne, hclear]
    dsimp only
    rw [hquot]

end Ratio
end DeskCalculator
