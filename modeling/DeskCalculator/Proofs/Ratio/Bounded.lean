import DeskCalculator.Proofs.Ratio.Arithmetic
import DeskCalculator.Proofs.ScaledNumber.Bounded
import DeskCalculator.Ratio.Bounded

/-!
# Lowest terms with exponents in words

To make both terms integers their exponents are raised by the opposite of the
lower one.  These opposites and sums are the only exponents on the way to lowest
terms that may leave their words: what follows are integers and their divisors,
which have no more low zero limbs.

A word below zero has an opposite unless it is the lowest one.  So the exponents
stay in their words unless one of them is the lowest word, or they are as far
apart as a word reaches.

**Results.**
* `simplifyBy_follows`, `simplifyBy_eq`: lowest terms in words and in a range.
* `simplifyBy_overflow_iff`: the pairs whose exponents leave their words.
* `simplifyBy_of_within`: pairs that do not reach as far.
-/

namespace DeskCalculator
namespace Ratio

variable {r : Ratio} {bits : Nat} {keep : WordRule}

/-- Pairs of single limbs that are not zero, with any exponents. -/
theorem WellFormed.mk_of_limb
    {s t : Sign} {e f : Int} {x y : UInt32} (hs : s ≠ .zero) (hx : x ≠ 0) (ht : t ≠ .zero)
    (hy : y ≠ 0) :
    WellFormed ⟨⟨s, e, [x]⟩, ⟨t, f, [y]⟩⟩ := by
  refine ⟨.inr ⟨hs, by simp, by simpa, by simpa⟩, .inr ⟨ht, by simp, by simpa, by simpa⟩, ?_⟩
  simp [ScaledNumber.zero]

/-! ### Checked words -/

section

variable (hkeep : keep.Keeps (FitsWord bits))

include hkeep

theorem clearExponentsBy_follows
    (r : Ratio) :
    Follows (r.clearExponentsBy (.checked bits)) (r.clearExponentsBy keep) := by
  refine (hkeep.follows _).bind fun p => (hkeep.follows _).bind fun q => .ite ?_ (.refl _)
  refine (hkeep.follows _).bind fun _ => ?_
  refine (ScaledNumber.ofPartsBy_follows hkeep _ _ _).bind fun _ => ?_
  refine (hkeep.follows _).bind fun _ => ?_
  exact (ScaledNumber.ofPartsBy_follows hkeep _ _ _).bind fun _ => .refl _

theorem reduceBy_follows
    (r : Ratio) (g : ScaledNumber) :
    Follows (r.reduceBy (.checked bits) g) (r.reduceBy keep g) :=
  (ScaledNumber.divModBy_follows hkeep _ _).bind fun _ =>
    (ScaledNumber.divModBy_follows hkeep _ _).bind fun _ => .refl _

theorem simplifyBy_follows
    (r : Ratio) :
    Follows (r.simplifyBy (.checked bits)) (r.simplifyBy keep) := by
  refine .ite (.refl _) ((clearExponentsBy_follows hkeep _).bind fun c => ?_)
  refine (ScaledNumber.gcdBy_follows hkeep _ _).bind fun g => ?_
  exact .ite (.refl _) ((reduceBy_follows hkeep _ _).bind fun _ => .refl _)

end

/-! ### Exponents in a range -/

/-- What both exponents are raised by. -/
def exponentShift (r : Ratio) : Int := max (max (-r.num.exponent) (-r.den.exponent)) 0

/-- The exponents, their opposites and the raised exponents are in a range. -/
structure ExponentsIn (range : Int → Prop) (r : Ratio) : Prop where
  opposite_num : range (-r.num.exponent)
  opposite_den : range (-r.den.exponent)
  num : range (r.num.exponent + r.exponentShift)
  den : range (r.den.exponent + r.exponentShift)

/-- With their exponents raised the terms are integers that are not zero. -/
theorem WellFormed.clearExponents_terms
    (hr : WellFormed r) (hne : r.num ≠ .zero) :
    ∃ n d : Int, n ≠ 0 ∧ d ≠ 0 ∧ r.clearExponents = ⟨.ofInt n, .ofInt d⟩ ∧
      Rat.divInt n d = r.toRat ∧
      (ScaledNumber.ofInt n).exponent = r.num.exponent + r.exponentShift ∧
      (ScaledNumber.ofInt d).exponent = r.den.exponent + r.exponentShift := by
  have hraised : r.clearExponents.num.exponent = r.num.exponent + r.exponentShift ∧
      r.clearExponents.den.exponent = r.den.exponent + r.exponentShift := by
    unfold clearExponents
    dsimp only
    split
    · exact ⟨ScaledNumber.exponent_ofParts_mantissa hr.num hne _ _,
        ScaledNumber.exponent_ofParts_mantissa hr.den hr.den_ne _ _⟩
    · simp only [exponentShift]
      constructor <;> omega
  obtain ⟨n, d, w, hw, hclear, hn, hd⟩ := hr.clearExponents_spec
  rw [hclear] at hraised
  refine ⟨n, d, ?_, ?_, hclear, ?_, hraised⟩
  · rintro rfl
    rw [Int.cast_zero, eq_comm, mul_eq_zero, or_iff_left hw] at hn
    exact hne (hr.num.toRat_eq_zero.mp hn)
  · rintro rfl
    rw [Int.cast_zero, eq_comm, mul_eq_zero, or_iff_left hw] at hd
    exact hr.den_toRat_ne hd
  · rw [Rat.divInt_eq_div, hn, hd, toRat, mul_div_mul_right _ _ hw]

/-- Parts with the mantissa of a canonical number, if the exponent is in the range. -/
theorem ofPartsBy_mantissa
    {range : Int → Prop} (hkeep : keep.Keeps range) {x : ScaledNumber} (hx : x.Canonical)
    (hne : x ≠ .zero) (hzero : range 0) {e : Int} (he : range e) :
    ScaledNumber.ofPartsBy keep x.isNegative e x.mantissa =
      .ok (.ofParts x.isNegative e x.mantissa) := by
  have hexponent := ScaledNumber.exponent_ofParts_mantissa hx hne x.isNegative e
  refine ScaledNumber.ofPartsBy_eq hkeep ?_ ?_
  · rwa [hexponent, sub_self]
  · rwa [hexponent]

section

variable {range : Int → Prop} (hkeep : keep.Keeps range)
  (hdown : ∀ m n : Int, 0 ≤ m → m ≤ n → range n → range m)

include hkeep hdown

theorem clearExponentsBy_eq
    (hr : WellFormed r) (hne : r.num ≠ .zero) (h : r.ExponentsIn range) :
    r.clearExponentsBy keep = .ok r.clearExponents := by
  have hraised : 0 ≤ r.num.exponent + r.exponentShift := by
    simp only [exponentShift]
    omega
  have hzero : range 0 := hdown _ _ le_rfl hraised h.num
  unfold clearExponentsBy clearExponents
  simp only [hkeep _ h.opposite_num, hkeep _ h.opposite_den, bind, Except.bind]
  rw [show max (max (-r.num.exponent) (-r.den.exponent)) 0 = r.exponentShift from rfl]
  split
  · simp only [hkeep _ h.num, hkeep _ h.den, ofPartsBy_mantissa hkeep hr.num hne hzero h.num,
      ofPartsBy_mantissa hkeep hr.den hr.den_ne hzero h.den]
    rfl
  · rfl

/-- A divisor leaves a quotient with a smaller exponent and no remainder. -/
theorem divModBy_of_dvd
    {n g : Int} (hn : n ≠ 0) (hg : g ∣ n) (hrange : range (ScaledNumber.ofInt n).exponent) :
    (ScaledNumber.ofInt n).divModBy keep (.ofInt g) =
      .ok ((ScaledNumber.ofInt n).divMod (.ofInt g)) := by
  have hbelow : ∀ m : Int, m ∣ n → range (ScaledNumber.ofInt m).exponent := fun m hm =>
    hdown _ _ (ScaledNumber.exponent_ofInt_nonneg m)
      (ScaledNumber.exponent_ofInt_le_of_dvd hm hn) hrange
  have habs : ∀ m : Int, m ∣ n → range |(ScaledNumber.ofInt m).exponent| := fun m hm => by
    rw [abs_of_nonneg (ScaledNumber.exponent_ofInt_nonneg m)]
    exact hbelow m hm
  refine ScaledNumber.divModBy_eq hkeep (habs n dvd_rfl) (habs g hg) ?divisor ?quotient ?rest
  case divisor =>
    have hgne : g.natAbs ≠ 0 := Int.natAbs_ne_zero.mpr (ne_zero_of_dvd_ne_zero hn hg)
    rwa [ScaledNumber.integerMagnitude_ofInt, ne_eq,
      ← (Magnitude.normalized_ofNat _).toNat_eq_zero, Magnitude.toNat_ofNat]
  case quotient =>
    have hquot := ScaledNumber.ofInt_quot n g
    rw [ScaledNumber.quot] at hquot
    rw [hquot]
    obtain ⟨c, rfl⟩ := hg
    rw [Int.mul_tdiv_cancel_left _ (left_ne_zero_of_mul hn)]
    exact hbelow c (Dvd.intro_left g rfl)
  case rest =>
    rw [ScaledNumber.divMod_snd_of_dvd hg]
    exact hdown 0 _ le_rfl (ScaledNumber.exponent_ofInt_nonneg n) hrange

/-- Lowest terms, if the exponents stay in the range while they are raised. -/
theorem simplifyBy_eq
    (hr : WellFormed r) (h : r.num ≠ .zero → r.ExponentsIn range) :
    r.simplifyBy keep = .ok r.simplify := by
  unfold simplifyBy simplify
  split
  · rfl
  rename_i hzero
  have hne : r.num ≠ .zero := mt hr.num.isZero_eq.mpr hzero
  have hin := h hne
  obtain ⟨n, d, hn0, hd0, hclear, -, hnum, hden⟩ := hr.clearExponents_terms hne
  rw [clearExponentsBy_eq hkeep hdown hr hne hin, hclear]
  have hrn : range (ScaledNumber.ofInt n).exponent := hnum ▸ hin.num
  have hrd : range (ScaledNumber.ofInt d).exponent := hden ▸ hin.den
  have hgcd : (ScaledNumber.ofInt n).gcd (.ofInt d) = .ofInt (Int.gcd n d) := by
    rw [ScaledNumber.ofInt_gcd, ScaledNumber.ofInt_natCast]
  have hdivisor : (ScaledNumber.ofInt n).gcdBy keep (.ofInt d) = .ok (.ofInt (Int.gcd n d)) := by
    rw [← hgcd]
    refine ScaledNumber.gcdBy_eq hkeep ?_ ?_ ?_
    · rwa [abs_of_nonneg (ScaledNumber.exponent_ofInt_nonneg n)]
    · rwa [abs_of_nonneg (ScaledNumber.exponent_ofInt_nonneg d)]
    · rw [hgcd]
      exact hdown _ _ (ScaledNumber.exponent_ofInt_nonneg _)
        (ScaledNumber.exponent_ofInt_le_of_dvd (Int.gcd_dvd_left n d) hn0) hrn
  simp only [bind, Except.bind, hdivisor, hgcd]
  split
  · rfl
  · simp only [reduceBy, bind, Except.bind,
      divModBy_of_dvd hkeep hdown hn0 (Int.gcd_dvd_left n d) hrn,
      divModBy_of_dvd hkeep hdown hd0 (Int.gcd_dvd_right n d) hrd]
    rfl

end

/-- With exact exponents these are the lowest terms. -/
theorem WellFormed.simplifyBy_exact
    (hr : WellFormed r) :
    r.simplifyBy .exact = .ok r.simplify :=
  simplifyBy_eq (keeps_exact fun _ => True) (fun _ _ _ _ _ => trivial) hr
    fun _ => ⟨trivial, trivial, trivial, trivial⟩

/-- In words lowest terms are exact, or a check fails. -/
theorem WellFormed.simplifyBy_guarded
    (hr : WellFormed r) (hbits : 0 < bits) :
    Guarded bits (fun keep => r.simplifyBy keep) r.simplify :=
  guarded_of_follows hbits (fun _ hkeep => simplifyBy_follows hkeep r) hr.simplifyBy_exact

/-! ### Exponents that leave their words -/

theorem fitsWord_down
    {m n : Int} (hm : 0 ≤ m) (hmn : m ≤ n) (hn : FitsWord bits n) :
    FitsWord bits m := by
  obtain ⟨-, hhigh⟩ := hn
  have hpos : (0 : Int) < 2 ^ (bits - 1) := by positivity
  exact ⟨by omega, by omega⟩

/-- The pairs that are not zero and whose exponents leave their words. -/
def ExponentsLeave (r : Ratio) : Prop :=
  r.num ≠ .zero ∧ (r.num.exponent = -2 ^ 31 ∨ r.den.exponent = -2 ^ 31 ∨
    2 ^ 31 ≤ |r.num.exponent - r.den.exponent|)

/-- The exponents stay in their words unless one has no opposite or they are too far apart. -/
theorem exponentsIn_fitsWord_iff
    (hn : FitsWord 32 r.num.exponent) (hd : FitsWord 32 r.den.exponent) :
    r.ExponentsIn (FitsWord 32) ↔ ¬(r.num.exponent = -2 ^ 31 ∨ r.den.exponent = -2 ^ 31 ∨
      2 ^ 31 ≤ |r.num.exponent - r.den.exponent|) := by
  simp only [FitsWord] at hn hd
  constructor
  · rintro ⟨h₁, h₂, h₃, h₄⟩
    simp only [FitsWord, exponentShift] at h₁ h₂ h₃ h₄
    rw [le_abs]
    omega
  · intro h
    rw [le_abs] at h
    constructor <;> simp only [FitsWord, exponentShift] <;> omega

/-- The checks on the exponents of a pair are those of the range. -/
theorem WellFormed.clearExponentsBy_overflow
    (hr : WellFormed r) (hne : r.num ≠ .zero) (hleave : ¬r.ExponentsIn (FitsWord 32))
    (hn : FitsWord 32 r.num.exponent) (hd : FitsWord 32 r.den.exponent) :
    r.clearExponentsBy (.checked 32) = .error .overflow := by
  have hkeep := keeps_checked 32
  unfold clearExponentsBy
  by_cases hopnum : FitsWord 32 (-r.num.exponent)
  case neg => rw [checked_eq_overflow hopnum]; rfl
  by_cases hopden : FitsWord 32 (-r.den.exponent)
  case neg => rw [hkeep _ hopnum, checked_eq_overflow hopden]; rfl
  simp only [hkeep _ hopnum, hkeep _ hopden, bind, Except.bind]
  rw [show max (max (-r.num.exponent) (-r.den.exponent)) 0 = r.exponentShift from rfl]
  by_cases hpos : 0 < r.exponentShift
  case neg =>
    -- nothing is raised, so that nothing leaves its word
    have hzero : r.exponentShift = 0 := le_antisymm (not_lt.mp hpos) (le_max_right _ _)
    refine absurd ⟨hopnum, hopden, ?_, ?_⟩ hleave
    · rwa [hzero, add_zero]
    · rwa [hzero, add_zero]
  rw [if_pos hpos]
  by_cases hnum : FitsWord 32 (r.num.exponent + r.exponentShift)
  case neg => rw [checked_eq_overflow hnum]
  have hparts : ScaledNumber.ofPartsBy (.checked 32) r.num.isNegative
      (r.num.exponent + r.exponentShift) r.num.mantissa = .ok _ :=
    ofPartsBy_mantissa hkeep hr.num hne (by decide) hnum
  simp only [hkeep _ hnum, hparts]
  rw [checked_eq_overflow fun hden => hleave ⟨hopnum, hopden, hnum, hden⟩]

/-- A checked run to lowest terms stops where the exponents leave their words, and only there. -/
theorem WellFormed.simplifyBy_overflow_iff
    (hr : WellFormed r) (hn : FitsWord 32 r.num.exponent) (hd : FitsWord 32 r.den.exponent) :
    r.simplifyBy (.checked 32) = .error .overflow ↔ r.ExponentsLeave := by
  have hiff := exponentsIn_fitsWord_iff hn hd
  constructor
  · intro hstop
    refine ⟨?_, ?_⟩
    · intro hzero
      rw [simplifyBy, if_pos (hr.num.isZero_eq.mpr hzero)] at hstop
      cases hstop
    · by_contra hno
      rw [simplifyBy_eq (keeps_checked 32) (fun _ _ => fitsWord_down) hr
        fun _ => hiff.mpr hno] at hstop
      cases hstop
  · rintro ⟨hne, hleave⟩
    rw [simplifyBy, if_neg (mt hr.num.isZero_eq.mp hne),
      hr.clearExponentsBy_overflow hne (fun hin => hiff.mp hin hleave) hn hd]
    rfl

/-- Wrapped around, the opposite of the lowest word is below zero, and nothing is raised. -/
theorem simplifyBy_lowest_exponents :
    simplifyBy (.wrapped 32) ⟨⟨.positive, -2 ^ 31, [1]⟩, ⟨.positive, -2 ^ 31, [1]⟩⟩ =
      .error .zeroDivisor := by
  -- the integer parts are empty, and so is their greatest common divisor
  have hgcd : ScaledNumber.gcdBy (.wrapped 32) ⟨.positive, -2 ^ 31, [1]⟩
      ⟨.positive, -2 ^ 31, [1]⟩ = .ok .zero := by
    show ScaledNumber.ofPartsBy (.wrapped 32) false 0 (Magnitude.gcd [] []) = _
    rw [Magnitude.gcd, if_pos rfl]
    rfl
  show (ScaledNumber.gcdBy (.wrapped 32) _ _ >>= _) = _
  rw [hgcd]
  rfl

/-- Lowest terms have no larger exponents than the terms that they are taken from. -/
theorem WellFormed.exponent_simplify_le
    (hr : WellFormed r) (hne : r.num ≠ .zero) :
    r.simplify.num.exponent ≤ r.num.exponent + r.exponentShift ∧
      r.simplify.den.exponent ≤ r.den.exponent + r.exponentShift := by
  obtain ⟨n, d, hn0, hd0, -, hvalue, hnum, hden⟩ := hr.clearExponents_terms hne
  have hnumdvd : r.toRat.num ∣ n := hvalue ▸ Rat.num_dvd n hd0
  have hdendvd : (r.toRat.den : Int) ∣ d := hvalue ▸ Rat.den_dvd n d
  rw [hr.simplify_eq, ofRat, ← hnum, ← hden, ← ScaledNumber.ofInt_natCast]
  exact ⟨ScaledNumber.exponent_ofInt_le_of_dvd hnumdvd hn0,
    ScaledNumber.exponent_ofInt_le_of_dvd hdendvd hd0⟩

/-- Limbs that do not reach half as far as a word leave all exponents in their words. -/
theorem WellFormed.simplifyBy_of_within
    {b : Nat} (hr : WellFormed r) (hkeep : keep.Keeps (FitsWord bits))
    (hn : r.num.Within b) (hd : r.den.Within b) (hb : 2 * b < 2 ^ (bits - 1)) :
    r.simplifyBy keep = .ok r.simplify := by
  refine simplifyBy_eq hkeep (fun _ _ => fitsWord_down) hr fun _ => ?_
  simp only [ScaledNumber.Within] at hn hd
  have hshift : 0 ≤ r.exponentShift ∧ r.exponentShift ≤ b := by
    simp only [exponentShift]
    omega
  constructor <;> exact ScaledNumber.fitsWord_of_le hb (by push_cast; omega) (by push_cast; omega)

end Ratio
end DeskCalculator
