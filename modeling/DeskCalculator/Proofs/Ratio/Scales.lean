import DeskCalculator.Proofs.MachineWord
import DeskCalculator.Proofs.Ratio.NearestDigits

/-!
# Scales in words

For `p` digits from the exponent `t` on a number is scaled by the power of the
radix with the exponent `p - 1 - t`.  In words of 64 bits this difference is
exact below `2 ^ 63`.  Beyond, it wraps around once, to a scale so far below that
nothing is left of the number: it is rounded to the one digit zero.

The number of digits is a word without a sign.  From `2 ^ 63` on it is read as a
number below zero, so that the difference may come out exact although its first
operand is not.

The terms that are scaled have exact exponents here: in words of 32 bits they
hold all numbers below `2 ^ (2 ^ 36)`.

**Results.**
* `scaleBy_eq`, `scaleBy_wrapped`: the scale in words.
* `roundScaled_of_lt_half`: what is scaled below one half is rounded to zero.
* `significand_rounded_in_words`: the digits of a ratio for any number of them.
-/

namespace DeskCalculator
namespace Ratio

variable {radix p : Nat} {q : ℚ} {t : Int} {keep : WordRule}

/-! ### The scale -/

/-- The scale is computed from the number of digits as it is read. -/
theorem scaleBy_of_fits
    (hkeep : keep.Keeps (FitsWord 64)) (hlast : FitsWord 64 (signedWord 64 p - 1))
    (hk : FitsWord 64 (signedWord 64 p - 1 - t)) (hneg : FitsWord 64 (-(signedWord 64 p - 1 - t))) :
    scaleBy keep p t = .ok (signedWord 64 p - 1 - t) := by
  unfold scaleBy
  simp only [hkeep _ hlast, hkeep _ hk, hkeep _ hneg, bind, Except.bind]
  split <;> rfl

/-- A scale that fits in its word is exact, for a number of digits that does. -/
theorem scaleBy_eq
    (hkeep : keep.Keeps (FitsWord 64)) (hp : 0 < p) (hword : p < 2 ^ 63) (ht : FitsWord 64 t)
    (hscale : (p : Int) - 1 - t < 2 ^ 63) :
    scaleBy keep p t = .ok (p - 1 - t) := by
  obtain ⟨hlow, hhigh⟩ := ht
  have hread : signedWord 64 p = p :=
    signedWord_of_fits (by decide) ⟨by omega, by omega⟩
  have h := scaleBy_of_fits (p := p) (t := t) hkeep
  rw [hread] at h
  exact h ⟨by omega, by omega⟩ ⟨by omega, by omega⟩ ⟨by omega, by omega⟩

/-- A rule that keeps a word for every number gives the scale in words. -/
theorem scaleBy_of_total
    (f : Int → Int) (p : Nat) (t : Int) :
    scaleBy (fun n => .ok (f n)) p t = .ok (f (f (signedWord 64 p - 1) - t)) := by
  unfold scaleBy
  simp only [bind, Except.bind]
  split <;> rfl

/-- Words that wrap around have the low bits of the exact scale. -/
theorem scaleBy_wrapped
    (p : Nat) (t : Int) :
    scaleBy (.wrapped 64) p t = .ok (signedWord 64 (p - 1 - t)) := by
  have h := scaleBy_of_total (signedWord 64) p t
  rwa [signedWord_sub 64 p 1, signedWord_sub 64 (p - 1) t] at h

theorem scaleBy_follows
    (hkeep : keep.Keeps (FitsWord 64)) (p : Nat) (t : Int) :
    Follows (scaleBy (.checked 64) p t) (scaleBy keep p t) := by
  refine (hkeep.follows _).bind fun _ => (hkeep.follows _).bind fun _ => .ite ?_ (.refl _)
  exact (hkeep.follows _).bind fun _ => .refl _

/-! ### Digits at a scale -/

/-- What is scaled below one half is rounded to zero. -/
theorem roundScaled_of_lt_half
    {n d : Nat} (hd : 0 < d) (htwo : 2 ≤ radix) (hradix : radix ≤ 16) (hp : 0 < p) {k : Int}
    (hhalf : (n : ℚ) / d * (radix : ℚ) ^ k < 1 / 2) (e : Int) :
    roundScaled (.ofNat n) (.ofNat d) radix p k e = ⟨['0'], e⟩ := by
  obtain ⟨n', d', hterms, hd', hquot⟩ := scaleTerms_ofNat (n := n) hd (by omega : 0 < radix) k
  have hnonneg : (0 : ℚ) ≤ n / d * (radix : ℚ) ^ k := by positivity
  have hround : round ((n : ℚ) / d * (radix : ℚ) ^ k) = 0 := by
    rw [round_eq, Int.floor_eq_iff, Int.cast_zero]
    constructor <;> linarith
  unfold roundScaled
  rw [hterms]
  dsimp only
  rw [roundQuotient_ofNat hd', hquot, hround, ScaledNumber.toDigits_ofNat htwo hradix]
  have hzero : digitsOf radix (0 : Int).toNat = ['0'] := by
    rw [Int.toNat_zero, digitsOf_zero]
  have hshort : ¬p < ['0'].length := not_lt.mpr hp
  rw [hzero, if_neg hshort]

/-- From any start of the search, the digits at the scale of the first one. -/
theorem significandFromBy_eq
    (htwo : 2 ≤ radix) (hp : 0 < p) (hq : q ≠ 0) (keep : WordRule) (start : Int) :
    (ofRat q).significandFromBy keep radix p start =
      (scaleBy keep p (Int.log radix |q|)).map fun k =>
        some (roundScaled (.ofNat q.num.natAbs) (.ofNat q.den) radix p k (Int.log radix |q|)) := by
  have hn : 0 < q.num.natAbs := Int.natAbs_pos.mpr (Rat.num_ne_zero.mpr hq)
  rw [significandFromBy, if_neg (mt (isZero_ofRat q).mp hq), abs_num_ofRat, abs_den_ofRat]
  dsimp only
  rw [leadingExponent_ofNat hn q.den_pos htwo, ← abs_eq_terms,
    show p.max 1 = p from Nat.max_eq_left hp]
  unfold roundAtBy
  cases scaleBy keep p (Int.log radix |q|) <;> rfl

/-- A scale that fits in its word gives the digits at the exact scale. -/
theorem significandFromBy_of_fits
    (htwo : 2 ≤ radix) (hp : 0 < p) (hword : p < 2 ^ 63) (hq : q ≠ 0)
    (hkeep : keep.Keeps (FitsWord 64)) (ht : FitsWord 64 (Int.log radix |q|))
    (hscale : (p : Int) - 1 - Int.log radix |q| < 2 ^ 63) (start : Int) :
    (ofRat q).significandFromBy keep radix p start =
      .ok ((ofRat q).significandFrom radix p start) := by
  rw [significandFromBy_eq htwo hp hq, scaleBy_eq hkeep hp hword ht hscale,
    significandFrom_eq htwo hp hq]
  rfl

/-- A scale that wraps around leaves nothing of the number. -/
theorem roundScaled_of_wrapped
    (htwo : 2 ≤ radix) (hradix : radix ≤ 16) (hp : 0 < p) (hword : p < 2 ^ 64) (q : ℚ) :
    roundScaled (.ofNat q.num.natAbs) (.ofNat q.den) radix p
      (p - 1 - Int.log radix |q| - 2 ^ 64) (Int.log radix |q|) =
        ⟨['0'], Int.log radix |q|⟩ := by
  have hbase : (1 : ℚ) < radix := by exact_mod_cast (by omega : 1 < radix)
  have hpos : (0 : ℚ) < radix := by linarith
  refine roundScaled_of_lt_half q.den_pos htwo hradix hp ?_ _
  rw [← abs_eq_terms]
  calc
    |q| * (radix : ℚ) ^ ((p : Int) - 1 - Int.log radix |q| - 2 ^ 64)
        < (radix : ℚ) ^ (Int.log radix |q| + 1) *
            (radix : ℚ) ^ ((p : Int) - 1 - Int.log radix |q| - 2 ^ 64) := by
          have hlt := Int.lt_zpow_succ_log_self htwo |q|
          gcongr
    _ = (radix : ℚ) ^ ((p : Int) - 2 ^ 64) := by
          rw [← zpow_add₀ hpos.ne']
          congr 1
          ring
    _ ≤ (radix : ℚ) ^ (-1 : Int) := zpow_le_zpow_right₀ hbase.le (by omega)
    _ ≤ 1 / 2 := by
          rw [zpow_neg_one, inv_eq_one_div]
          have : (2 : ℚ) ≤ radix := by exact_mod_cast htwo
          gcongr

/-! ### The digits of a ratio -/

/--
The digits of a ratio in words of 64 bits, where `t` is the exponent of the first
digit of its absolute value.
-/
structure RoundedInWords (r : Ratio) (radix p : Nat) (start t : Int) (s : Significand) : Prop where
  wrapped : r.significandFromBy (.wrapped 64) radix p start = .ok (some s)
  follows : Follows (r.significandFromBy (.checked 64) radix p start) (.ok (some s))
  checked : p < 2 ^ 63 → (p : Int) - 1 - t < 2 ^ 63 →
    r.significandFromBy (.checked 64) radix p start = .ok (some s)
  /-- A scale that fits in its word leaves the digits correctly rounded. -/
  rounded : (p : Int) - 1 - t < 2 ^ 63 → s.CorrectlyRounded radix p |r.toRat| t
  /-- A scale that does not leaves the one digit zero. -/
  lost : 2 ^ 63 ≤ (p : Int) - 1 - t → s = ⟨['0'], t⟩

/-- The digits at the exact scale or at the one that wraps around, as the scale fits. -/
theorem exists_roundedInWords
    (htwo : 2 ≤ radix) (hradix : radix ≤ 16) (hp : 0 < p) (hword : p < 2 ^ 64) (hq : q ≠ 0)
    (ht : FitsWord 64 (Int.log radix |q|)) (start : Int) :
    ∃ s, RoundedInWords (ofRat q) radix p start (Int.log radix |q|) s := by
  have hn : 0 < q.num.natAbs := Int.natAbs_pos.mpr (Rat.num_ne_zero.mpr hq)
  have hrun := fun keep => significandFromBy_eq htwo hp hq keep start
  obtain ⟨hlow, hhigh⟩ := ht
  have hfollows : ∀ s, (ofRat q).significandFromBy (.wrapped 64) radix p start = .ok s →
      Follows ((ofRat q).significandFromBy (.checked 64) radix p start) (.ok s) := by
    intro s hs
    rw [← hs, hrun, hrun]
    exact (scaleBy_follows (keeps_wrapped (by decide)) _ _).map _
  rcases lt_or_ge ((p : Int) - 1 - Int.log radix |q|) (2 ^ 63) with hfits | hbeyond
  · have hscale := scaleBy_wrapped p (Int.log radix |q|)
    rw [signedWord_of_fits (by decide) ⟨by omega, by omega⟩] at hscale
    have hwrapped := hrun (.wrapped 64)
    rw [hscale] at hwrapped
    refine ⟨_, hwrapped, hfollows _ hwrapped, ?checked, fun _ => ?rounded, fun h => ?lost⟩
    case checked =>
      intro hsmall _
      rw [significandFromBy_of_fits htwo hp hsmall hq (keeps_checked 64) ⟨hlow, hhigh⟩ hfits,
        significandFrom_eq htwo hp hq]
      rfl
    case rounded =>
      have hrounded := roundAt_correctlyRounded hn q.den_pos htwo hradix hp
      rw [← abs_eq_terms] at hrounded
      rwa [toRat_ofRat]
    case lost => omega
  · have hscale := scaleBy_wrapped p (Int.log radix |q|)
    rw [signedWord_of_fits_sub (by decide) ⟨by omega, by omega⟩] at hscale
    have hwrapped := hrun (.wrapped 64)
    rw [hscale] at hwrapped
    refine ⟨_, hwrapped, hfollows _ hwrapped, fun _ h => ?checked, fun h => ?rounded, fun _ => ?lost⟩
    case checked => omega
    case rounded => omega
    case lost => exact roundScaled_of_wrapped htwo hradix hp hword q

/--
The digits of a ratio that is not zero, at least one of them.  From any start the
two loops of the search end, the second one at the exponent `t` of the first digit
of the absolute value.  In words of 64 bits the digits are correctly rounded if the
scale for them fits in its word.
-/
theorem significand_rounded_in_words
    {r : Ratio} (hr : LowestTerms r) (hne : r ≠ .zero) (htwo : 2 ≤ radix) (hradix : radix ≤ 16)
    (hp : 0 < p) (hword : p < 2 ^ 64) (start : Int) :
    ∃ t low,
      (radix : ℚ) ^ t ≤ |r.toRat| ∧ |r.toRat| < (radix : ℚ) ^ (t + 1) ∧
      LoopEnds (fun e => powerAtMost r.num.abs r.den.abs radix e = false) (· - 1) start low ∧
      LoopEnds (fun e => powerAtMost r.num.abs r.den.abs radix (e + 1) = true) (· + 1) low t ∧
      (FitsWord 64 t → ∃ s, RoundedInWords r radix p start t s) := by
  obtain ⟨q, rfl⟩ := hr.exists_ofRat
  have hq : q ≠ 0 := by
    rintro rfl
    exact hne ofRat_zero
  have hn : 0 < q.num.natAbs := Int.natAbs_pos.mpr (Rat.num_ne_zero.mpr hq)
  have hdescent := loopEnds_descendExponent hn q.den_pos htwo start
  have hascent := loopEnds_ascendExponent hn q.den_pos htwo
    (descendExponent (.ofNat q.num.natAbs) (.ofNat q.den) radix start)
  rw [show ascendExponent _ _ _ _ = _ from leadingExponent_ofNat hn q.den_pos htwo start,
    ← abs_eq_terms] at hascent
  rw [toRat_ofRat, abs_num_ofRat, abs_den_ofRat]
  exact ⟨_, _, Int.zpow_log_le_self htwo (abs_pos.mpr hq), Int.lt_zpow_succ_log_self htwo _,
    hdescent, hascent, fun ht => exists_roundedInWords htwo hradix hp hword hq ht start⟩

/-- With two digits 0.995 lies in the middle between 0.99 and 1, and is rounded up to 1.0. -/
theorem significand_tie_carried :
    LowestTerms (ofRat (-199 / 200)) ∧ ofRat (-199 / 200) ≠ .zero ∧ 2 ≤ 10 ∧ 10 ≤ 16 ∧ 0 < 2 ∧
      2 < 2 ^ 64 ∧
      (ofRat (-199 / 200)).significandFromBy (.checked 64) 10 2 7 = .ok (some ⟨['1', '0'], 0⟩) := by
  have hterms := lowestTerms_ofRat (-199 / 200)
  have hne : ofRat (-199 / 200) ≠ .zero := ofRat_ne_zero (by norm_num)
  refine ⟨hterms, hne, by decide, by decide, by decide, by decide, ?_⟩
  obtain ⟨t, low, hle, hlt, -, -, hwords⟩ := significand_rounded_in_words hterms hne
    (by decide : 2 ≤ 10) (by decide) (by decide : 0 < 2) (by decide) 7
  have habs : |(-199 / 200 : ℚ)| = 199 / 200 := by norm_num [abs_of_neg]
  rw [toRat_ofRat, habs] at hle hlt
  push_cast at hle hlt
  have hneg : t < 0 := by
    by_contra h
    have hone := one_le_zpow₀ (by norm_num : (1 : ℚ) ≤ 10) (not_lt.mp h)
    linarith
  have hge : -2 < t := by
    by_contra h
    have htenth := zpow_le_zpow_right₀ (by norm_num : (1 : ℚ) ≤ 10) (by omega : t + 1 ≤ -1)
    norm_num at htenth
    linarith
  obtain rfl : t = -1 := by omega
  obtain ⟨⟨digits, exponent⟩, hs⟩ := hwords (by decide)
  have hrounded := hs.rounded (by decide)
  rw [toRat_ofRat, habs] at hrounded
  obtain ⟨-, -, -, ⟨⟨m, hm⟩, hnearest, htie⟩, hexponent⟩ := hrounded
  rw [hm] at hnearest htie hexponent
  norm_num at hnearest htie hexponent
  have hclose := hnearest 100
  have haway := htie 100
  norm_num at hclose haway
  obtain ⟨hlow, hhigh⟩ := abs_le.mp hclose
  have hmin : 99 ≤ m := by exact_mod_cast (by linarith : (99 : ℚ) ≤ m)
  have hmax : m ≤ 100 := by exact_mod_cast (by linarith : (m : ℚ) ≤ 100)
  obtain rfl : m = 100 := by
    by_contra h
    obtain rfl : m = 99 := by omega
    norm_num at haway
  rcases hexponent with ⟨hsmall, -⟩ | ⟨-, rfl, rfl⟩
  · norm_num at hsmall
  · exact hs.checked (by decide) (by decide)

/-- The largest number of digits is read as `-1`, and of one nothing is left. -/
theorem significandBy_one_largest :
    Runs 64 (fun keep => one.significandBy keep 10 (2 ^ 64 - 1)) (some ⟨['0'], 0⟩) := by
  have hlog : Int.log 10 |(1 : ℚ)| = 0 := by
    rw [abs_one, Int.log_one_right]
  have hdigits := roundScaled_of_wrapped (p := 2 ^ 64 - 1) (by decide : 2 ≤ 10) (by decide)
    (by decide) (by decide) 1
  rw [hlog] at hdigits
  refine runs_of_keeps (by decide) fun keep hkeep => ?_
  have hread : signedWord 64 (2 ^ 64 - 1 : Nat) = -1 := by decide +kernel
  have hscale := scaleBy_of_fits (p := 2 ^ 64 - 1) (t := 0) hkeep
  rw [hread] at hscale
  have hrun := significandFromBy_eq (p := 2 ^ 64 - 1) (by decide : 2 ≤ 10) (by decide)
    one_ne_zero keep (estimateExponent one.num.abs one.den.abs 10)
  rw [hlog, hscale (by decide) (by decide) (by decide), ofRat_one] at hrun
  rw [significandBy, hrun]
  exact congrArg (Except.ok ∘ some) hdigits

/--
The digit zero is not the first digit of one, so that the largest number of digits
leaves no correctly rounded ones, in checked words as well.
-/
theorem largest_precision_loses_digits :
    LowestTerms one ∧ one ≠ .zero ∧
      one.significandBy (.checked 64) 10 (2 ^ 64 - 1) = .ok (some ⟨['0'], 0⟩) ∧
      one.significandBy (.wrapped 64) 10 (2 ^ 64 - 1) = .ok (some ⟨['0'], 0⟩) ∧
      ¬Significand.CorrectlyRounded 10 (2 ^ 64 - 1) |one.toRat| 0 ⟨['0'], 0⟩ :=
  ⟨lowestTerms_one, ofRat_one ▸ ofRat_ne_zero one_ne_zero, significandBy_one_largest.1,
    significandBy_one_largest.2, fun h => h.head rfl⟩

end Ratio
end DeskCalculator
