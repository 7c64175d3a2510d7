import DeskCalculator.Proofs.Ratio.Binary64
import DeskCalculator.Proofs.Scientific.LowestTerms

/-!
# The domains of the functions

An argument outside the domain of a function is refused with the reason.
Logarithms look at the sign of the ratio itself.  The inverse sine and cosine and
the inverse hyperbolic functions look at the binary64 number that the ratio is
rounded to, and so their domains end where numbers are no longer rounded to one.

**Results.**
* `toFloat_lt_one_iff` and its likes: the binary64 number compared with one.
* `apply_eq_domain_iff`: the size of a result is no matter of its domain.
* `domains_end_near_one`: the arguments that are refused, for every function.
-/

namespace DeskCalculator

open Ratio Binary64

/-! ### Binary64 numbers compared with one -/

namespace Ratio

variable {q : ℚ}

theorem abs_one_lt : |(1 : ℚ)| < 2 ^ 1024 := by
  rw [abs_one]
  exact one_lt_pow₀ one_lt_two (by decide)

theorem toFloat_lt_one_iff
    (q : ℚ) :
    (ofRat q).toFloat < 1.0 ↔ q < 1 - 11 / (2 * 10 ^ 17) := by
  obtain ⟨w, hnonneg, hdenotes, -, hlt⟩ := exists_nearOne q
  rw [hdenotes.lt_iff denotes_one (Or.inr abs_one_lt)]
  split
  · rename_i hneg
    exact iff_of_true (by linarith) (by linarith)
  · rename_i hpos
    rw [hlt, abs_of_nonneg (not_lt.mp hpos)]

theorem one_le_abs_toFloat_iff
    (q : ℚ) :
    1.0 ≤ (ofRat q).toFloat.abs ↔ 1 - 11 / (2 * 10 ^ 17) ≤ |q| := by
  obtain ⟨w, hnonneg, hdenotes, -, hlt⟩ := exists_nearOne q
  have habs : |if q < 0 then -w else w| = w := by
    split
    · rw [abs_neg, abs_of_nonneg hnonneg]
    · exact abs_of_nonneg hnonneg
  rw [denotes_one.le_iff hdenotes.abs (Or.inl abs_one_lt), habs, ← not_lt, hlt, not_lt]

theorem inUnitInterval_toFloat_iff
    (q : ℚ) :
    Scientific.inUnitInterval (ofRat q).toFloat = true ↔ |q| < 1 + 3 / (2 * 10 ^ 16) := by
  obtain ⟨w, hnonneg, hdenotes, hle, -⟩ := exists_nearOne q
  have hminus : |(-1 : ℚ)| < 2 ^ 1024 := (abs_neg (1 : ℚ)).symm ▸ abs_one_lt
  rw [Scientific.inUnitInterval, Bool.and_eq_true, decide_eq_true_iff, decide_eq_true_iff,
    denotes_one.neg.le_iff hdenotes (Or.inl hminus),
    hdenotes.le_iff denotes_one (Or.inr abs_one_lt), ← hle]
  split
  · exact ⟨fun h => by linarith [h.1], fun h => ⟨by linarith, by linarith⟩⟩
  · exact ⟨And.right, fun h => ⟨by linarith, h⟩⟩

end Ratio

namespace Scientific

variable {F : RealFunctions} {f : ScientificFunction} {x : Ratio} {inverse : Bool} {u : AngleUnit}
  {reason : DomainReason} {p : Prop}

/-! ### Errors of the domain -/

/-- A result is an error of the domain in one case only, and for one reason only. -/
def RefusedFor (result : Except CalcError Ratio) (reason : DomainReason) (p : Prop) : Prop :=
  ∀ r, result = .error (.domain r) ↔ r = reason ∧ p

/-- A result is refused for its size only after it was found. -/
theorem RefusedFor.apply
    (h : RefusedFor (value F f x inverse u) reason p) :
    RefusedFor (apply F f x inverse u) reason p := by
  intro r
  rw [← h r, Scientific.apply]
  cases value F f x inverse u with
  | error e => exact Iff.rfl
  | ok s =>
      show s.checkSize = _ ↔ _
      unfold Ratio.checkSize
      split <;> simp

/-- A guard that refuses is the only cause of an error of the domain. -/
theorem refusedFor_guard
    [Decidable p] {result : Except CalcError Ratio}
    (h : ∀ r, result ≠ .error (.domain r)) :
    RefusedFor (if p then .error (.domain reason) else result) reason p := by
  intro r
  split
  · rename_i hp
    simp [hp, eq_comm]
  · rename_i hp
    exact iff_of_false (h r) fun hr => hp hr.2

theorem RefusedFor.congr
    {result : Except CalcError Ratio} {q : Prop} (h : RefusedFor result reason p) (hpq : p ↔ q) :
    RefusedFor result reason q :=
  fun r => (h r).trans (and_congr_right fun _ => hpq)

theorem ofFloat_ne_domain
    (y : Float) (r : DomainReason) :
    ofFloat y ≠ .error (.domain r) := by
  intro h
  cases ofFloat_error h

/-! ### The functions -/

/-- The inverse sine and the inverse cosine have the same guard. -/
theorem unitInterval_refused
    (q : ℚ) (y : Float) :
    RefusedFor
      (if inUnitInterval (ofRat q).toFloat then ofFloat y
        else .error (.domain .outsideUnitInterval))
      .outsideUnitInterval (1 + 3 / (2 * 10 ^ 16) ≤ |q|) := by
  rw [← ite_not]
  refine (refusedFor_guard (ofFloat_ne_domain y)).congr ?_
  rw [inUnitInterval_toFloat_iff, not_lt]

theorem areaCosh_refused
    (F : RealFunctions) (q : ℚ) :
    RefusedFor (areaCosh F (ofRat q)) .acoshBelowOne (q < 1 - 11 / (2 * 10 ^ 17)) :=
  (refusedFor_guard (ofFloat_ne_domain _)).congr (toFloat_lt_one_iff q)

theorem areaTanh_refused
    (F : RealFunctions) (q : ℚ) :
    RefusedFor (areaTanh F (ofRat q)) .atanhOutsideInterval (1 - 11 / (2 * 10 ^ 17) ≤ |q|) :=
  (refusedFor_guard (ofFloat_ne_domain _)).congr (one_le_abs_toFloat_iff q)

/-- The logarithms look at the ratio itself. -/
theorem notPositive_refused
    (q : ℚ) {result : Except CalcError Ratio} (h : ∀ r, result ≠ .error (.domain r)) :
    RefusedFor
      (if (ofRat q).isNegative ∨ (ofRat q).isZero then .error (.domain .logarithmNotPositive)
        else result)
      .logarithmNotPositive (q ≤ 0) := by
  refine (refusedFor_guard h).congr ?_
  rw [isNegative_ofRat, isZero_ofRat, le_iff_lt_or_eq]

theorem ln_refused
    (F : RealFunctions) (q : ℚ) :
    RefusedFor (ln F (ofRat q)) .logarithmNotPositive (q ≤ 0) := by
  refine notPositive_refused q fun r => ?_
  split
  · simp
  · exact ofFloat_ne_domain _ r

theorem log10_refused
    (F : RealFunctions) (q : ℚ) :
    RefusedFor (log10 F (ofRat q)) .logarithmNotPositive (q ≤ 0) := by
  refine notPositive_refused q fun r => ?_
  split
  · simp
  · exact ofFloat_ne_domain _ r

/-- The arguments that are refused, each with its reason. -/
structure Domains (F : RealFunctions) (x : Ratio) (u : AngleUnit) : Prop where
  arcSin : RefusedFor (apply F .sin x true u) .outsideUnitInterval
    (1 + 3 / (2 * 10 ^ 16) ≤ |x.toRat|)
  arcCos : RefusedFor (apply F .cos x true u) .outsideUnitInterval
    (1 + 3 / (2 * 10 ^ 16) ≤ |x.toRat|)
  areaCosh : RefusedFor (apply F .cosh x true u) .acoshBelowOne
    (x.toRat < 1 - 11 / (2 * 10 ^ 17))
  areaTanh : RefusedFor (apply F .tanh x true u) .atanhOutsideInterval
    (1 - 11 / (2 * 10 ^ 17) ≤ |x.toRat|)
  ln : RefusedFor (apply F .ln x false u) .logarithmNotPositive (x.toRat ≤ 0)
  log : RefusedFor (apply F .log x false u) .logarithmNotPositive (x.toRat ≤ 0)

/-- **Domains end near one.** The logarithms refuse what is not above zero.  The
inverse sine and cosine refuse numbers from `1 + 1.5e-16` on in absolute value,
the inverse hyperbolic cosine those below `1 - 5.5e-17`, and the inverse
hyperbolic tangent those from there on. -/
theorem domains_end_near_one
    (hx : LowestTerms x) (F : RealFunctions) (u : AngleUnit) :
    Domains F x u := by
  obtain ⟨q, rfl⟩ := hx.exists_ofRat
  constructor
  all_goals
    rw [toRat_ofRat]
    refine RefusedFor.apply ?_
  case arcSin => exact unitInterval_refused q _
  case arcCos => exact unitInterval_refused q _
  case areaCosh => exact areaCosh_refused F q
  case areaTanh => exact areaTanh_refused F q
  case ln => exact ln_refused F q
  case log => exact log10_refused F q

/-- A ratio just below one: the inverse hyperbolic tangent refuses it, the
inverse hyperbolic cosine does not. -/
theorem hyperbolic_domains_below_one :
    LowestTerms (ofRat (1 - 1 / 10 ^ 17)) ∧
      apply .native .tanh (ofRat (1 - 1 / 10 ^ 17)) true .radians =
        .error (.domain .atanhOutsideInterval) ∧
      ∀ r, apply .native .cosh (ofRat (1 - 1 / 10 ^ 17)) true .radians ≠ .error (.domain r) := by
  have hx := lowestTerms_ofRat (1 - 1 / 10 ^ 17)
  have hdomains := domains_end_near_one hx .native .radians
  refine ⟨hx, (hdomains.areaTanh _).mpr ⟨rfl, ?_⟩, fun r h => ?_⟩
  · rw [toRat_ofRat]
    norm_num [abs_of_pos]
  · have hlt := ((hdomains.areaCosh r).mp h).2
    rw [toRat_ofRat] at hlt
    norm_num at hlt

/-- A ratio just above one is not refused by the inverse sine. -/
theorem arcSin_above_one :
    LowestTerms (ofRat (1 + 1 / 10 ^ 16)) ∧ 1 < |(ofRat (1 + 1 / 10 ^ 16)).toRat| ∧
      ∀ r, apply .native .sin (ofRat (1 + 1 / 10 ^ 16)) true .degrees ≠ .error (.domain r) := by
  have habs : |(1 + 1 / 10 ^ 16 : ℚ)| = 1 + 1 / 10 ^ 16 := abs_of_pos (by norm_num)
  have hguard : RefusedFor (value .native .sin (ofRat (1 + 1 / 10 ^ 16)) true .degrees)
      .outsideUnitInterval (1 + 3 / (2 * 10 ^ 16) ≤ |(1 + 1 / 10 ^ 16 : ℚ)|) :=
    unitInterval_refused _ _
  rw [toRat_ofRat, habs]
  refine ⟨lowestTerms_ofRat _, by norm_num, fun r h => ?_⟩
  have hle := ((hguard.apply r).mp h).2
  rw [habs] at hle
  norm_num at hle

end Scientific
end DeskCalculator
