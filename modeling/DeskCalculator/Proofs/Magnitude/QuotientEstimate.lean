import DeskCalculator.Magnitude.Division
import DeskCalculator.Proofs.Magnitude.Value

/-!
# The estimate of a quotient limb

A window `w` and a divisor `v` are seen through their highest limbs: the window
lies between `(u₂ B² + u₁ B + u₀) P` and that plus `P`, the divisor between
`(high B + next) P` and that plus `P`, where `B` is the base and `P` the weight
of the limbs that are not looked at.

An estimate is `Sound` if its rest is what its digit leaves of the two highest
limbs and its digit is not below the quotient.  The first estimate is sound, a
correction keeps it sound and lowers it only if it was too large.  After two
corrections no visible excess is left, and the digit is at most one too large.

**Results.**
* `QuotientEstimate.Sound.correct`: what one correction preserves.
* `estimate_bounds`: the bounds of the estimate that a step of the division
  uses.
-/

namespace DeskCalculator
namespace Magnitude

/-- What the two highest limbs of the divisor and the three of the window say. -/
structure Heads (v : DivisorHead) (u₂ u₁ u₀ : UInt64) (P V W : Nat) : Prop where
  high_lt : v.high.toNat < 2 ^ 32
  next_lt : v.next.toNat < 2 ^ 32
  u₂_le : u₂.toNat ≤ v.high.toNat
  u₁_lt : u₁.toNat < 2 ^ 32
  u₀_lt : u₀.toNat < 2 ^ 32
  /-- The top bit of the divisor is set. -/
  high_ge : 2 ^ 31 ≤ v.high.toNat
  weight_pos : 0 < P
  divisor_ge : (v.high.toNat * 2 ^ 32 + v.next.toNat) * P ≤ V
  divisor_lt : V < (v.high.toNat * 2 ^ 32 + v.next.toNat + 1) * P
  window_ge : ((u₂.toNat * 2 ^ 32 + u₁.toNat) * 2 ^ 32 + u₀.toNat) * P ≤ W
  window_lt : W < ((u₂.toNat * 2 ^ 32 + u₁.toNat) * 2 ^ 32 + u₀.toNat + 1) * P
  /-- The quotient is a limb. -/
  quotient_lt : W < 2 ^ 32 * V

namespace QuotientEstimate

/-- The rest is what the digit leaves, and the digit is not below the quotient. -/
structure Sound (v : DivisorHead) (u₂ u₁ : UInt64) (V W : Nat) (e : QuotientEstimate) :
    Prop where
  split : e.digit.toNat * v.high.toNat + e.rest.toNat = u₂.toNat * 2 ^ 32 + u₁.toNat
  quotient_le : W / V ≤ e.digit.toNat

variable {v : DivisorHead} {u₂ u₁ u₀ : UInt64} {P V W : Nat}

theorem ofTop_word
    (h : Heads v u₂ u₁ u₀ P V W) :
    (u₂ * limbBase + u₁).toNat = u₂.toNat * 2 ^ 32 + u₁.toNat :=
  toNat_mul_limbBase_add (h.u₂_le.trans_lt h.high_lt) h.u₁_lt

/-- The first estimate is sound. -/
theorem sound_ofTop
    (h : Heads v u₂ u₁ u₀ P V W) :
    Sound v u₂ u₁ V W (ofTop v u₂ u₁) := by
  have hword := ofTop_word h
  have hhigh : 0 < v.high.toNat := by
    have := h.high_ge
    omega
  constructor
  · simp only [ofTop, UInt64.toNat_div, UInt64.toNat_mod, hword]
    exact Nat.div_add_mod' _ _
  · simp only [ofTop, UInt64.toNat_div, hword]
    rw [Nat.le_div_iff_mul_le hhigh]
    -- otherwise the quotient times the divisor would exceed the window
    by_contra hlt
    have hstep : u₂.toNat * 2 ^ 32 + u₁.toNat + 1 ≤ W / V * v.high.toNat := by omega
    have hscaled := Nat.mul_le_mul_right (2 ^ 32 * P) hstep
    have hquot : W / V * V ≤ W := Nat.div_mul_le_self W V
    have hdiv := Nat.mul_le_mul_left (W / V) h.divisor_ge
    have hwin := h.window_lt
    have hu₀ := Nat.mul_le_mul_right P (Nat.succ_le_of_lt h.u₀_lt)
    nlinarith [Nat.zero_le (W / V * (v.next.toNat * P))]

/-- An excess in words is one in numbers. -/
theorem tooLarge_iff
    (h : Heads v u₂ u₁ u₀ P V W) (e : QuotientEstimate) :
    TooLarge v u₀ e ↔ e.rest.toNat < 2 ^ 32 ∧
      (2 ^ 32 ≤ e.digit.toNat ∨
        e.rest.toNat * 2 ^ 32 + u₀.toNat < e.digit.toNat * v.next.toNat) := by
  unfold TooLarge
  rw [UInt64.lt_iff_toNat_lt, UInt64.le_iff_toNat_le, UInt64.lt_iff_toNat_lt, toNat_limbBase]
  apply and_congr_right
  intro hrest
  rcases Nat.lt_or_ge e.digit.toNat (2 ^ 32) with hdigit | hdigit
  · have hprod := limb_mul_le hdigit h.next_lt
    rw [toNat_mul_limbBase_add hrest h.u₀_lt, toNat_mul_of_lt (by omega)]
  · exact ⟨fun _ => Or.inl hdigit, fun _ => Or.inl hdigit⟩

/-- An estimate with a visible excess is above the quotient. -/
theorem Sound.quotient_lt_of_tooLarge
    (h : Heads v u₂ u₁ u₀ P V W) {e : QuotientEstimate} (he : Sound v u₂ u₁ V W e)
    (hlarge : TooLarge v u₀ e) :
    W / V < e.digit.toNat := by
  have hpos : 0 < V := Nat.pos_of_ne_zero (by
    rintro rfl
    simpa using h.quotient_lt)
  obtain ⟨hrest, hdigit | hexcess⟩ := (tooLarge_iff h e).mp hlarge
  · have hlimb : W / V < 2 ^ 32 := (Nat.div_lt_iff_lt_mul hpos).mpr h.quotient_lt
    omega
  · rw [Nat.div_lt_iff_lt_mul hpos]
    have hsplit := he.split
    have hscaled : ((u₂.toNat * 2 ^ 32 + u₁.toNat) * 2 ^ 32 + u₀.toNat + 1) ≤
        e.digit.toNat * (v.high.toNat * 2 ^ 32 + v.next.toNat) := by
      rw [← hsplit]
      nlinarith
    calc
      W < ((u₂.toNat * 2 ^ 32 + u₁.toNat) * 2 ^ 32 + u₀.toNat + 1) * P := h.window_lt
      _ ≤ e.digit.toNat * (v.high.toNat * 2 ^ 32 + v.next.toNat) * P :=
        Nat.mul_le_mul_right P hscaled
      _ = e.digit.toNat * ((v.high.toNat * 2 ^ 32 + v.next.toNat) * P) := Nat.mul_assoc _ _ _
      _ ≤ e.digit.toNat * V := Nat.mul_le_mul_left _ h.divisor_ge

/-- What one correction leaves, in numbers. -/
theorem Sound.correct_eq
    (h : Heads v u₂ u₁ u₀ P V W) {e : QuotientEstimate} (he : Sound v u₂ u₁ V W e)
    (hlarge : TooLarge v u₀ e) :
    (e.correct v u₀).digit.toNat = e.digit.toNat - 1 ∧
      (e.correct v u₀).rest.toNat = e.rest.toNat + v.high.toNat := by
  have hlt := he.quotient_lt_of_tooLarge h hlarge
  have hrest := ((tooLarge_iff h e).mp hlarge).1
  have hhigh := h.high_lt
  simp only [QuotientEstimate.correct, if_pos hlarge]
  constructor
  · rw [UInt64.toNat_sub_of_le]
    · rfl
    · rw [UInt64.le_iff_toNat_le, UInt64.toNat_one]
      exact Nat.one_le_of_lt hlt
  · exact toNat_add_of_lt (by omega)

/-- A correction keeps an estimate sound. -/
theorem Sound.correct
    (h : Heads v u₂ u₁ u₀ P V W) {e : QuotientEstimate} (he : Sound v u₂ u₁ V W e) :
    Sound v u₂ u₁ V W (e.correct v u₀) := by
  by_cases hlarge : TooLarge v u₀ e
  · obtain ⟨hdigit, hrest⟩ := he.correct_eq h hlarge
    have hlt := he.quotient_lt_of_tooLarge h hlarge
    constructor
    · obtain ⟨d, hd⟩ := Nat.exists_eq_succ_of_ne_zero (Nat.ne_zero_of_lt hlt)
      have hsplit := he.split
      rw [hdigit, hrest, hd, Nat.succ_sub_one, ← hsplit, hd, Nat.succ_mul]
      omega
    · rw [hdigit]
      exact Nat.le_sub_one_of_lt hlt
  · rwa [QuotientEstimate.correct, if_neg hlarge]

/-- Two corrections leave no visible excess, since each adds half the base to the rest. -/
theorem Sound.not_tooLarge_correct
    (h : Heads v u₂ u₁ u₀ P V W) {e : QuotientEstimate} (he : Sound v u₂ u₁ V W e) :
    ¬TooLarge v u₀ ((e.correct v u₀).correct v u₀) := by
  by_cases hfirst : TooLarge v u₀ e
  · by_cases hsecond : TooLarge v u₀ (e.correct v u₀)
    · obtain ⟨_, hrest⟩ := he.correct_eq h hfirst
      obtain ⟨_, hrest'⟩ := (he.correct h).correct_eq h hsecond
      have hhigh := h.high_ge
      intro hthird
      have := ((tooLarge_iff h _).mp hthird).1
      omega
    · rwa [QuotientEstimate.correct.eq_def v u₀ (e.correct v u₀), if_neg hsecond]
  · have hsame : e.correct v u₀ = e := if_neg hfirst
    rwa [hsame, hsame]

/-- An estimate without visible excess is a limb, and its multiple of two limbs fits below three. -/
theorem Sound.fits
    (h : Heads v u₂ u₁ u₀ P V W) {e : QuotientEstimate} (he : Sound v u₂ u₁ V W e)
    (hfit : ¬TooLarge v u₀ e) :
    e.digit.toNat < 2 ^ 32 ∧
      e.digit.toNat * (v.high.toNat * 2 ^ 32 + v.next.toNat) ≤
        (u₂.toNat * 2 ^ 32 + u₁.toNat) * 2 ^ 32 + u₀.toNat := by
  have hsplit := he.split
  have hu₂ := h.u₂_le
  have hu₁ := h.u₁_lt
  have hnext := h.next_lt
  rw [tooLarge_iff h, not_and_or, not_or, Nat.not_lt, Nat.not_le, Nat.not_lt] at hfit
  have hlimb : e.digit.toNat < 2 ^ 32 := by
    rcases hfit with hrest | ⟨hdigit, _⟩
    · by_contra hge
      have := Nat.mul_le_mul_right v.high.toNat (Nat.le_of_not_lt hge)
      omega
    · exact hdigit
  have hproduct : e.digit.toNat * v.next.toNat ≤ e.rest.toNat * 2 ^ 32 + u₀.toNat := by
    rcases hfit with hrest | ⟨_, hle⟩
    · have := Nat.mul_le_mul hlimb.le hnext.le
      omega
    · exact hle
  refine ⟨hlimb, ?_⟩
  rw [← hsplit]
  linarith

/-- A sound estimate without visible excess is a limb, and at most one too large. -/
theorem Sound.bounds
    (h : Heads v u₂ u₁ u₀ P V W) {e : QuotientEstimate} (he : Sound v u₂ u₁ V W e)
    (hfit : ¬TooLarge v u₀ e) :
    W / V ≤ e.digit.toNat ∧ e.digit.toNat ≤ W / V + 1 ∧ e.digit.toNat < 2 ^ 32 := by
  obtain ⟨hlimb, hfits⟩ := he.fits h hfit
  refine ⟨he.quotient_le, ?_, hlimb⟩
  by_contra hgt
  have hpos : 0 < V := Nat.pos_of_ne_zero (by
    rintro rfl
    simpa using h.quotient_lt)
  have hhigh := h.high_ge
  -- with an excess of two the multiple of the divisor would exceed the window by a limb
  have hmultiple : (W / V + 1) * V ≤ (e.digit.toNat - 1) * V :=
    Nat.mul_le_mul_right V (Nat.le_sub_one_of_lt (Nat.lt_of_not_le hgt))
  have hwindow : W < (e.digit.toNat - 1) * V :=
    (Nat.lt_mul_of_div_lt (Nat.lt_succ_self _) hpos).trans_le hmultiple
  have hhead := Nat.mul_le_mul_right P hfits
  have hbelow := h.window_ge
  have hdigit : 0 < e.digit.toNat := Nat.zero_lt_of_lt (Nat.lt_of_not_le hgt)
  obtain ⟨d, hd⟩ := Nat.exists_eq_succ_of_ne_zero hdigit.ne.symm
  have habove := Nat.mul_lt_mul_of_pos_left h.divisor_lt hdigit
  have hV : V < e.digit.toNat * P := by
    rw [hd, Nat.succ_sub_one] at hwindow
    rw [hd] at hhead habove ⊢
    nlinarith
  have hlarge : 2 ^ 32 * P ≤ V := by
    refine le_trans (Nat.mul_le_mul_right P ?_) h.divisor_ge
    omega
  have := hV.trans_le (Nat.mul_le_mul_right P hlimb.le)
  omega

/-- The estimate of a division step is a limb, and the quotient or one more. -/
theorem estimate_bounds
    (h : Heads v u₂ u₁ u₀ P V W) :
    W / V ≤ (((ofTop v u₂ u₁).correct v u₀).correct v u₀).digit.toNat ∧
      (((ofTop v u₂ u₁).correct v u₀).correct v u₀).digit.toNat ≤ W / V + 1 ∧
      (((ofTop v u₂ u₁).correct v u₀).correct v u₀).digit.toNat < 2 ^ 32 :=
  ((sound_ofTop h).correct h |>.correct h).bounds h ((sound_ofTop h).not_tooLarge_correct h)

end QuotientEstimate
end Magnitude
end DeskCalculator
