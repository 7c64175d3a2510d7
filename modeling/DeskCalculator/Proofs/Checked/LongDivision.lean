import DeskCalculator.Proofs.Magnitude.Division

/-!
# Division in exact integers

The division of magnitudes once more, computed in exact integers instead of
words.  Every number that is kept in a word of 64 bits or in a limb has to fit
there, and the result is `none` as soon as one does not:

* the two top limbs of a window, the products and sums of the rows, and the rest
  of an estimate fit in an unsigned word, the differences in a signed one;
* the rest is a limb whenever it is shifted by a limb;
* the corrections are a loop that goes on until no excess is visible or the rest
  is no limb any more, and what it leaves is a limb;
* after the divisor was added back once, nothing is below zero any more.

So `some` as a result says that all this holds in every step.

**Results.**
* `exactDigit_eq`: the loop ends after the two corrections of the estimate.
* `exactSubMulRow_eq`, `exactAddBackRow_eq`: the rows, with their last borrow and carry.
* `exactDivStep_eq`, `exactDivLoop_eq`: the steps.
* `division_within_words`: quotient and remainder, all words in range.
-/

namespace DeskCalculator
namespace Magnitude

/-! ### Numbers that have to fit -/

/-- A natural number that has to fit in an unsigned word of 64 bits. -/
def asWord (n : Nat) : Option Nat :=
  if n < 2 ^ 64 then some n else none

/-- An integer that has to fit in a signed word of 64 bits. -/
def asSignedWord (n : Int) : Option Int :=
  if -2 ^ 63 ≤ n ∧ n < 2 ^ 63 then some n else none

/-- An integer that has to fit in a limb. -/
def asLimb (n : Int) : Option UInt32 :=
  if 0 ≤ n ∧ n < 2 ^ 32 then some (UInt32.ofNat n.toNat) else none

theorem asWord_eq
    {n : Nat} (h : n < 2 ^ 64) :
    asWord n = some n :=
  if_pos h

theorem asSignedWord_eq
    {n : Int} (hlow : -2 ^ 63 ≤ n) (hhigh : n < 2 ^ 63) :
    asSignedWord n = some n :=
  if_pos ⟨hlow, hhigh⟩

theorem asLimb_eq
    {n : Int} {x : UInt32} (h : n = x.toNat) :
    asLimb n = some x := by
  have hx := x.toNat_lt
  rw [asLimb, if_pos (by omega), h, Int.toNat_natCast, UInt32.ofNat_toNat]

/-- The limb of a residue. -/
theorem ofInt_eq
    {t : Int} {x : UInt32} (h : t % 2 ^ 32 = x.toNat) :
    UInt32.ofInt t = x := by
  rw [UInt32.ofInt, h, Int.toNat_natCast, UInt32.ofNat_toNat]

theorem ofNat_eq
    {n : Nat} {x : UInt32} (h : n % 2 ^ 32 = x.toNat) :
    UInt32.ofNat n = x := by
  apply UInt32.toNat_inj.mp
  rw [UInt32.toNat_ofNat', h]

/-! ### The digit of a step -/

/--
Whether the second limb of the divisor shows that an estimate is too large.  The
rest is shifted by a limb to be compared, and must not lose a bit.
-/
def exactTooLarge (next u₀ digit rest : Nat) : Option Bool :=
  if 2 ^ 32 ≤ digit then some true
  else do
    let product ← asWord (digit * next)
    let shifted ← asLimb rest
    return shifted.toNat * 2 ^ 32 + u₀ < product

/--
Lowers an estimate as long as it is visibly too large, and stops when its rest
is no limb any more.  An estimate of zero cannot be lowered.
-/
def exactCorrection (high next u₀ : Nat) : Nat → Nat → Option Nat
  | 0, rest => do
      if ← exactTooLarge next u₀ 0 rest then none else some 0
  | digit + 1, rest => do
      if ← exactTooLarge next u₀ (digit + 1) rest then
        let rest' ← asWord (rest + high)
        if 2 ^ 32 ≤ rest' then some digit else exactCorrection high next u₀ digit rest'
      else some (digit + 1)

/-- The digit that a step tries, which has to be a limb. -/
def exactDigit (high next u₂ u₁ u₀ : Nat) : Option UInt32 := do
  let top ← asWord (u₂ * 2 ^ 32 + u₁)
  if high = 0 then none
  else asLimb (← exactCorrection high next u₀ (top / high) (top % high))

/-! ### Rows -/

/--
Limbs of `w - q * v`, where a carry of the products and a borrow of the
differences are handed on, and whether the last difference is below zero.
-/
def exactSubMulRow (q : Nat) : Magnitude → Magnitude → Nat → Nat → Option (Magnitude × Bool)
  | y :: v, x :: w, carry, borrow => do
      let p ← asWord (q * y.toNat + carry)
      let t ← asSignedWord (x.toNat - borrow - (p % 2 ^ 32 : Nat))
      let (limbs, below) ← exactSubMulRow q v w (p / 2 ^ 32) (if t < 0 then 1 else 0)
      return (UInt32.ofInt t :: limbs, below)
  | [], [x], carry, borrow => do
      let t ← asSignedWord (x.toNat - borrow - carry)
      return ([UInt32.ofInt t], t < 0)
  | _, _, _, _ => none

/-- Limbs of `w + v`, where a carry is handed on, and the carry out of the last limb. -/
def exactAddBackRow : Magnitude → Magnitude → Nat → Option (Magnitude × Nat)
  | y :: v, x :: w, carry => do
      let t ← asWord (x.toNat + y.toNat + carry)
      let (limbs, out) ← exactAddBackRow v w (t / 2 ^ 32)
      return (UInt32.ofNat t :: limbs, out)
  | [], [x], carry => some ([UInt32.ofNat (x.toNat + carry)], (x.toNat + carry) / 2 ^ 32)
  | _, _, _ => none

/--
One limb of the quotient and what is left of the window.  A window below zero
gets the divisor back once, and is then not below zero any more: the carry out
of its top limb takes back the borrow.
-/
def exactDivStep (high next : Nat) (v w : Magnitude) : Option (UInt32 × Magnitude) := do
  let (u₂, u₁, u₀) := topThree w
  let digit ← exactDigit high next u₂.toNat u₁.toNat u₀.toNat
  let (rest, below) ← exactSubMulRow digit.toNat v w 0 0
  if below then
    let lowered ← asLimb (digit.toNat - 1)
    let (restored, carry) ← exactAddBackRow v rest 0
    if carry = 1 then some (lowered, restored.dropLast) else none
  else some (digit, rest.dropLast)

/-- The steps of the long division, from the high end of the dividend. -/
def exactDivLoop (high next : Nat) (v top : Magnitude) :
    Magnitude → Option (Magnitude × Magnitude)
  | [] => some ([], top)
  | x :: low => do
      let (q, r) ← exactDivLoop high next v top low
      let (digit, r') ← exactDivStep high next v (x :: r)
      return (push digit q, r')

/-- Long division of the shifted operands. -/
def exactLongDiv (a b : Magnitude) : Option (Magnitude × Magnitude) := do
  let s := 32 - limbBits (b.getLastD 0)
  let v := (shiftLeftBits (UInt64.ofNat s) b 0).dropLast
  let u := shiftLeftBits (UInt64.ofNat s) a 0
  let (high, next, _) := topThree (0 :: v)
  let split := u.length - v.length
  let (q, r) ← exactDivLoop high.toNat next.toNat v (u.drop split) (u.take split)
  return (q, normalize (shiftRightBits (UInt64.ofNat s) r))

/-- Division by a limb, from the high end of the dividend; every digit has to be a limb. -/
def exactDivModLimbLoop (d : Nat) : Magnitude → Magnitude → Nat → Option (Magnitude × Nat)
  | [], q, r => some (q, r)
  | x :: xs, q, r => do
      let t ← asWord (r * 2 ^ 32 + x.toNat)
      let digit ← asLimb (t / d : Nat)
      exactDivModLimbLoop d xs (push digit q) (t % d)

/-- Quotient and remainder by a limb that is not zero. -/
def exactDivModLimb (a : Magnitude) (d : UInt32) : Option (Magnitude × UInt32) := do
  if d = 0 then none
  else
    let (q, r) ← exactDivModLimbLoop d.toNat a.reverse [] 0
    return (q, ← asLimb r)

/-- Quotient and remainder of two magnitudes. -/
def exactDivMod (a b : Magnitude) : Option (Magnitude × Magnitude) :=
  if b = [] then none
  else if compare a b = .lt then some ([], a)
  else
    match b with
    | [d] => (exactDivModLimb a d).map fun (q, r) => (q, push r [])
    | _ => exactLongDiv a b

/-! ### The digit -/

section

variable {v : DivisorHead} {u₂ u₁ u₀ : UInt64} {P V W : Nat}

open QuotientEstimate

theorem exactTooLarge_eq
    (h : Heads v u₂ u₁ u₀ P V W) (e : QuotientEstimate) (hrest : e.rest.toNat < 2 ^ 32) :
    exactTooLarge v.next.toNat u₀.toNat e.digit.toNat e.rest.toNat =
      some (decide (TooLarge v u₀ e)) := by
  have hnext := h.next_lt
  unfold exactTooLarge
  split
  · rename_i hdigit
    rw [decide_eq_true ((tooLarge_iff h e).mpr ⟨hrest, Or.inl hdigit⟩)]
  · rename_i hdigit
    have hprod := limb_mul_le (Nat.lt_of_not_le hdigit) hnext
    have hlow := toNat_toUInt32_of_lt hrest
    rw [asWord_eq (by omega), asLimb_eq (congrArg Nat.cast hlow.symm)]
    simp only [Option.bind_eq_bind, Option.bind_some, Option.pure_def, hlow]
    rw [Option.some.injEq, decide_eq_decide, tooLarge_iff h, and_iff_right hrest,
      or_iff_right hdigit]

/-- The loop from an estimate, unless its rest is no limb any more. -/
def resumeCorrection (v : DivisorHead) (u₀ : UInt64) (e : QuotientEstimate) : Option Nat :=
  if 2 ^ 32 ≤ e.rest.toNat then some e.digit.toNat
  else exactCorrection v.high.toNat v.next.toNat u₀.toNat e.digit.toNat e.rest.toNat

theorem resumeCorrection_of_not_tooLarge
    (h : Heads v u₂ u₁ u₀ P V W) {e : QuotientEstimate} (hfit : ¬TooLarge v u₀ e) :
    resumeCorrection v u₀ e = some e.digit.toNat := by
  unfold resumeCorrection
  split
  · rfl
  · rename_i hrest
    have htest := exactTooLarge_eq h e (by omega)
    rw [decide_eq_false hfit] at htest
    generalize e.digit.toNat = digit at *
    cases digit <;> simp [exactCorrection, htest]

/-- One turn of the loop is one correction. -/
theorem resumeCorrection_correct
    (h : Heads v u₂ u₁ u₀ P V W) {e : QuotientEstimate} (he : Sound v u₂ u₁ V W e) :
    resumeCorrection v u₀ (e.correct v u₀) = resumeCorrection v u₀ e := by
  by_cases hlarge : TooLarge v u₀ e
  · have hrest := ((tooLarge_iff h e).mp hlarge).1
    have hhigh := h.high_lt
    have hpos := he.quotient_lt_of_tooLarge h hlarge
    obtain ⟨hdigit, hsum⟩ := he.correct_eq h hlarge
    have htest := exactTooLarge_eq h e hrest
    rw [decide_eq_true hlarge] at htest
    have hword : asWord (e.rest.toNat + v.high.toNat) = some (e.rest.toNat + v.high.toNat) :=
      asWord_eq (by omega)
    unfold resumeCorrection
    rw [if_neg (show ¬2 ^ 32 ≤ e.rest.toNat by omega), hdigit, hsum]
    obtain ⟨d, hd⟩ := Nat.exists_eq_succ_of_ne_zero (Nat.ne_zero_of_lt hpos)
    rw [hd] at htest ⊢
    simp only [exactCorrection, Nat.succ_eq_add_one, Nat.add_sub_cancel] at htest ⊢
    rw [htest]
    simp only [Option.bind_eq_bind, Option.bind_some, if_true, hword]
  · rw [QuotientEstimate.correct, if_neg hlarge]

/-- Two turns of the loop are enough, and leave a limb. -/
theorem exactDigit_eq
    (h : Heads v u₂ u₁ u₀ P V W) :
    exactDigit v.high.toNat v.next.toNat u₂.toNat u₁.toNat u₀.toNat =
      some (((ofTop v u₂ u₁).correct v u₀).correct v u₀).digit.toUInt32 := by
  have hsound := sound_ofTop h
  have hhigh := h.high_ge
  have hhighlt := h.high_lt
  have hu₂ := h.u₂_le
  have hu₁ := h.u₁_lt
  have hlimb := (estimate_bounds h).2.2
  have hrest : (ofTop v u₂ u₁).rest.toNat = (u₂.toNat * 2 ^ 32 + u₁.toNat) % v.high.toNat := by
    simp only [ofTop, UInt64.toNat_mod, ofTop_word h]
  have hdigit : (ofTop v u₂ u₁).digit.toNat = (u₂.toNat * 2 ^ 32 + u₁.toNat) / v.high.toNat := by
    simp only [ofTop, UInt64.toNat_div, ofTop_word h]
  have hmod := Nat.mod_lt (u₂.toNat * 2 ^ 32 + u₁.toNat) (by omega : 0 < v.high.toNat)
  have hloop : exactCorrection v.high.toNat v.next.toNat u₀.toNat
      ((u₂.toNat * 2 ^ 32 + u₁.toNat) / v.high.toNat)
      ((u₂.toNat * 2 ^ 32 + u₁.toNat) % v.high.toNat) =
        some (((ofTop v u₂ u₁).correct v u₀).correct v u₀).digit.toNat := by
    have hresume := resumeCorrection_of_not_tooLarge h (hsound.not_tooLarge_correct h)
    rw [resumeCorrection_correct h (hsound.correct h), resumeCorrection_correct h hsound,
      resumeCorrection, if_neg (by omega), hrest, hdigit] at hresume
    exact hresume
  unfold exactDigit
  rw [asWord_eq (by omega)]
  simp only [Option.bind_eq_bind, Option.bind_some]
  rw [if_neg (by omega), hloop, Option.bind_some]
  exact asLimb_eq (congrArg Nat.cast (toNat_toUInt32_of_lt hlimb).symm)

end

/-! ### Rows -/

/-- The row of the differences, and when it is below zero. -/
theorem exactSubMulRow_eq
    {q : UInt64} (hq : q.toNat < 2 ^ 32) (v w : Magnitude) {c : UInt64} {carry borrow : Nat}
    (hc : c.toNat = carry + borrow) (hlt : c.toNat < 2 ^ 32) (hborrow : borrow ≤ 1)
    (hlen : w.length = v.length + 1) :
    exactSubMulRow q.toNat v w carry borrow =
      some (subMulRow q v w c, decide (toNat w < q.toNat * toNat v + c.toNat)) := by
  induction v generalizing w c carry borrow with
  | nil =>
      obtain ⟨x, rfl⟩ := List.length_eq_one_iff.mp hlen
      have hx := x.toNat_lt
      have hlow := toNat_toUInt32_of_lt hlt
      have hsub := UInt32.toNat_sub x c.toUInt32
      rw [exactSubMulRow, asSignedWord_eq (by omega) (by omega)]
      simp only [Option.bind_eq_bind, Option.bind_some, subMulRow]
      rw [ofInt_eq (x := x - c.toUInt32) (by omega)]
      show some _ = some _
      congr 2
      rw [decide_eq_decide, toNat_cons, toNat_nil]
      omega
  | cons y ys ih =>
      cases w with
      | nil =>
          cases hlen
      | cons x xs =>
          have hx := x.toNat_lt
          have hy := y.toNat_lt
          have hprod := limb_mul_le hq hy
          obtain ⟨hcarry, hdigit⟩ := subMulWord_spec x y hq hlt rfl
          rw [exactSubMulRow, asWord_eq (by omega)]
          simp only [Option.bind_eq_bind, Option.bind_some, subMulRow]
          generalize hp : q * y.toUInt64 + c = p at *
          generalize hc' : (p >>> 32) + (if x < p.toUInt32 then 1 else 0) = c' at *
          have hlimb := (x - p.toUInt32).toNat_lt
          generalize hm : q.toNat * y.toNat = m at *
          rw [asSignedWord_eq (by omega) (by omega), Option.bind_some]
          rw [ih xs (c := c') (by split <;> omega) hcarry (by split <;> omega) (Nat.succ.inj hlen)]
          rw [ofInt_eq (x := x - p.toUInt32) (by omega)]
          simp only [Option.bind_some, Option.pure_def, Option.some.injEq, Prod.mk.injEq, true_and]
          rw [decide_eq_decide, toNat_cons, toNat_cons, Nat.mul_add, hm, Nat.mul_left_comm]
          omega

/-- The row of the sums, and when a carry leaves it. -/
theorem exactAddBackRow_eq
    (v w : Magnitude) {c : UInt64} (hc : c.toNat ≤ 1) (hlen : w.length = v.length + 1) :
    exactAddBackRow v w c.toNat =
      some (addBackRow v w c, (toNat w + toNat v + c.toNat) / 2 ^ (32 * w.length)) := by
  induction v generalizing w c with
  | nil =>
      obtain ⟨x, rfl⟩ := List.length_eq_one_iff.mp hlen
      have hlow := toNat_toUInt32_of_lt (show c.toNat < 2 ^ 32 by omega)
      have hadd := UInt32.toNat_add x c.toUInt32
      rw [exactAddBackRow, addBackRow, ofNat_eq (x := x + c.toUInt32) (by omega)]
      · simp
      · simp
  | cons y ys ih =>
      cases w with
      | nil =>
          cases hlen
      | cons x xs =>
          have hx := x.toNat_lt
          have hy := y.toNat_lt
          have hword := sumWord_eq x y hc
          have hhalves := word_halves (x.toUInt64 + y.toUInt64 + c)
          have hhigh := sumWord_high_le x y hc
          rw [exactAddBackRow, asWord_eq (by omega)]
          simp only [Option.bind_eq_bind, Option.bind_some, addBackRow]
          generalize x.toUInt64 + y.toUInt64 + c = t at *
          have hlow := t.toUInt32.toNat_lt
          rw [show (x.toNat + y.toNat + c.toNat) / 2 ^ 32 = (t >>> 32).toNat by omega,
            ih xs hhigh (Nat.succ.inj hlen), ofNat_eq (x := t.toUInt32) (by omega)]
          simp only [Option.bind_some, Option.pure_def, Option.some.injEq, Prod.mk.injEq, true_and]
          rw [toNat_cons, toNat_cons, List.length_cons, Nat.mul_succ, Nat.add_comm (32 * xs.length),
            Nat.pow_add, ← Nat.div_div_eq_div_mul]
          have hshifted : (x.toNat + 2 ^ 32 * toNat xs + (y.toNat + 2 ^ 32 * toNat ys) + c.toNat) /
              2 ^ 32 = toNat xs + toNat ys + (t >>> 32).toNat := by omega
          rw [hshifted]

/-! ### Steps -/

section

variable {vlow : Magnitude} {n h : UInt32}

/-- A step keeps within its words, and adds the divisor back once at most. -/
theorem exactDivStep_eq
    {w : Magnitude} (hh : 2 ^ 31 ≤ h.toNat) (hlen : w.length = vlow.length + 3)
    (hlt : toNat w < 2 ^ 32 * toNat (vlow ++ [n, h])) :
    exactDivStep h.toUInt64.toNat n.toUInt64.toNat (vlow ++ [n, h]) w =
      some (divStep ⟨h.toUInt64, n.toUInt64⟩ (vlow ++ [n, h]) w) := by
  obtain ⟨wlow, u₀, u₁, u₂, rfl, hwlow⟩ := exists_append_three w hlen
  have hheads := heads_of_append hwlow hh hlt
  obtain ⟨hge, hle, hlimb⟩ := QuotientEstimate.estimate_bounds hheads
  have hdigit := exactDigit_eq hheads
  have hVlen : (vlow ++ [n, h]).length = vlow.length + 2 := by simp
  rw [exactDivStep, divStep, topThree_append]
  dsimp only at hdigit ⊢
  rw [hdigit]
  generalize vlow ++ [n, h] = V at *
  generalize wlow ++ [u₀, u₁, u₂] = W at *
  generalize (((QuotientEstimate.ofTop ⟨h.toUInt64, n.toUInt64⟩ u₂.toUInt64
    u₁.toUInt64).correct ⟨h.toUInt64, n.toUInt64⟩ u₀.toUInt64).correct
      ⟨h.toUInt64, n.toUInt64⟩ u₀.toUInt64) = e at *
  have hrow : W.length = V.length + 1 := by omega
  have hsublen := length_subMulRow e.digit V W 0 hrow
  have hsubrow := exactSubMulRow_eq hlimb V W
    (show (0 : UInt64).toNat = 0 + 0 from UInt64.toNat_zero) (by decide) (by decide) hrow
  rw [UInt64.toNat_zero, Nat.add_zero] at hsubrow
  simp only [Option.bind_eq_bind, Option.bind_some, toNat_toUInt32_of_lt hlimb]
  rw [hsubrow, Option.bind_some]
  rcases subMulRow_cases hrow hlt hge hle hlimb with
    ⟨-, hfits, -, hzero⟩ | ⟨hexcess, hexceeds, hsub, hnonzero⟩
  · rw [if_pos hzero, decide_eq_false (Nat.not_lt.mpr hfits)]
    simp only [Bool.false_eq_true, if_false]
  · have hpos : 1 ≤ e.digit.toNat := hexcess ▸ Nat.le_add_left _ _
    have hless : (e.digit - 1).toNat = e.digit.toNat - 1 := by
      rw [UInt64.toNat_sub_of_le, UInt64.toNat_one]
      rwa [UInt64.le_iff_toNat_le, UInt64.toNat_one]
    have hlowered : asLimb ((e.digit.toNat : Int) - 1) = some (e.digit - 1).toUInt32 :=
      asLimb_eq (by rw [toNat_toUInt32_of_lt] <;> omega)
    have haddrow := exactAddBackRow_eq V (subMulRow e.digit V W 0) (c := 0) (by decide)
      (hsublen.trans hrow)
    have hrem := Nat.mod_lt (toNat W) (Nat.pos_of_mul_pos_left (Nat.zero_lt_of_lt hlt))
    have hVlt : toNat V < 2 ^ (32 * W.length) :=
      (toNat_lt V).trans_le (Nat.pow_le_pow_right (by decide) (by omega))
    have hcarry : (toNat (subMulRow e.digit V W 0) + toNat V) / 2 ^ (32 * W.length) = 1 := by
      rw [hsub, Nat.add_div_right _ (Nat.two_pow_pos _), Nat.div_eq_of_lt (hrem.trans hVlt)]
    rw [UInt64.toNat_zero, Nat.add_zero, hsublen, hcarry] at haddrow
    rw [if_neg hnonzero, decide_eq_true hexceeds, hlowered, haddrow]
    simp only [Option.bind_some, if_true]

theorem exactDivLoop_cons
    {high next : Nat} {v top low q r r' : Magnitude} {x digit : UInt32}
    (hloop : exactDivLoop high next v top low = some (q, r))
    (hstep : exactDivStep high next v (x :: r) = some (digit, r')) :
    exactDivLoop high next v top (x :: low) = some (push digit q, r') := by
  rw [exactDivLoop, hloop, Option.bind_eq_bind, Option.bind_some]
  dsimp only
  rw [hstep, Option.bind_eq_bind, Option.bind_some]
  dsimp only
  rw [Option.pure_def]

/-- The window of every step is below the divisor times the base. -/
theorem exactDivLoop_eq
    (hh : 2 ^ 31 ≤ h.toNat) {top : Magnitude} (hlen : top.length = (vlow ++ [n, h]).length)
    (hlt : toNat top < toNat (vlow ++ [n, h])) (low : Magnitude) :
    exactDivLoop h.toUInt64.toNat n.toUInt64.toNat (vlow ++ [n, h]) top low =
      some (divLoop ⟨h.toUInt64, n.toUInt64⟩ (vlow ++ [n, h]) top low) := by
  induction low with
  | nil => rfl
  | cons x low ih =>
      obtain ⟨-, hrlen, hrlt, -⟩ := divLoop_spec hh hlen hlt low
      rw [divLoop]
      generalize divLoop ⟨h.toUInt64, n.toUInt64⟩ (vlow ++ [n, h]) top low = rest at *
      obtain ⟨q, r⟩ := rest
      dsimp only at hrlen hrlt
      obtain ⟨hwlen, hwindow⟩ := window_spec x hrlen hrlt
      exact exactDivLoop_cons ih (exactDivStep_eq hh hwlen hwindow)

end

/-- The shifted operands meet the invariant of the steps. -/
theorem exactLongDiv_eq
    {a b : Magnitude} (hb : Normalized b) (hlen : 2 ≤ b.length) (hle : b.length ≤ a.length) :
    exactLongDiv a b = some (longDiv a b) := by
  obtain ⟨vlow, n, h, t, s, top, low, hshift, hv, ht, hhigh, hrest, -, hh, -, -, htoplen, htop⟩ :=
    exists_shifted_operands hb hlen hle
  simp only [exactLongDiv, longDiv, hshift, hv, ht, hhigh, hrest,
    exactDivLoop_eq hh htoplen htop low, Option.bind_eq_bind, Option.bind_some, Option.pure_def]

/-! ### Division -/

/-- The remainder stays below the divisor, so that no digit outgrows a limb. -/
theorem exactDivModLimbLoop_eq
    {d : UInt64} (hd : d.toNat < 2 ^ 32) (digits q : Magnitude) {r : UInt64}
    (hr : r.toNat < d.toNat) :
    exactDivModLimbLoop d.toNat digits q r.toNat =
      some ((divModLimbLoop d digits q r).1, (divModLimbLoop d digits q r).2.toNat) := by
  induction digits generalizing q r with
  | nil => rfl
  | cons x xs ih =>
      have hx := x.toNat_lt
      obtain ⟨hdigit, hrest⟩ := divModLimbWord_spec x hd hr
      have hmod : ((r * limbBase + x.toUInt64) % d).toNat < d.toNat := by
        rw [hrest]
        exact Nat.mod_lt _ (by omega)
      rw [exactDivModLimbLoop, asWord_eq (by omega), Option.bind_eq_bind, Option.bind_some,
        asLimb_eq (congrArg Nat.cast hdigit.symm), Option.bind_eq_bind, Option.bind_some, ← hrest,
        ih _ hmod, divModLimbLoop_cons]

theorem exactDivModLimb_eq
    (a : Magnitude) {d : UInt32} (hd : d ≠ 0) :
    exactDivModLimb a d = some (divModLimb a d) := by
  have hpos : (0 : UInt64).toNat < d.toUInt64.toNat := by
    rw [UInt64.toNat_zero, UInt32.toNat_toUInt64]
    exact Nat.pos_of_ne_zero fun h => hd (UInt32.toNat_inj.mp h)
  have hloop := exactDivModLimbLoop_eq (toNat_toUInt64_lt d) a.reverse [] hpos
  have hrem := (divModLimbLoop_spec (toNat_toUInt64_lt d) a.reverse normalized_nil hpos).2.1
  rw [UInt64.toNat_zero, UInt32.toNat_toUInt64] at hloop
  rw [UInt32.toNat_toUInt64] at hrem
  unfold exactDivModLimb divModLimb
  generalize divModLimbLoop d.toUInt64 a.reverse [] 0 = result at *
  obtain ⟨q, r⟩ := result
  have hlimb : asLimb r.toNat = some r.toUInt32 :=
    asLimb_eq (congrArg Nat.cast (toNat_toUInt32_of_lt (hrem.trans d.toNat_lt)).symm)
  rw [if_neg hd, hloop, Option.bind_eq_bind, Option.bind_some]
  dsimp only
  rw [hlimb, Option.bind_eq_bind, Option.bind_some, Option.pure_def]

theorem exactDivMod_eq
    {a b : Magnitude} (ha : Normalized a) (hb : Normalized b) (hne : b ≠ []) :
    exactDivMod a b = some (divMod a b) := by
  unfold exactDivMod divMod
  rw [if_neg hne]
  by_cases hlt : compare a b = .lt
  · rw [if_pos hlt, if_pos (Or.inr hlt)]
  · rw [if_neg hlt, if_neg (not_or.mpr ⟨hne, hlt⟩)]
    rw [ha.compare_eq_lt hb, Nat.not_lt] at hlt
    rcases b with - | ⟨d, - | ⟨d', ds⟩⟩
    · exact absurd rfl hne
    · have hd : d ≠ 0 := (normalized_cons_iff.mp hb).2 rfl
      simp only [exactDivModLimb_eq a hd, Option.map_some]
    · refine exactLongDiv_eq hb (by simp) (Nat.le_of_not_lt fun hshort => ?_)
      have := hb.toNat_lt_of_length_lt hshort
      omega

/--
Quotient and remainder of normalized magnitudes are normalized and the exact
ones, and every intermediate number of the division fits in its word.
-/
theorem division_within_words
    {a b : Magnitude} (ha : Normalized a) (hb : Normalized b) (hne : b ≠ []) :
    ∃ q r, divMod a b = (q, r) ∧ Normalized q ∧ Normalized r ∧
      toNat a = toNat q * toNat b + toNat r ∧ toNat r < toNat b ∧
      exactDivMod a b = some (q, r) := by
  obtain ⟨hq, hquot, hr, hrem⟩ := divMod_spec ha hb
  refine ⟨(divMod a b).1, (divMod a b).2, rfl, hq, hr, ?_, ?_, exactDivMod_eq ha hb hne⟩
  · rw [hquot, hrem, Nat.div_add_mod']
  · rw [hrem]
    exact Nat.mod_lt _ (hb.toNat_pos hne)

/-- The digit that is tried is 4, and the divisor is added back. -/
theorem division_added_back :
    Normalized [3, 0, 0x80000000] ∧ Normalized [1, 0, 0x20000000] ∧ [1, 0, 0x20000000] ≠ [] ∧
      exactDigit 0x80000000 0 2 0 0 = some 4 ∧
      exactDivMod [3, 0, 0x80000000] [1, 0, 0x20000000] = some ([3], [0, 0, 0x20000000]) := by
  have hdiv : divMod [3, 0, 0x80000000] [1, 0, 0x20000000] = ([3], [0, 0, 0x20000000]) := by
    decide +kernel
  obtain ⟨q, r, hqr, -, -, -, -, hexact⟩ := division_within_words
    (a := [3, 0, 0x80000000]) (b := [1, 0, 0x20000000]) (by decide) (by decide) (by decide)
  refine ⟨by decide, by decide, by decide, by decide +kernel, ?_⟩
  rw [hexact, ← hqr, hdiv]

end Magnitude
end DeskCalculator
