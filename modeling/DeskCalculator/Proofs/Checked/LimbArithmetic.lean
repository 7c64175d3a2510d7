import DeskCalculator.Proofs.Checked.LongDivision
import DeskCalculator.Proofs.Magnitude.Product
import DeskCalculator.Proofs.Magnitude.Sum

/-!
# Limb arithmetic in exact integers

Sums, differences, products, shifts and powers of magnitudes once more, computed
in exact integers instead of words.  As for the long division, the result is
`none` as soon as a number does not fit where it is kept:

* the sums and products of a step fit in an unsigned word of 64 bits, and the
  differences of a step in a signed one;
* what is put down as a limb is a limb, and the last carry is one, too;
* nothing is left to be borrowed at the high end of a difference.

A product with a factor of one limb is a multiple by that limb, and the rows of
zero limbs are skipped.

**Results.**
* `emitLimb_eq`: a step whose word splits into a limb and a carry.
* `exactAdd_eq`, `exactSub_eq`, `exactMul_eq`, `exactShiftLeft_eq`,
  `exactShiftRight_eq`, `exactRadixPow_eq`: all numbers fit.
* `limb_arithmetic_exact`: all operations, with the values of their results.
-/

namespace DeskCalculator
namespace Magnitude

/-! ### Steps -/

/-- Puts down the low half of a word, before the limbs that are computed from its high half. -/
def emitLimb (n : Nat) (rest : Nat → Option Magnitude) : Option Magnitude := do
  let t ← asWord n
  return UInt32.ofNat t :: (← rest (t / 2 ^ 32))

/-- The carry at the high end, put down unless it is zero. -/
def emitCarry (c : Nat) : Option Magnitude :=
  if c = 0 then some [] else do return [← asLimb c]

/-- A step puts down the low half of its word and goes on with the high half. -/
theorem emitLimb_eq
    {n : Nat} {t : UInt64} {rest : Nat → Option Magnitude} {r : Magnitude}
    (hword : t.toNat = n) (hrest : rest (t >>> 32).toNat = some r) :
    emitLimb n rest = some (t.toUInt32 :: r) := by
  subst hword
  have hhalves := word_halves t
  have hlow := t.toUInt32.toNat_lt
  have hhigh : t.toNat / 2 ^ 32 = (t >>> 32).toNat := by omega
  rw [emitLimb, asWord_eq t.toNat_lt, Option.bind_eq_bind, Option.bind_some, hhigh, hrest,
    ofNat_eq (x := t.toUInt32) (by omega)]
  rfl

theorem asLimb_toUInt32
    {c : UInt64} (hc : c.toNat < 2 ^ 32) :
    asLimb c.toNat = some c.toUInt32 :=
  asLimb_eq (congrArg Nat.cast (toNat_toUInt32_of_lt hc).symm)

theorem emitCarry_eq
    {c : UInt64} (hc : c.toNat < 2 ^ 32) :
    emitCarry c.toNat = some (if c = 0 then [] else [c.toUInt32]) := by
  have hzero : c.toNat = 0 ↔ c = 0 := UInt64.toNat_inj (b := 0)
  unfold emitCarry
  simp only [hzero, asLimb_toUInt32 hc]
  split <;> rfl

/-! ### Sums -/

/-- A magnitude and a carry. -/
def exactAddCarry : Magnitude → Nat → Option Magnitude
  | [], c => emitCarry c
  | x :: xs, c =>
      if c = 0 then some (x :: xs)
      else emitLimb (x.toNat + c) fun c' => exactAddCarry xs c'

/-- Two magnitudes and a carry. -/
def exactAddWithCarry : Magnitude → Magnitude → Nat → Option Magnitude
  | [], ys, c => exactAddCarry ys c
  | x :: xs, [], c => exactAddCarry (x :: xs) c
  | x :: xs, y :: ys, c =>
      emitLimb (x.toNat + y.toNat + c) fun c' => exactAddWithCarry xs ys c'

/-- The sum of two magnitudes. -/
def exactAdd (a b : Magnitude) : Option Magnitude :=
  exactAddWithCarry a b 0

/-- The sum of a magnitude and a limb. -/
def exactAddLimb (a : Magnitude) (x : UInt32) : Option Magnitude :=
  exactAddCarry a x.toNat

theorem exactAddCarry_eq
    (a : Magnitude) {c : UInt64} (hc : c.toNat < 2 ^ 32) :
    exactAddCarry a c.toNat = some (addCarry a c) := by
  induction a generalizing c with
  | nil => exact emitCarry_eq hc
  | cons x xs ih =>
      have hzero : c.toNat = 0 ↔ c = 0 := UInt64.toNat_inj (b := 0)
      rw [exactAddCarry, addCarry]
      simp only [hzero]
      split
      · rfl
      · exact emitLimb_eq (addWord_eq x hc) (ih (word_high_lt _))

/-- The carry out of two limbs is one at most. -/
theorem exactAddWithCarry_eq
    (a b : Magnitude) {c : UInt64} (hc : c.toNat ≤ 1) :
    exactAddWithCarry a b c.toNat = some (addWithCarry a b c) := by
  induction a generalizing b c with
  | nil =>
      rw [exactAddWithCarry, addWithCarry]
      exact exactAddCarry_eq b (by omega)
  | cons x xs ih =>
      cases b with
      | nil =>
          rw [exactAddWithCarry, addWithCarry]
          exact exactAddCarry_eq _ (by omega)
      | cons y ys =>
          rw [exactAddWithCarry, addWithCarry]
          exact emitLimb_eq (sumWord_eq x y hc) (ih ys (sumWord_high_le x y hc))

theorem exactAdd_eq
    (a b : Magnitude) :
    exactAdd a b = some (add a b) :=
  exactAddWithCarry_eq a b (c := 0) (by decide)

theorem exactAddLimb_eq
    (a : Magnitude) (x : UInt32) :
    exactAddLimb a x = some (addLimb a x) := by
  rw [exactAddLimb, addLimb, ← UInt32.toNat_toUInt64]
  exact exactAddCarry_eq a (toNat_toUInt64_lt x)

/-! ### Differences -/

/-- The limb of a difference, which is below zero at most by the base and then gets the base. -/
def exactDifference (t : Int) : Option UInt32 := do
  let t ← asSignedWord t
  if t < 0 then asLimb (← asSignedWord (t + 2 ^ 32)) else asLimb t

/--
Limbs of `a - b - borrow`, as many as `a` has.  A difference below zero borrows
from the next limb.
-/
def exactSubWithBorrow : Magnitude → Magnitude → Nat → Option Magnitude
  | [], _, borrow => if borrow = 0 then some [] else none
  | x :: xs, ys, borrow => do
      let t : Int := x.toNat - (ys.headD 0).toNat - borrow
      let limb ← exactDifference t
      return limb :: (← exactSubWithBorrow xs ys.tail (if t < 0 then 1 else 0))

/-- The difference of two magnitudes, of which the second must not be above the first. -/
def exactSub (a b : Magnitude) : Option Magnitude :=
  if compare a b = .lt then none else (exactSubWithBorrow a b 0).map normalize

/-- The word of a difference is the difference and the base. -/
theorem subWord_lt_iff
    (x y : UInt32) {borrow : UInt64} (hb : borrow.toNat ≤ 1) :
    x.toUInt64 + limbBase - y.toUInt64 - borrow < limbBase ↔
      (x.toNat : Int) - y.toNat - borrow.toNat < 0 := by
  have hx := x.toNat_lt
  have hy := y.toNat_lt
  rw [UInt64.lt_iff_toNat_lt, subWord_eq x y hb, toNat_limbBase]
  omega

/-- Its low half is the limb. -/
theorem exactDifference_eq
    (x y : UInt32) {borrow : UInt64} (hb : borrow.toNat ≤ 1) :
    exactDifference (x.toNat - y.toNat - borrow.toNat) =
      some (x.toUInt64 + limbBase - y.toUInt64 - borrow).toUInt32 := by
  have hx := x.toNat_lt
  have hy := y.toNat_lt
  have hlimb := UInt64.toNat_toUInt32 (x.toUInt64 + limbBase - y.toUInt64 - borrow)
  rw [subWord_eq x y hb] at hlimb
  rw [exactDifference, asSignedWord_eq (by omega) (by omega), Option.bind_eq_bind,
    Option.bind_some]
  split
  · rw [asSignedWord_eq (by omega) (by omega), Option.bind_some]
    exact asLimb_eq (by omega)
  · exact asLimb_eq (by omega)

/-- Nothing is left to be borrowed if the difference is not negative. -/
theorem exactSubWithBorrow_eq
    (a b : Magnitude) {borrow : UInt64} (hb : borrow.toNat ≤ 1)
    (hle : toNat b + borrow.toNat ≤ toNat a) :
    exactSubWithBorrow a b borrow.toNat = some (subWithBorrow a b borrow) := by
  induction a generalizing b borrow with
  | nil =>
      rw [toNat_nil] at hle
      rw [exactSubWithBorrow, subWithBorrow, if_pos (by omega)]
  | cons x xs ih =>
      have hx := x.toNat_lt
      have hy := (b.headD 0).toNat_lt
      have hparts := toNat_headD_tail b
      rw [toNat_cons] at hle
      rw [exactSubWithBorrow, subWithBorrow]
      simp only [exactDifference_eq x (b.headD 0) hb, subWord_lt_iff x (b.headD 0) hb,
        Option.bind_eq_bind, Option.bind_some]
      split
      · have hrest := ih b.tail (UInt64.toNat_one.le) (by rw [UInt64.toNat_one]; omega)
        rw [UInt64.toNat_one] at hrest
        rw [hrest]
        rfl
      · have hrest := ih b.tail (UInt64.toNat_zero.le.trans (by decide))
          (by rw [UInt64.toNat_zero]; omega)
        rw [UInt64.toNat_zero] at hrest
        rw [hrest]
        rfl

theorem exactSub_eq
    {a b : Magnitude} (ha : Normalized a) (hb : Normalized b) (hle : toNat b ≤ toNat a) :
    exactSub a b = some (sub a b) := by
  have hnot : ¬compare a b = .lt := by
    rw [ha.compare_eq_lt hb]
    omega
  have hlimbs : exactSubWithBorrow a b (0 : UInt64).toNat = some (subWithBorrow a b 0) :=
    exactSubWithBorrow_eq a b (by decide) (by simpa using hle)
  rw [UInt64.toNat_zero] at hlimbs
  rw [exactSub, if_neg hnot, hlimbs]
  rfl

/-! ### Products -/

/-- Limbs of `m * a + c`. -/
def exactMulLimbWithCarry (m : Nat) : Magnitude → Nat → Option Magnitude
  | [], c => emitCarry c
  | x :: xs, c => emitLimb (x.toNat * m + c) fun c' => exactMulLimbWithCarry m xs c'

/-- The product of a magnitude and a limb. -/
def exactMulLimb (a : Magnitude) (m : UInt32) : Option Magnitude :=
  if m = 0 then some [] else exactMulLimbWithCarry m.toNat a 0

/-- Limbs of `m * b + acc + c`, one more than `b` and `acc` have. -/
def exactMulRow (m : Nat) : Magnitude → Magnitude → Nat → Option Magnitude
  | y :: ys, a :: acc, c =>
      emitLimb (m * y.toNat + a.toNat + c) fun c' => exactMulRow m ys acc c'
  | [], [], c => do return [← asLimb c]
  | _, _, _ => none

/-- Limbs of `x * b + acc`; a zero limb leaves what was accumulated. -/
def exactRow (x : UInt32) (b acc : Magnitude) : Option Magnitude :=
  if x = 0 then some (acc ++ [0]) else exactMulRow x.toNat b acc 0

/-- Limbs of `a * b + acc`, row by row. -/
def exactMulRows (b : Magnitude) : Magnitude → Magnitude → Option Magnitude
  | [], acc => some acc
  | x :: xs, acc => do
      let row ← exactRow x b acc
      return row.headD 0 :: (← exactMulRows b xs row.tail)

/-- The product of two magnitudes, a multiple if one of them is a limb. -/
def exactMul (a b : Magnitude) : Option Magnitude :=
  if a = [] ∨ b = [] then some []
  else
    match b with
    | [y] => exactMulLimb a y
    | _ =>
        match a with
        | [x] => exactMulLimb b x
        | _ => (exactMulRows b a (List.replicate b.length 0)).map normalize

theorem exactMulLimbWithCarry_eq
    (a : Magnitude) {m c : UInt64} (hm : m.toNat < 2 ^ 32) (hc : c.toNat < 2 ^ 32) :
    exactMulLimbWithCarry m.toNat a c.toNat = some (mulLimbWithCarry m a c) := by
  induction a generalizing c with
  | nil => exact emitCarry_eq hc
  | cons x xs ih =>
      rw [exactMulLimbWithCarry, mulLimbWithCarry]
      exact emitLimb_eq (by rw [mulLimbWord_eq x hm hc, Nat.mul_comm]) (ih (word_high_lt _))

theorem exactMulLimb_eq
    (a : Magnitude) (m : UInt32) :
    exactMulLimb a m = some (mulLimb a m) := by
  unfold exactMulLimb mulLimb
  split
  · rfl
  · rw [← UInt32.toNat_toUInt64]
    exact exactMulLimbWithCarry_eq a (c := 0) (toNat_toUInt64_lt m) (by decide)

theorem exactMulRow_eq
    {m c : UInt64} {b acc : Magnitude} (hlen : b.length = acc.length)
    (hm : m.toNat < 2 ^ 32) (hc : c.toNat < 2 ^ 32) :
    exactMulRow m.toNat b acc c.toNat = some (mulRow m b acc c) := by
  induction b generalizing acc c with
  | nil =>
      obtain rfl := List.eq_nil_of_length_eq_zero hlen.symm
      rw [exactMulRow, asLimb_toUInt32 hc]
      rfl
  | cons y ys ih =>
      cases acc with
      | nil =>
          cases hlen
      | cons a as =>
          rw [exactMulRow, mulRow]
          exact emitLimb_eq (mulWord_eq y a hm hc) (ih (Nat.succ.inj hlen) (word_high_lt _))

theorem exactRow_eq
    (x : UInt32) {b acc : Magnitude} (hlen : b.length = acc.length) :
    exactRow x b acc = some (mulRow x.toUInt64 b acc 0) := by
  unfold exactRow
  split
  · rename_i hzero
    rw [hzero]
    exact congrArg some (mulRow_zero hlen).symm
  · rw [← UInt32.toNat_toUInt64]
    exact exactMulRow_eq (c := 0) hlen (toNat_toUInt64_lt x) (by decide)

theorem exactMulRows_eq
    (b a : Magnitude) {acc : Magnitude} (hlen : b.length = acc.length) :
    exactMulRows b a acc = some (mulRows b a acc) := by
  induction a generalizing acc with
  | nil => rfl
  | cons x xs ih =>
      have htail : b.length = (mulRow x.toUInt64 b acc 0).tail.length := by
        rw [List.length_tail, length_mulRow x.toUInt64 hlen 0, Nat.add_sub_cancel]
      rw [exactMulRows, exactRow_eq x hlen, Option.bind_eq_bind, Option.bind_some, ih htail]
      rfl

/-- The shortcuts give the same limbs, since both products are normalized. -/
theorem exactMul_eq
    {a b : Magnitude} (ha : Normalized a) (hb : Normalized b) :
    exactMul a b = some (mul a b) := by
  have hshortcut : ∀ {c : Magnitude}, Normalized c → ∀ x : UInt32, ∀ d : Magnitude,
      toNat d = toNat c * x.toNat → Normalized d → exactMulLimb c x = some d := by
    intro c hc x d hvalue hd
    rw [exactMulLimb_eq, toNat_injective (hc.mulLimb x) hd ((toNat_mulLimb c x).trans hvalue.symm)]
  unfold exactMul
  split
  · rename_i hnil
    rw [mul, if_pos hnil]
  · rename_i hnil
    split
    · rename_i y
      exact hshortcut ha y _ (by simp) (normalized_mul _ _)
    · split
      · rename_i x
        exact hshortcut hb x _ (by simp [Nat.mul_comm]) (normalized_mul _ _)
      · rw [exactMulRows_eq _ _ (by simp), mul, if_neg hnil]
        rfl

/-! ### Shifts -/

/-- Limbs of `a * 2 ^ s + c` for `s` below 32, one more than `a` has. -/
def exactShiftLeftBits (s : Nat) : Magnitude → Nat → Option Magnitude
  | [], c => do return [← asLimb c]
  | x :: xs, c => emitLimb (x.toNat * 2 ^ s + c) fun c' => exactShiftLeftBits s xs c'

/-- The product with `2 ^ n`. -/
def exactShiftLeft (a : Magnitude) (n : Nat) : Option Magnitude :=
  if a = [] then some []
  else (exactShiftLeftBits (n % 32) a 0).map fun limbs =>
    normalize (List.replicate (n / 32) 0 ++ limbs)

/-- Limbs of `a / 2 ^ s` for `s` below 32; the high bits of a word belong to the next limb. -/
def exactShiftRightBits (s : Nat) : Magnitude → Option Magnitude
  | [] => some []
  | x :: xs => do
      let t ← asWord (x.toNat + (xs.headD 0).toNat * 2 ^ 32)
      return UInt32.ofNat (t / 2 ^ s) :: (← exactShiftRightBits s xs)

/-- The quotient by `2 ^ n`. -/
def exactShiftRight (a : Magnitude) (n : Nat) : Option Magnitude :=
  (exactShiftRightBits (n % 32) (a.drop (n / 32))).map normalize

theorem exactShiftLeftBits_eq
    {s : UInt64} (hs : s.toNat < 32) (a : Magnitude) {c : UInt64} (hc : c.toNat < 2 ^ 32) :
    exactShiftLeftBits s.toNat a c.toNat = some (shiftLeftBits s a c) := by
  induction a generalizing c with
  | nil =>
      rw [exactShiftLeftBits, asLimb_toUInt32 hc]
      rfl
  | cons x xs ih =>
      rw [exactShiftLeftBits, shiftLeftBits]
      exact emitLimb_eq (shiftLeftWord_eq x hs hc) (ih (word_high_lt _))

theorem exactShiftLeft_eq
    (a : Magnitude) (n : Nat) :
    exactShiftLeft a n = some (shiftLeft a n) := by
  have hs := toNat_ofNat_mod n
  unfold exactShiftLeft shiftLeft
  split
  · rfl
  · have hlimbs := exactShiftLeftBits_eq (s := UInt64.ofNat (n % 32)) (c := 0) (by omega) a
      (by decide)
    rw [hs, UInt64.toNat_zero] at hlimbs
    rw [hlimbs, Option.map_some]

theorem exactShiftRightBits_eq
    {s : UInt64} (hs : s.toNat < 32) (a : Magnitude) :
    exactShiftRightBits s.toNat a = some (shiftRightBits s a) := by
  induction a with
  | nil => rfl
  | cons x xs ih =>
      have hword := shiftRightWord_eq x (xs.headD 0)
      have hlt := (x.toUInt64 + (xs.headD 0).toUInt64 * limbBase).toNat_lt
      have hlimb : UInt32.ofNat ((x.toNat + (xs.headD 0).toNat * 2 ^ 32) / 2 ^ s.toNat) =
          ((x.toUInt64 + (xs.headD 0).toUInt64 * limbBase) >>> s).toUInt32 := by
        refine ofNat_eq ?_
        rw [UInt64.toNat_toUInt32, toNat_shiftRight_word _ _ (by omega), hword]
      rw [exactShiftRightBits, asWord_eq (by omega), Option.bind_eq_bind, Option.bind_some, ih,
        hlimb]
      rfl

theorem exactShiftRight_eq
    (a : Magnitude) (n : Nat) :
    exactShiftRight a n = some (shiftRight a n) := by
  have hs := toNat_ofNat_mod n
  have hlimbs := exactShiftRightBits_eq (s := UInt64.ofNat (n % 32)) (by omega) (a.drop (n / 32))
  rw [hs] at hlimbs
  rw [exactShiftRight, shiftRight, hlimbs, Option.map_some]

/-! ### Powers -/

/-- The product with the factor that the lowest bit of the exponent brings. -/
def exactFactor (acc base : Magnitude) (n : Nat) : Option Magnitude :=
  if n % 2 = 1 then exactMul acc base else some acc

/-- The product of `acc` and the `n`-th power of `base`, by repeated squaring. -/
def exactPow (acc base : Magnitude) (n : Nat) : Option Magnitude :=
  if n = 0 then some acc
  else do
    let acc' ← exactFactor acc base n
    if n / 2 = 0 then some acc' else exactPow acc' (← exactMul base base) (n / 2)
termination_by n
decreasing_by omega

/-- The `n`-th power of a number that is a limb. -/
def exactRadixPow (radix n : Nat) : Option Magnitude :=
  exactPow [1] (ofNat radix) n

theorem exactPow_eq
    {acc base : Magnitude} (hacc : Normalized acc) (hbase : Normalized base) (n : Nat) :
    exactPow acc base n = some (mulPow mul acc base n) := by
  induction n using Nat.strongRecOn generalizing acc base with
  | ind n ih =>
      rw [exactPow, mulPow]
      split
      · rfl
      · rename_i hn
        have hstep : exactFactor acc base n = some (if n % 2 = 1 then mul acc base else acc) := by
          unfold exactFactor
          split
          · exact exactMul_eq hacc hbase
          · rfl
        have hacc' : Normalized (if n % 2 = 1 then mul acc base else acc) := by
          split
          · exact normalized_mul acc base
          · exact hacc
        rw [hstep, Option.bind_eq_bind, Option.bind_some]
        dsimp only
        split
        · rfl
        · rw [exactMul_eq hbase hbase]
          exact ih (n / 2) (by omega) hacc' (normalized_mul base base)

theorem exactRadixPow_eq
    (radix n : Nat) :
    exactRadixPow radix n = some (radixPow radix n) :=
  exactPow_eq (by decide) (normalized_ofNat radix) n

/-! ### All operations -/

/--
A computation in exact integers in which every number fits, the magnitude that
the operation gives, and the number that it denotes.
-/
structure Computes (exact : Option Magnitude) (result : Magnitude) (value : Nat) : Prop where
  exact_eq : exact = some result
  normalized : Normalized result
  toNat_eq : toNat result = value

/-- What the operations give for two magnitudes, a limb and a number of places. -/
structure ExactArithmetic (a b : Magnitude) (m : UInt32) (n : Nat) : Prop where
  add : Computes (exactAdd a b) (add a b) (toNat a + toNat b)
  sub : toNat b ≤ toNat a → Computes (exactSub a b) (sub a b) (toNat a - toNat b)
  addLimb : Computes (exactAddLimb a m) (addLimb a m) (toNat a + m.toNat)
  mulLimb : Computes (exactMulLimb a m) (mulLimb a m) (toNat a * m.toNat)
  mul : Computes (exactMul a b) (mul a b) (toNat a * toNat b)
  shiftLeft : Computes (exactShiftLeft a n) (shiftLeft a n) (toNat a * 2 ^ n)
  shiftRight : Computes (exactShiftRight a n) (shiftRight a n) (toNat a / 2 ^ n)
  divModLimb : m ≠ 0 → ∃ q r, divModLimb a m = (q, r) ∧ exactDivModLimb a m = some (q, r) ∧
    Normalized q ∧ toNat q = toNat a / m.toNat ∧ r.toNat = toNat a % m.toNat
  radixPow : Computes (exactRadixPow m.toNat n) (radixPow m.toNat n) (m.toNat ^ n)
  compare : compare a b = Ord.compare (toNat a) (toNat b)
  bitLength : IsLeast {k | toNat a < 2 ^ k} (bitLength a)

/--
Every operation on normalized magnitudes gives the normalized magnitude of the
exact result, and every number that it computes with fits in its word.
-/
theorem limb_arithmetic_exact
    {a b : Magnitude} (ha : Normalized a) (hb : Normalized b) (m : UInt32) (n : Nat) :
    ExactArithmetic a b m n where
  add := ⟨exactAdd_eq a b, ha.add hb, toNat_add a b⟩
  sub hle := ⟨exactSub_eq ha hb hle, normalized_sub a b, toNat_sub hle⟩
  addLimb := ⟨exactAddLimb_eq a m, ha.addLimb m, toNat_addLimb a m⟩
  mulLimb := ⟨exactMulLimb_eq a m, ha.mulLimb m, toNat_mulLimb a m⟩
  mul := ⟨exactMul_eq ha hb, normalized_mul a b, toNat_mul a b⟩
  shiftLeft := ⟨exactShiftLeft_eq a n, normalized_shiftLeft a n, toNat_shiftLeft a n⟩
  shiftRight := ⟨exactShiftRight_eq a n, normalized_normalize _, toNat_shiftRight a n⟩
  divModLimb hm := by
    obtain ⟨hq, hquot, hrem⟩ := divModLimb_spec a hm
    exact ⟨_, _, rfl, exactDivModLimb_eq a hm, hq, hquot, hrem⟩
  radixPow := ⟨exactRadixPow_eq _ n, normalized_radixPow _ n, toNat_radixPow _ n⟩
  compare := by
    rw [ha.compare_eq hb]
    rfl
  bitLength :=
    ⟨(ha.bitLength_le_iff _).mp le_rfl, fun k hk => (ha.bitLength_le_iff k).mpr hk⟩

/-- Limbs and carries that are as large as they can be. -/
theorem largest_limbs_arithmetic :
    Normalized [0xFFFFFFFF, 0xFFFFFFFF] ∧ Normalized [1, 0xFFFFFFFF] ∧
      exactAdd [0xFFFFFFFF, 0xFFFFFFFF] [1, 0xFFFFFFFF] = some [0, 0xFFFFFFFF, 1] ∧
      exactSub [0xFFFFFFFF, 0xFFFFFFFF] [1, 0xFFFFFFFF] = some [0xFFFFFFFE] ∧
      exactMul [0xFFFFFFFF, 0xFFFFFFFF] [1, 0xFFFFFFFF] = some [0xFFFFFFFF, 0, 0, 0xFFFFFFFF] ∧
      exactDivModLimb [0xFFFFFFFF, 0xFFFFFFFF] 0xFFFFFFFE = some ([2, 1], 3) := by
  have ha : Normalized [0xFFFFFFFF, 0xFFFFFFFF] := by decide
  have hb : Normalized [1, 0xFFFFFFFF] := by decide
  have h := limb_arithmetic_exact ha hb 0xFFFFFFFE 33
  obtain ⟨q, r, hqr, hexact, -⟩ := h.divModLimb (by decide)
  refine ⟨ha, hb, ?_, ?_, ?_, ?_⟩
  · rw [h.add.exact_eq]
    decide +kernel
  · rw [(h.sub (by decide)).exact_eq]
    decide +kernel
  · rw [h.mul.exact_eq]
    decide +kernel
  · rw [hexact, ← hqr]
    decide +kernel

end Magnitude
end DeskCalculator
