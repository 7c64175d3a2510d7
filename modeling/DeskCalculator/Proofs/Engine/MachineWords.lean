import DeskCalculator.Proofs.Engine.Calculation
import DeskCalculator.Proofs.Scientific.Factorial
import Mathlib.Analysis.SpecialFunctions.Pow.Real

/-!
# Calculations on words are machine arithmetic

A word is a bit vector.  Sums, products and powers are computed exactly or
modulo `2 ^ 64` and then chopped; both reduce modulo the width, which divides
`2 ^ 64`.

**Results.**
* `adjust_ofInt`: an integer is chopped to its bit vector.
* `machine_arithmetic`: operators, functions and the sign key on words are the
  operations on bit vectors.
-/

namespace DeskCalculator

open Ratio

/-- A bit vector as an unsigned integer. -/
def Ratio.ofBits {bits : Nat} (x : BitVec bits) : Ratio := .ofNat x.toNat

/-- The words of a width are the bit vectors. -/
theorem isWord_iff_exists_ofBits
    {bits : Nat} {v : Ratio} :
    IsWord bits v ↔ ∃ x : BitVec bits, v = ofBits x := by
  constructor
  · rintro ⟨n, hn, rfl⟩
    exact ⟨BitVec.ofNat bits n, by rw [ofBits, BitVec.toNat_ofNat, Nat.mod_eq_of_lt hn]⟩
  · rintro ⟨x, rfl⟩
    exact ⟨x.toNat, x.isLt, rfl⟩

/-- Calculation on words of a width. -/
def WordSize.mode (w : WordSize) : CalculationMode := ⟨true, w.bits⟩

theorem WordSize.bits_le
    (w : WordSize) :
    w.bits ≤ 64 := by
  cases w <;> decide

namespace CalculationMode

variable {F : RealFunctions} {w : WordSize} {x y : BitVec w.bits}

/-! ### Bit vectors and ratios -/

theorem toNat_lt_two_pow
    (x : BitVec w.bits) :
    x.toNat < 2 ^ 64 :=
  x.isLt.trans_le (Nat.pow_le_pow_right (by decide) w.bits_le)

/-- Reduction modulo `2 ^ 64` does not change the reduction to a width. -/
theorem ofNat_mod
    (w : WordSize) (n : Nat) :
    BitVec.ofNat w.bits (n % 2 ^ 64) = BitVec.ofNat w.bits n := by
  apply BitVec.eq_of_toNat_eq
  rw [BitVec.toNat_ofNat, BitVec.toNat_ofNat, Nat.mod_mod_of_dvd _ (pow_dvd_pow 2 w.bits_le)]

/-- An integer is chopped to its bit vector. -/
theorem adjust_ofInt
    (w : WordSize) (z : Int) :
    w.mode.adjust (.ofInt z) = ofBits (BitVec.ofInt w.bits z) := by
  have hnonneg : 0 ≤ z % 2 ^ w.bits := Int.emod_nonneg z (by positivity)
  have htoNat : ((BitVec.ofInt w.bits z).toNat : Int) = z % 2 ^ w.bits := by
    rw [BitVec.toNat_ofInt, Nat.cast_pow, Nat.cast_ofNat, Int.toNat_of_nonneg hnonneg]
  rw [adjust, WordSize.mode, if_pos rfl, chop_ofInt, ofBits, ← ofInt_natCast, htoNat]

theorem adjust_ofNat
    (w : WordSize) (n : Nat) :
    w.mode.adjust (.ofNat n) = ofBits (BitVec.ofNat w.bits n) := by
  rw [adjust, WordSize.mode, if_pos rfl, chop_ofNat, ofBits, BitVec.toNat_ofNat]

theorem toNat_toWordMod_ofBits
    (x : BitVec w.bits) :
    (ofBits x).toWordMod.toNat = x.toNat := by
  rw [ofBits, toNat_toWordMod_ofNat, Nat.mod_eq_of_lt (toNat_lt_two_pow x)]

/-! ### Operators -/

/-- An operator with a natural number of at most 128 bits as its exact result. -/
theorem binary_of_combine_ofNat
    (op : Operator) {a b : Ratio} {n : Nat} (h : w.mode.combine F op a b = .ok (.ofNat n))
    (hn : n < 2 ^ 128) :
    w.mode.binary F op a b = .ok (ofBits (BitVec.ofNat w.bits n)) := by
  rw [binary_of_combine op h (checkSize_ofNat hn (by decide)), adjust_ofNat]

theorem binary_add :
    w.mode.binary F .add (ofBits x) (ofBits y) = .ok (ofBits (x + y)) := by
  have hx := toNat_lt_two_pow x
  have hy := toNat_lt_two_pow y
  have hsum : ofBits x + ofBits y = .ofNat (x.toNat + y.toNat) := ofNat_add _ _
  have h := binary_of_combine_ofNat (F := F) (w := w) .add (congrArg Except.ok hsum)
    (by omega)
  rwa [BitVec.ofNat_add, BitVec.ofNat_toNat, BitVec.ofNat_toNat, BitVec.setWidth_eq,
    BitVec.setWidth_eq] at h

/-- The exact product of two words. -/
theorem ofBits_mul
    (x y : BitVec w.bits) :
    ofBits x * ofBits y = .ofNat (x.toNat * y.toNat) ∧ x.toNat * y.toNat < 2 ^ 128 := by
  constructor
  · exact ofNat_mul _ _
  · calc
      x.toNat * y.toNat < 2 ^ 64 * 2 ^ 64 :=
        Nat.mul_lt_mul'' (toNat_lt_two_pow x) (toNat_lt_two_pow y)
      _ = 2 ^ 128 := by rw [← Nat.pow_add]

theorem ofNat_mul_toNat
    (x y : BitVec w.bits) :
    BitVec.ofNat w.bits (x.toNat * y.toNat) = x * y := by
  rw [BitVec.ofNat_mul, BitVec.ofNat_toNat, BitVec.ofNat_toNat, BitVec.setWidth_eq,
    BitVec.setWidth_eq]

theorem binary_mul :
    w.mode.binary F .mul (ofBits x) (ofBits y) = .ok (ofBits (x * y)) := by
  obtain ⟨hproduct, hlt⟩ := ofBits_mul x y
  have h := binary_of_combine_ofNat (F := F) (w := w) .mul (congrArg Except.ok hproduct) hlt
  rwa [ofNat_mul_toNat] at h

theorem ofInt_sub_toNat
    (x y : BitVec w.bits) :
    BitVec.ofInt w.bits ((x.toNat : Int) - y.toNat) = x - y := by
  rw [Int.sub_eq_add_neg, BitVec.ofInt_add, BitVec.ofInt_neg, BitVec.ofInt_natCast,
    BitVec.ofInt_natCast, BitVec.ofNat_toNat, BitVec.ofNat_toNat, BitVec.setWidth_eq,
    BitVec.setWidth_eq, ← BitVec.sub_eq_add_neg]

theorem binary_sub :
    w.mode.binary F .sub (ofBits x) (ofBits y) = .ok (ofBits (x - y)) := by
  have hx := toNat_lt_two_pow x
  have hy := toNat_lt_two_pow y
  have hdifference : ofBits x - ofBits y = .ofInt ((x.toNat : Int) - y.toNat) := by
    simp only [ofBits, ← ofRat_natCast, ← ofRat_intCast]
    rw [ofRat_sub]
    push_cast
    rfl
  have hsize : (ofInt ((x.toNat : Int) - y.toNat)).checkSize = .ok (ofInt _) :=
    checkSize_ofInt (k := 64) (by omega) (by decide)
  have h := binary_of_combine (F := F) (c := w.mode) .sub
    (congrArg Except.ok hdifference) hsize
  rwa [adjust_ofInt, ofInt_sub_toNat] at h

theorem ofBits_eq_ofRat
    (x : BitVec w.bits) :
    ofBits x = ofRat x.toNat :=
  (ofRat_natCast x.toNat).symm

theorem toNat_cast_eq_zero
    {y : BitVec w.bits} :
    (y.toNat : ℚ) = 0 ↔ y = 0 := by
  rw [Nat.cast_eq_zero, BitVec.toNat_eq]
  rfl

/-- Quotients are truncated. -/
theorem binary_div :
    w.mode.binary F .div (ofBits x) (ofBits y) =
      if y = 0 then .error .divisionByZero else .ok (ofBits (x / y)) := by
  have hdiv : (ofBits x).div (ofBits y) =
      if y = 0 then .error .divisionByZero else .ok (ofRat (x.toNat / y.toNat)) := by
    simp only [ofBits_eq_ofRat, ofRat_div_ofRat, toNat_cast_eq_zero]
  by_cases hzero : y = 0
  · rw [if_pos hzero] at hdiv ⊢
    rw [CalculationMode.binary, combine, hdiv]
    rfl
  · rw [if_neg hzero] at hdiv ⊢
    have htruncate : (ofRat (x.toNat / y.toNat)).truncate = .ofNat (x / y).toNat := by
      rw [truncate_ofRat, towardZero_div, ofInt_natCast, BitVec.toNat_udiv]
    have hcombine : w.mode.combine F .div (ofBits x) (ofBits y) =
        .ok (.ofNat (x / y).toNat) := by
      rw [combine, hdiv, ← htruncate]
      rfl
    have hlt := toNat_lt_two_pow (x / y)
    rw [binary_of_combine_ofNat _ hcombine (by omega), BitVec.ofNat_toNat, BitVec.setWidth_eq]

theorem binary_mod :
    w.mode.binary F .mod (ofBits x) (ofBits y) =
      if y = 0 then .error .divisionByZero else .ok (ofBits (x % y)) := by
  by_cases hzero : y = 0
  · have hmod : (ofBits x).mod (ofBits y) = .error .divisionByZero := by
      rw [ofBits_eq_ofRat, ofBits_eq_ofRat, mod_ofRat, if_pos (toNat_cast_eq_zero.mpr hzero)]
    rw [if_pos hzero, CalculationMode.binary, combine, hmod]
    rfl
  · have hpos : 0 < y.toNat := by
      rw [Nat.pos_iff_ne_zero]
      exact_mod_cast mt toNat_cast_eq_zero.mp hzero
    have hcombine : w.mode.combine F .mod (ofBits x) (ofBits y) =
        .ok (.ofNat (x % y).toNat) := by
      rw [combine, ofBits, ofBits, ← ofInt_natCast x.toNat, ofInt_mod_ofNat _ hpos,
        ← Int.natCast_emod, ofInt_natCast, BitVec.toNat_umod]
    have hlt := toNat_lt_two_pow (x % y)
    rw [if_neg hzero, binary_of_combine_ofNat _ hcombine (by omega), BitVec.ofNat_toNat,
      BitVec.setWidth_eq]

/-- Powers are computed modulo `2 ^ 64`. -/
theorem binary_pow :
    w.mode.binary F .pow (ofBits x) (ofBits y) =
      .ok (ofBits (BitVec.ofNat w.bits (x.toNat ^ y.toNat))) := by
  have hpower : (ofBits x).wordPow (ofBits y) = .ofNat (x.toNat ^ y.toNat % 2 ^ 64) := by
    rw [wordPow, ofWord, toNat_mulPow_word, toNat_toWordMod_ofBits, toNat_toWordMod_ofBits]
  have hlt := Nat.mod_lt (x.toNat ^ y.toNat) (Nat.two_pow_pos 64)
  have h := binary_of_combine_ofNat (F := F) (w := w) .pow (congrArg Except.ok hpower) (by omega)
  rwa [ofNat_mod] at h

/-- An operation on 64 bits whose result is chopped to a width. -/
theorem binary_of_combine_ofWord
    (op : Operator) {a b : Ratio} {u : UInt64} (h : w.mode.combine F op a b = .ok (.ofWord u))
    {z : BitVec w.bits} (hz : BitVec.ofNat w.bits u.toNat = z) :
    w.mode.binary F op a b = .ok (ofBits z) := by
  have hlt := u.toNat_lt
  rw [binary_of_combine_ofNat op h (by omega), hz]

theorem binary_and :
    w.mode.binary F .and (ofBits x) (ofBits y) = .ok (ofBits (x &&& y)) := by
  refine binary_of_combine_ofWord _ rfl ?_
  rw [UInt64.toNat_and, toNat_toWordMod_ofBits, toNat_toWordMod_ofBits, ← BitVec.toNat_and,
    BitVec.ofNat_toNat, BitVec.setWidth_eq]

theorem binary_or :
    w.mode.binary F .or (ofBits x) (ofBits y) = .ok (ofBits (x ||| y)) := by
  refine binary_of_combine_ofWord _ rfl ?_
  rw [UInt64.toNat_or, toNat_toWordMod_ofBits, toNat_toWordMod_ofBits, ← BitVec.toNat_or,
    BitVec.ofNat_toNat, BitVec.setWidth_eq]

theorem binary_xor :
    w.mode.binary F .xor (ofBits x) (ofBits y) = .ok (ofBits (x ^^^ y)) := by
  refine binary_of_combine_ofWord _ rfl ?_
  rw [UInt64.toNat_xor, toNat_toWordMod_ofBits, toNat_toWordMod_ofBits, ← BitVec.toNat_xor,
    BitVec.ofNat_toNat, BitVec.setWidth_eq]

theorem sixtyFour_le_toWordMod
    (y : BitVec w.bits) :
    64 ≤ (ofBits y).toWordMod ↔ 64 ≤ y.toNat := by
  rw [UInt64.le_iff_toNat_le, toNat_toWordMod_ofBits]
  rfl

/-- A shift by the width or more leaves nothing. -/
theorem binary_shiftLeft :
    w.mode.binary F .shiftLeft (ofBits x) (ofBits y) = .ok (ofBits (x <<< y.toNat)) := by
  refine binary_of_combine_ofWord _ rfl ?_
  by_cases hcount : 64 ≤ y.toNat
  · rw [if_pos ((sixtyFour_le_toWordMod y).mpr hcount),
      BitVec.shiftLeft_eq_zero (w.bits_le.trans hcount)]
    rfl
  · rw [if_neg (mt (sixtyFour_le_toWordMod y).mp hcount), UInt64.toNat_shiftLeft,
      toNat_toWordMod_ofBits, toNat_toWordMod_ofBits, Nat.mod_eq_of_lt (Nat.not_le.mp hcount),
      ofNat_mod]
    apply BitVec.eq_of_toNat_eq
    rw [BitVec.toNat_ofNat, BitVec.toNat_shiftLeft]

theorem binary_shiftRight :
    w.mode.binary F .shiftRight (ofBits x) (ofBits y) = .ok (ofBits (x >>> y.toNat)) := by
  refine binary_of_combine_ofWord _ rfl ?_
  by_cases hcount : 64 ≤ y.toNat
  · rw [if_pos ((sixtyFour_le_toWordMod y).mpr hcount),
      BitVec.ushiftRight_eq_zero (w.bits_le.trans hcount)]
    rfl
  · rw [if_neg (mt (sixtyFour_le_toWordMod y).mp hcount), UInt64.toNat_shiftRight,
      toNat_toWordMod_ofBits, toNat_toWordMod_ofBits, Nat.mod_eq_of_lt (Nat.not_le.mp hcount),
      ← BitVec.toNat_ushiftRight, BitVec.ofNat_toNat, BitVec.setWidth_eq]

/-! ### Roots -/

/-- The root rounded down is the floor of the real root. -/
theorem nthRoot_eq_floor
    (n : Nat) {k : Nat} (hk : k ≠ 0) :
    Nat.nthRoot k n = ⌊(n : ℝ) ^ (1 / k : ℝ)⌋₊ := by
  have hroot : 0 ≤ (n : ℝ) ^ (1 / k : ℝ) := Real.rpow_nonneg (Nat.cast_nonneg n) _
  have hpower : ((n : ℝ) ^ (1 / k : ℝ)) ^ k = n := by
    rw [one_div, Real.rpow_inv_natCast_pow (Nat.cast_nonneg n) hk]
  apply eq_of_forall_le_iff
  intro c
  calc
    c ≤ Nat.nthRoot k n ↔ c ^ k ≤ n := Nat.le_nthRoot_iff hk
    _ ↔ (c : ℝ) ^ k ≤ ((n : ℝ) ^ (1 / k : ℝ)) ^ k := by
      rw [hpower]
      exact_mod_cast Iff.rfl
    _ ↔ (c : ℝ) ≤ (n : ℝ) ^ (1 / k : ℝ) := pow_le_pow_iff_left₀ (Nat.cast_nonneg c) hroot hk
    _ ↔ c ≤ ⌊(n : ℝ) ^ (1 / k : ℝ)⌋₊ := (Nat.le_floor_iff hroot).symm

theorem nthRoot_ofNat
    (n : Nat) {k : Nat} (hpos : 1 ≤ k) (hlimit : k ≤ 64) :
    Scientific.nthRoot F (.ofNat n) (.ofNat k) = (ofNat n).root k := by
  have hne : (k : Int) ≠ 0 := by omega
  rw [← ofInt_natCast k, Scientific.nthRoot_ofInt_small hne hlimit, Int.natAbs_natCast]
  simp only [if_neg (Int.natCast_nonneg k).not_gt]
  cases (ofNat n).root k <;> rfl

/-- The terms of a root of a word are not too large. -/
theorem checkSize_of_root
    {n : Nat} (hn : n < 2 ^ 64) {q : ℚ} (hnum : q.num.natAbs ≤ n * 10 ^ rootPlaces)
    (hden : q.den ≤ 10 ^ rootPlaces) :
    (ofRat q).checkSize = .ok (ofRat q) := by
  have hten : 0 < 10 ^ rootPlaces := by decide
  have hlimit : 2 ^ 64 * 10 ^ rootPlaces ≤ 2 ^ bitLimit :=
    le_trans (by decide : 2 ^ 64 * 10 ^ rootPlaces ≤ 2 ^ 200)
      (Nat.pow_le_pow_right (by decide) (by decide))
  have hnum' : q.num.natAbs < 2 ^ bitLimit :=
    calc
      q.num.natAbs ≤ n * 10 ^ rootPlaces := hnum
      _ < 2 ^ 64 * 10 ^ rootPlaces := Nat.mul_lt_mul_of_pos_right hn hten
      _ ≤ 2 ^ bitLimit := hlimit
  have hden' : q.den < 2 ^ bitLimit :=
    calc
      q.den ≤ 1 * 10 ^ rootPlaces := by rwa [Nat.one_mul]
      _ < 2 ^ 64 * 10 ^ rootPlaces := Nat.mul_lt_mul_of_pos_right (by decide) hten
      _ ≤ 2 ^ bitLimit := hlimit
  rw [checkSize_ofRat, if_pos ⟨hnum', hden'⟩]

/-- Roots are rounded down. -/
theorem binary_root
    (hpos : 1 ≤ y.toNat) (hlimit : y.toNat ≤ 64) :
    w.mode.binary F .root (ofBits x) (ofBits y) =
      .ok (.ofNat ⌊(x.toNat : ℝ) ^ (1 / y.toNat : ℝ)⌋₊) := by
  have horder : y.toNat ≠ 0 := by omega
  obtain ⟨q, hroot, hfloor, hnum, hden⟩ := root_ofNat x.toNat hpos
  have hcombine : w.mode.combine F .root (ofBits x) (ofBits y) = .ok (ofRat q) := by
    rw [combine, ofBits, ofBits, nthRoot_ofNat _ hpos hlimit, hroot]
  have hsize := checkSize_of_root (toNat_lt_two_pow x) hnum hden
  have hword : Nat.nthRoot y.toNat x.toNat < 2 ^ w.bits :=
    calc
      Nat.nthRoot y.toNat x.toNat ≤ Nat.nthRoot y.toNat x.toNat ^ y.toNat :=
        Nat.le_self_pow horder _
      _ ≤ x.toNat := Nat.pow_nthRoot_le (Or.inl horder)
      _ < 2 ^ w.bits := x.isLt
  rw [binary_of_combine _ hcombine hsize, adjust, WordSize.mode, if_pos rfl, chop_ofRat, hfloor,
    ← nthRoot_eq_floor _ horder, ← ofInt_natCast, Int.emod_eq_of_lt (Int.natCast_nonneg _)]
  exact_mod_cast hword

/-! ### Functions and the sign -/

/-- The result of a function that is not too large. -/
theorem unary_of_value
    {f : ScientificFunction} (hf : f ≠ .factorial) {a r : Ratio} {inverse : Bool}
    {u : AngleUnit} (h : Scientific.value F f a inverse u = .ok r)
    (hsize : r.checkSize = .ok r) :
    w.mode.unary F f a inverse u = .ok (w.mode.adjust r) := by
  rw [CalculationMode.unary, if_neg (fun hboth : _ ∧ _ => hf hboth.2), Scientific.apply, h]
  show (r.checkSize >>= fun v => pure (w.mode.adjust v)) = _
  rw [hsize]
  rfl

/-- The complement of 64 bits, chopped, is the complement of the lower ones. -/
theorem complement_mod
    (w : WordSize) {n : Nat} (hn : n < 2 ^ w.bits) :
    (2 ^ 64 - 1 - n) % 2 ^ w.bits = 2 ^ w.bits - 1 - n := by
  cases w <;> simp only [WordSize.bits] at hn ⊢ <;> omega

theorem unary_not
    (inverse : Bool) (u : AngleUnit) :
    w.mode.unary F .not (ofBits x) inverse u = .ok (ofBits (~~~x)) := by
  have hvalue : Scientific.value F .not (ofBits x) inverse u = .ok (ofBits x).lnot := by
    cases inverse <;> rfl
  have hsize : (ofBits x).lnot.checkSize = .ok (ofBits x).lnot :=
    checkSize_ofNat (UInt64.toNat_lt _) (by decide)
  have hcomplement : BitVec.ofNat w.bits (2 ^ 64 - 1 - x.toNat) = ~~~x := by
    apply BitVec.eq_of_toNat_eq
    rw [BitVec.toNat_ofNat, BitVec.toNat_not, complement_mod w x.isLt]
  rw [unary_of_value (by decide) hvalue hsize, lnot, ofWord, adjust_ofNat, UInt64.toNat_not,
    toNat_toWordMod_ofBits]
  exact congrArg (fun z => Except.ok (ofBits z)) hcomplement

theorem unary_square
    (u : AngleUnit) :
    w.mode.unary F .square (ofBits x) false u = .ok (ofBits (x * x)) := by
  obtain ⟨hproduct, hlt⟩ := ofBits_mul x x
  have hsize := checkSize_ofNat hlt (by decide)
  rw [← hproduct] at hsize
  rw [unary_of_value (by decide) rfl hsize, hproduct, adjust_ofNat, ofNat_mul_toNat]

/-- Cubes are exact before they are chopped, and far too small to be refused. -/
theorem unary_cube
    (hlog : BinaryLogarithm F.log2) (u : AngleUnit) :
    w.mode.unary F .cube (ofBits x) false u = .ok (ofBits (x * x * x)) := by
  have hlt : x.toNat ^ 3 < 2 ^ 192 :=
    calc
      x.toNat ^ 3 < (2 ^ 64) ^ 3 := Nat.pow_lt_pow_left (toNat_lt_two_pow x) (by decide)
      _ = 2 ^ 192 := by rw [← Nat.pow_mul]
  have hcube : BitVec.ofNat w.bits (x.toNat ^ 3) = x * x * x := by
    rw [Nat.pow_succ, Nat.pow_two, BitVec.ofNat_mul, ofNat_mul_toNat, BitVec.ofNat_toNat,
      BitVec.setWidth_eq]
  have hvalue : Scientific.value F .cube (ofBits x) false u = .ok (.ofNat (x.toNat ^ 3)) :=
    intPow_ofNat hlog (toNat_lt_two_pow x) (by decide) (by decide)
  rw [unary_of_value (by decide) hvalue (checkSize_ofNat hlt (by decide)), adjust_ofNat, hcube]

theorem unary_factorial
    (inverse : Bool) (u : AngleUnit) :
    w.mode.unary F .factorial (ofBits x) inverse u =
      .ok (ofBits (BitVec.ofNat w.bits x.toNat.factorial)) := by
  rw [CalculationMode.unary, if_pos ⟨rfl, rfl⟩, ofBits,
    Scientific.wordFactorial_ofNat (toNat_lt_two_pow x)]
  show Except.ok (w.mode.adjust (.ofNat (x.toNat.factorial % 2 ^ 64))) = _
  rw [adjust_ofNat, ofNat_mod]

/-- The sign key takes the two's complement. -/
theorem adjust_neg
    (x : BitVec w.bits) :
    w.mode.adjust (ofBits x).neg = ofBits (-x) := by
  have hneg : (ofBits x).neg = .ofInt (-(x.toNat : Int)) := by
    rw [ofBits_eq_ofRat, ofRat_neg, ← ofRat_intCast]
    push_cast
    rfl
  rw [hneg, adjust_ofInt, BitVec.ofInt_neg, BitVec.ofInt_natCast, BitVec.ofNat_toNat,
    BitVec.setWidth_eq]

/-! ### Machine arithmetic -/

/-- Calculations on two words are the operations on bit vectors. -/
structure MachineArithmetic (F : RealFunctions) (w : WordSize) (x y : BitVec w.bits) : Prop where
  add : w.mode.binary F .add (ofBits x) (ofBits y) = .ok (ofBits (x + y))
  sub : w.mode.binary F .sub (ofBits x) (ofBits y) = .ok (ofBits (x - y))
  mul : w.mode.binary F .mul (ofBits x) (ofBits y) = .ok (ofBits (x * y))
  div : w.mode.binary F .div (ofBits x) (ofBits y) =
    if y = 0 then .error .divisionByZero else .ok (ofBits (x / y))
  mod : w.mode.binary F .mod (ofBits x) (ofBits y) =
    if y = 0 then .error .divisionByZero else .ok (ofBits (x % y))
  pow : w.mode.binary F .pow (ofBits x) (ofBits y) =
    .ok (ofBits (BitVec.ofNat w.bits (x.toNat ^ y.toNat)))
  and : w.mode.binary F .and (ofBits x) (ofBits y) = .ok (ofBits (x &&& y))
  or : w.mode.binary F .or (ofBits x) (ofBits y) = .ok (ofBits (x ||| y))
  xor : w.mode.binary F .xor (ofBits x) (ofBits y) = .ok (ofBits (x ^^^ y))
  /-- A shift by the width or more leaves zero. -/
  shiftLeft : w.mode.binary F .shiftLeft (ofBits x) (ofBits y) =
    .ok (ofBits (if w.bits ≤ y.toNat then 0 else x <<< y.toNat))
  shiftRight : w.mode.binary F .shiftRight (ofBits x) (ofBits y) =
    .ok (ofBits (if w.bits ≤ y.toNat then 0 else x >>> y.toNat))
  root : 1 ≤ y.toNat → y.toNat ≤ 64 → w.mode.binary F .root (ofBits x) (ofBits y) =
    .ok (.ofNat ⌊(x.toNat : ℝ) ^ (1 / y.toNat : ℝ)⌋₊)
  not : ∀ inverse u, w.mode.unary F .not (ofBits x) inverse u = .ok (ofBits (~~~x))
  square : ∀ u, w.mode.unary F .square (ofBits x) false u = .ok (ofBits (x * x))
  /-- The size of a cube is estimated before it is computed. -/
  cube : BinaryLogarithm F.log2 → ∀ u, w.mode.unary F .cube (ofBits x) false u = .ok (ofBits (x * x * x))
  factorial : ∀ inverse u, w.mode.unary F .factorial (ofBits x) inverse u =
    .ok (ofBits (BitVec.ofNat w.bits x.toNat.factorial))
  /-- What the sign key makes of a value. -/
  negate : w.mode.adjust (ofBits x).neg = ofBits (-x)

/-- On words of any width calculations are machine arithmetic. -/
theorem machine_arithmetic
    (F : RealFunctions) (w : WordSize) (x y : BitVec w.bits) :
    MachineArithmetic F w x y where
  add := binary_add
  sub := binary_sub
  mul := binary_mul
  div := binary_div
  mod := binary_mod
  pow := binary_pow
  and := binary_and
  or := binary_or
  xor := binary_xor
  shiftLeft := by
    rw [binary_shiftLeft]
    split
    · rename_i h
      rw [BitVec.shiftLeft_eq_zero h]
      rfl
    · rfl
  shiftRight := by
    rw [binary_shiftRight]
    split
    · rename_i h
      rw [BitVec.ushiftRight_eq_zero h]
      rfl
    · rfl
  root := binary_root
  not := unary_not
  square := unary_square
  cube := unary_cube
  factorial := unary_factorial
  negate := adjust_neg x

end CalculationMode
end DeskCalculator
