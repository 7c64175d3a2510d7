import DeskCalculator.Proofs.Ratio.Modulus

/-!
# Chopping is reduction modulo a power of two

Chopping goes by way of the truncation and the modulus of ratios; a word of 64
bits is read off the low limbs of the truncation, and turned into its two's
complement below zero.  Both are the residue of one integer, so that they agree
at 64 bits, and so that the low bits of a sum, a difference or a product depend
on the low bits of its operands only.  Exponents are exact, as for the modulus;
they fit in their words for terms of at most `2 ^ 33` bits.

**Results.**
* `IsResidue`: the residue of an integer modulo `2 ^ bits`, by its bounds.
* `chop_congr`: integers with the same residue are chopped to the same word.
* `chop_is_residue`: what chopping gives, and what it commutes with.
-/

namespace DeskCalculator
namespace Ratio

variable {v w : Ratio} {s t z : Int} {bits m n : Nat}

/-! ### Residues -/

/-- The integer `z` from zero below `2 ^ bits` is congruent to `t`. -/
structure IsResidue (t : Int) (bits : Nat) (z : Int) : Prop where
  nonneg : 0 ≤ z
  lt : z < 2 ^ bits
  modEq : z ≡ t [ZMOD 2 ^ bits]

theorem isResidue_emod
    (t : Int) (bits : Nat) :
    IsResidue t bits (t % 2 ^ bits) where
  nonneg := Int.emod_nonneg t (by positivity)
  lt := Int.emod_lt_of_pos t (by positivity)
  modEq := Int.mod_modEq t (2 ^ bits)

/-- The bounds leave one residue. -/
theorem IsResidue.eq_emod
    (h : IsResidue t bits z) :
    z = t % 2 ^ bits := by
  rw [← h.modEq, Int.emod_eq_of_lt h.nonneg h.lt]

/-- A residue keeps the bits below its width. -/
theorem emod_modEq_of_le
    (t : Int) (h : n ≤ m) :
    t % 2 ^ m ≡ t [ZMOD 2 ^ n] :=
  (Int.mod_modEq t (2 ^ m)).of_dvd (pow_dvd_pow 2 h)

/-! ### Chopped integers -/

/-- Integers with the same residue are chopped to the same word. -/
theorem chop_congr
    (h : s ≡ t [ZMOD 2 ^ bits]) :
    (ofInt s).chop bits = (ofInt t).chop bits := by
  rw [chop_ofInt, chop_ofInt, h]

/--
The operands of sums, differences and products may be chopped to `j` and `k` bits
beforehand, without any effect on the `n` low bits of the result.
-/
structure ChopsThrough (v w : Ratio) (j k n : Nat) : Prop where
  add : (v.chop j + w.chop k).chop n = (v + w).chop n
  sub : (v.chop j - w.chop k).chop n = (v - w).chop n
  mul : (v.chop j * w.chop k).chop n = (v * w).chop n

theorem chopsThrough_ofInt
    (s t : Int) {j k n : Nat} (hj : n ≤ j) (hk : n ≤ k) :
    ChopsThrough (ofInt s) (ofInt t) j k n := by
  have hs := emod_modEq_of_le s hj
  have ht := emod_modEq_of_le t hk
  constructor
  case add =>
    rw [chop_ofInt, chop_ofInt, ofInt_add, ofInt_add]
    exact chop_congr (hs.add ht)
  case sub =>
    rw [chop_ofInt, chop_ofInt, ofInt_sub, ofInt_sub]
    exact chop_congr (hs.sub ht)
  case mul =>
    rw [chop_ofInt, chop_ofInt, ofInt_mul, ofInt_mul]
    exact chop_congr (hs.mul ht)

/-! ### Chopped ratios -/

/-- The word of 64 bits that is read off the limbs is what chopping gives. -/
theorem chop_eq_ofWord
    (q : ℚ) :
    (ofRat q).chop 64 = ofWord (ofRat q).toWordMod := by
  rw [chop_ofRat, ofWord, ← ofInt_natCast, toNat_toWordMod]

/--
Chopping a ratio in lowest terms gives the residue of its truncation modulo
`2 ^ bits`, by divisions that are defined.  Bits that are cut off later need not
be kept: neither in a word that is chopped again, nor in the operands of sums,
differences and products of integers.  At 64 bits it is the word of the ratio.
-/
theorem chop_is_residue
    (hv : LowestTerms v) :
    (∀ bits, v.checkedChop bits = some (v.chop bits) ∧
        ∃ t z, RoundsTowardZero v.toRat t ∧ IsResidue t bits z ∧ v.chop bits = ofInt z) ∧
      (∀ m n, n ≤ m → (v.chop m).chop n = v.chop n) ∧
      (∀ w, LowestTerms w → v.isInteger = true → w.isInteger = true →
        ∀ j k n, n ≤ j → n ≤ k → ChopsThrough v w j k n) ∧
      v.checkedToWordMod = some v.toWordMod ∧ v.chop 64 = ofWord v.toWordMod := by
  refine ⟨fun bits => ⟨checkedChop_eq hv bits, ?_⟩, ?_, ?_, checkedToWordMod_eq hv, ?_⟩
  · obtain ⟨q, rfl⟩ := hv.exists_ofRat
    rw [toRat_ofRat]
    exact ⟨_, _, towardZero_rounds q, isResidue_emod _ bits, chop_ofRat q bits⟩
  · intro m n hle
    obtain ⟨q, rfl⟩ := hv.exists_ofRat
    rw [chop_ofRat, chop_ofRat, chop_ofInt, emod_modEq_of_le (towardZero q) hle]
  · intro w hw hvint hwint j k n hj hk
    obtain ⟨s, rfl⟩ := hv.exists_ofInt hvint
    obtain ⟨t, rfl⟩ := hw.exists_ofInt hwint
    exact chopsThrough_ofInt s t hj hk
  · obtain ⟨q, rfl⟩ := hv.exists_ofRat
    exact chop_eq_ofWord q

/-- Seven halves below zero as a byte, and an integer of 71 bits below zero as a word. -/
theorem chop_of_negatives :
    LowestTerms (ofRat (-7 / 2)) ∧ (ofRat (-7 / 2)).chop 8 = ofInt 253 ∧
      LowestTerms (ofInt (-2 ^ 70 - 1)) ∧
      (ofInt (-2 ^ 70 - 1)).chop 64 = ofWord (ofInt (-2 ^ 70 - 1)).toWordMod ∧
      ((ofInt (-2 ^ 70 - 1)).chop 64 * (ofInt 3).chop 8).chop 8 =
        (ofInt (-2 ^ 70 - 1) * ofInt 3).chop 8 := by
  have hfraction := lowestTerms_ofRat (-7 / 2)
  have hlarge := lowestTerms_ofInt (-2 ^ 70 - 1)
  obtain ⟨t, z, htoward, hresidue, hchop⟩ := ((chop_is_residue hfraction).1 8).2
  obtain ⟨-, -, hthrough, -, hword⟩ := chop_is_residue hlarge
  rw [toRat_ofRat] at htoward
  have ht : t = -3 := by
    refine (htoward.of_nonpos (by norm_num)).unique ⟨by norm_num, fun k hk => ?_⟩
    have hk : (-7 / 2 : ℚ) ≤ k := hk
    have hlt : (-4 : ℚ) < k := lt_of_lt_of_le (by norm_num) hk
    exact Int.add_one_le_iff.mpr (by exact_mod_cast hlt)
  have hthrough := hthrough (ofInt 3) (lowestTerms_ofInt 3) (isInteger_ofInt _)
    (isInteger_ofInt 3) 64 8 8 (by decide) (by decide)
  refine ⟨hfraction, ?_, hlarge, hword, hthrough.mul⟩
  rw [hchop, hresidue.eq_emod, ht]
  norm_num

end Ratio
end DeskCalculator
