import DeskCalculator.Proofs.Magnitude.Division
import DeskCalculator.Proofs.Magnitude.Product
import DeskCalculator.ScaledNumber.Arithmetic

/-!
# The rational number that a scaled number denotes

`toRat` is `sign * mantissa * (2 ^ 32) ^ exponent`.  Canonical numbers of one
value are equal, so that an operation is known once its value is known and its
result is known to be canonical.

**Results.**
* `canonical_ofParts`, `toRat_ofParts`: the canonical form of any parts.
* `Canonical.eq_of_toRat_eq`: equal values are equal structures.
* `Canonical.exists_ofInt`: a canonical integer is the form of an integer.
* `magnitudeAt_spec`: the mantissa at a lower exponent.
-/

namespace DeskCalculator
namespace ScaledNumber

/-! ### Weights of exponents -/

/-- The number by which an exponent multiplies a mantissa. -/
def weight (e : Int) : ℚ := (2 ^ 32) ^ e

theorem weight_pos
    (e : Int) :
    0 < weight e :=
  zpow_pos (by norm_num) e

theorem weight_ne_zero
    (e : Int) :
    weight e ≠ 0 :=
  (weight_pos e).ne'

@[simp] theorem weight_zero : weight 0 = 1 :=
  zpow_zero _

theorem weight_add
    (d e : Int) :
    weight (d + e) = weight d * weight e :=
  zpow_add₀ (by norm_num) d e

theorem weight_natCast
    (n : Nat) :
    weight n = ((2 ^ (32 * n) : Nat) : ℚ) := by
  rw [weight, zpow_natCast, ← pow_mul]
  push_cast
  rfl

/-! ### Values -/

/-- The number denoted. -/
def toRat (x : ScaledNumber) : ℚ :=
  x.sign.toInt * x.mantissa.toNat * weight x.exponent

/-- The sign as a factor, from whether it is negative. -/
def signFactor (negative : Bool) : ℚ :=
  if negative then -1 else 1

@[simp] theorem toRat_zero : zero.toRat = 0 := by
  simp [toRat, zero, Sign.toInt]

@[simp] theorem canonical_zero : Canonical zero :=
  Or.inl rfl

/-! ### Low zero limbs -/

theorem toNat_takeWhile_zero
    (m : Magnitude) :
    Magnitude.toNat (m.takeWhile (· = 0)) = 0 := by
  induction m with
  | nil =>
      rfl
  | cons x xs ih =>
      rw [List.takeWhile_cons]
      split
      · rename_i h
        simp [of_decide_eq_true h, ih]
      · rfl

/-- The low zero limbs of a magnitude are a power of the base. -/
theorem toNat_dropWhile_zero
    (m : Magnitude) :
    m.toNat = 2 ^ (32 * (m.takeWhile (· = 0)).length) *
      Magnitude.toNat (m.dropWhile (· = 0)) := by
  have h := Magnitude.toNat_append (m.takeWhile (· = 0)) (m.dropWhile (· = 0))
  rwa [List.takeWhile_append_dropWhile, toNat_takeWhile_zero, Nat.zero_add] at h

theorem dropWhile_zero_ne_nil
    {m : Magnitude} (hm : m.Normalized) (hne : m ≠ []) :
    m.dropWhile (· = 0) ≠ [] := by
  intro hnil
  have h := toNat_dropWhile_zero m
  rw [hnil, Magnitude.toNat_nil, Nat.mul_zero] at h
  exact hne (hm.toNat_eq_zero.mp h)

theorem getLast?_dropWhile_zero
    {m : Magnitude} (hm : m.Normalized) (hne : m ≠ []) :
    (m.dropWhile (· = 0)).getLast? ≠ some 0 := by
  have h : (m.takeWhile (· = 0) ++ m.dropWhile (· = 0)).getLast? ≠ some 0 := by
    rw [List.takeWhile_append_dropWhile]
    exact hm
  rwa [List.getLast?_append_of_ne_nil _ (dropWhile_zero_ne_nil hm hne)] at h

theorem head?_dropWhile_zero
    (m : Magnitude) :
    (m.dropWhile (· = 0)).head? ≠ some 0 := by
  intro h
  have := List.head?_dropWhile_not (fun x : UInt32 => decide (x = 0)) m
  rw [h] at this
  simp at this

/-! ### The canonical form of any parts -/

@[simp] theorem canonical_ofParts
    (negative : Bool) (e : Int) (m : Magnitude) :
    Canonical (ofParts negative e m) := by
  unfold ofParts
  dsimp only
  split
  · exact canonical_zero
  · rename_i hne
    refine Or.inr ⟨?_, ?_, ?_, ?_⟩
    · cases negative <;> simp
    · exact dropWhile_zero_ne_nil (Magnitude.normalized_normalize m) hne
    · exact head?_dropWhile_zero _
    · exact getLast?_dropWhile_zero (Magnitude.normalized_normalize m) hne

@[simp] theorem toRat_ofParts
    (negative : Bool) (e : Int) (m : Magnitude) :
    (ofParts negative e m).toRat = signFactor negative * m.toNat * weight e := by
  unfold ofParts
  dsimp only
  split
  · rename_i h
    have hzero := Magnitude.toNat_normalize m
    rw [h, Magnitude.toNat_nil] at hzero
    simp [← hzero]
  · have hlow := toNat_dropWhile_zero m.normalize
    rw [Magnitude.toNat_normalize] at hlow
    simp only [toRat, signFactor, hlow, weight_add, weight_natCast, Nat.cast_mul]
    cases negative <;> simp [Sign.toInt] <;> ring

/-! ### Parts of a canonical number -/

theorem Canonical.normalized
    {x : ScaledNumber} (hx : Canonical x) :
    x.mantissa.Normalized := by
  rcases hx with rfl | ⟨_, _, _, hlast⟩
  · exact Magnitude.normalized_nil
  · exact hlast

theorem Canonical.mantissa_eq_nil
    {x : ScaledNumber} (hx : Canonical x) :
    x.mantissa = [] ↔ x = zero := by
  constructor
  · intro hnil
    rcases hx with h | ⟨_, hne, _⟩
    · exact h
    · exact absurd hnil hne
  · rintro rfl
    rfl

theorem Canonical.isZero_eq
    {x : ScaledNumber} (hx : Canonical x) :
    x.isZero = true ↔ x = zero := by
  rw [isZero, decide_eq_true_iff]
  constructor
  · intro hsign
    rcases hx with h | ⟨hne, _⟩
    · exact h
    · exact absurd hsign hne
  · rintro rfl
    rfl

theorem Canonical.mantissa_pos
    {x : ScaledNumber} (hx : Canonical x) (hne : x ≠ zero) :
    0 < x.mantissa.toNat :=
  hx.normalized.toNat_pos (mt hx.mantissa_eq_nil.mp hne)

/-- The lowest limb counts. -/
theorem Canonical.mantissa_mod
    {x : ScaledNumber} (hx : Canonical x) (hne : x ≠ zero) :
    x.mantissa.toNat % 2 ^ 32 ≠ 0 := by
  rcases hx with h | ⟨_, hmant, hhead, _⟩
  · exact absurd h hne
  · rcases hm : x.mantissa with - | ⟨d, ds⟩
    · exact absurd hm hmant
    · rw [hm, List.head?_cons] at hhead
      have hd := d.toNat_lt
      rw [Magnitude.toNat_cons]
      intro hzero
      exact hhead (congrArg some (UInt32.toNat_inj.mp (by rw [UInt32.toNat_zero]; omega)))

/-- The absolute value is the mantissa times the weight of the exponent. -/
theorem Canonical.abs_toRat
    {x : ScaledNumber} (hx : Canonical x) :
    |x.toRat| = x.mantissa.toNat * weight x.exponent := by
  rcases eq_or_ne x zero with rfl | hne
  · rw [toRat_zero, abs_zero]
    simp [zero]
  · have hpos : 0 ≤ (x.mantissa.toNat : ℚ) * weight x.exponent :=
      mul_nonneg (Nat.cast_nonneg _) (weight_pos _).le
    rw [toRat, mul_assoc, abs_mul, abs_of_nonneg hpos]
    rcases hx with h | ⟨hsign, _⟩
    · exact absurd h hne
    · cases hs : x.sign with
      | negative => simp [Sign.toInt]
      | zero => exact absurd hs hsign
      | positive => simp [Sign.toInt]

/-- The sign of the value is the sign. -/
theorem Canonical.toRat_sign
    {x : ScaledNumber} (hx : Canonical x) :
    (x.sign = .negative ↔ x.toRat < 0) ∧ (x.sign = .zero ↔ x.toRat = 0) ∧
      (x.sign = .positive ↔ 0 < x.toRat) := by
  rcases eq_or_ne x zero with rfl | hne
  · rw [toRat_zero]
    simp [zero]
  · have hmant : 0 < (x.mantissa.toNat : ℚ) := Nat.cast_pos.mpr (hx.mantissa_pos hne)
    have hpos : 0 < (x.mantissa.toNat : ℚ) * weight x.exponent := mul_pos hmant (weight_pos _)
    rcases hx with h | ⟨hsign, _⟩
    · exact absurd h hne
    · rw [toRat, mul_assoc]
      generalize (x.mantissa.toNat : ℚ) * weight x.exponent = q at hpos
      cases hs : x.sign with
      | negative => simp [Sign.toInt, hpos, hpos.le, hpos.ne']
      | zero => exact absurd hs hsign
      | positive => simp [Sign.toInt, hpos, hpos.le, hpos.ne']

theorem Canonical.toRat_eq_zero
    {x : ScaledNumber} (hx : Canonical x) :
    x.toRat = 0 ↔ x = zero := by
  rw [← hx.toRat_sign.2.1, ← hx.isZero_eq, isZero, decide_eq_true_iff]

/-! ### Equal values are equal structures -/

/-- Mantissas without low zero limbs, of one value, have one exponent. -/
theorem exponent_le_of_mantissa_eq
    {m n : Nat} {d e : Int} (hm : m % 2 ^ 32 ≠ 0)
    (h : (m : ℚ) * weight d = n * weight e) :
    e ≤ d := by
  by_contra hlt
  obtain ⟨k, hk⟩ : ∃ k : Nat, e = d + (k + 1 : Nat) := ⟨(e - d - 1).toNat, by omega⟩
  rw [hk, weight_add, weight_natCast, mul_comm (weight d), ← mul_assoc] at h
  have hnat : m = n * 2 ^ (32 * (k + 1)) := by
    exact_mod_cast mul_right_cancel₀ (weight_ne_zero d) h
  rw [Nat.mul_succ, Nat.pow_add, ← Nat.mul_assoc] at hnat
  exact hm (by rw [hnat, Nat.mul_mod_left])

/-- Canonical numbers of one value are equal. -/
theorem Canonical.eq_of_toRat_eq
    {x y : ScaledNumber} (hx : Canonical x) (hy : Canonical y) (h : x.toRat = y.toRat) :
    x = y := by
  rcases eq_or_ne x zero with rfl | hxne
  · rw [toRat_zero] at h
    exact (hy.toRat_eq_zero.mp h.symm).symm
  rcases eq_or_ne y zero with rfl | hyne
  · rw [toRat_zero] at h
    exact hx.toRat_eq_zero.mp h
  have habs := congrArg (fun q : ℚ => |q|) h
  rw [hx.abs_toRat, hy.abs_toRat] at habs
  have hexp : x.exponent = y.exponent :=
    (exponent_le_of_mantissa_eq (hy.mantissa_mod hyne) habs.symm).antisymm
      (exponent_le_of_mantissa_eq (hx.mantissa_mod hxne) habs)
  have hmant : x.mantissa = y.mantissa := by
    rw [hexp] at habs
    have := mul_right_cancel₀ (weight_ne_zero _) habs
    exact Magnitude.toNat_injective hx.normalized hy.normalized (by exact_mod_cast this)
  have hsign : x.sign = y.sign := by
    have hxs := hx.toRat_sign
    have hys := hy.toRat_sign
    rw [h] at hxs
    cases hs : y.sign with
    | negative => exact hxs.1.mpr (hys.1.mp hs)
    | zero => exact hxs.2.1.mpr (hys.2.1.mp hs)
    | positive => exact hxs.2.2.mpr (hys.2.2.mp hs)
  cases x
  cases y
  simp_all

/-! ### Integers -/

@[simp] theorem canonical_ofInt
    (n : Int) :
    Canonical (ofInt n) :=
  canonical_ofParts _ _ _

@[simp] theorem canonical_ofNat
    (n : Nat) :
    Canonical (ofNat n) :=
  canonical_ofParts _ _ _

@[simp] theorem toRat_ofNat
    (n : Nat) :
    (ofNat n).toRat = n := by
  simp [ofNat, signFactor]

@[simp] theorem toRat_ofInt
    (n : Int) :
    (ofInt n).toRat = n := by
  rw [ofInt, toRat_ofParts, Magnitude.toNat_ofNat, weight_zero, mul_one]
  rcases lt_or_ge n 0 with h | h
  · have hcast : ((n.natAbs : Int) : ℚ) = ((-n : Int) : ℚ) := by
      rw [Int.ofNat_natAbs_of_nonpos h.le]
    rw [Int.cast_natCast] at hcast
    simp [signFactor, h, hcast]
  · have hcast : ((n.natAbs : Int) : ℚ) = (n : ℚ) := by
      rw [Int.natAbs_of_nonneg h]
    rw [Int.cast_natCast] at hcast
    simp [signFactor, not_lt.mpr h, hcast]

/-- A canonical number whose value is an integer is the form of it. -/
theorem Canonical.eq_ofInt
    {x : ScaledNumber} (hx : Canonical x) {n : Int} (h : x.toRat = n) :
    x = ofInt n :=
  hx.eq_of_toRat_eq (canonical_ofInt n) (by rw [h, toRat_ofInt])

theorem ofInt_natCast
    (n : Nat) :
    ofInt n = ofNat n :=
  ((canonical_ofNat n).eq_ofInt (by simp)).symm

theorem ofInt_injective
    {m n : Int} (h : ofInt m = ofInt n) :
    m = n := by
  have := congrArg toRat h
  simpa using this

@[simp] theorem ofInt_zero : ofInt 0 = zero :=
  (canonical_zero.eq_ofInt (by simp)).symm

@[simp] theorem ofInt_one : ofInt 1 = one :=
  ofInt_natCast 1

/-! ### The mantissa at a lower exponent -/

/-- The mantissa written with an exponent that is not above that of the number. -/
theorem Canonical.magnitudeAt_spec
    {x : ScaledNumber} (hx : Canonical x) {e : Int} (he : x ≠ zero → e ≤ x.exponent) :
    (x.magnitudeAt e).Normalized ∧ ((x.magnitudeAt e).toNat : ℚ) * weight e = |x.toRat| := by
  rw [hx.abs_toRat]
  unfold magnitudeAt
  split
  · rename_i hnil
    simp [hnil]
  · rename_i hne
    obtain ⟨k, hk⟩ : ∃ k : Nat, x.exponent = k + e :=
      ⟨(x.exponent - e).toNat, by have := he (mt hx.mantissa_eq_nil.mpr hne); omega⟩
    have hcount : (x.exponent - e).toNat = k := by omega
    constructor
    · rw [Magnitude.Normalized, List.getLast?_append_of_ne_nil _ hne]
      exact hx.normalized
    · rw [hcount, hk, Magnitude.toNat_append, Magnitude.toNat_replicate_zero,
        List.length_replicate, weight_add, weight_natCast]
      push_cast
      ring

/-- A canonical number with an exponent that is not negative is an integer. -/
theorem Canonical.exists_ofInt
    {x : ScaledNumber} (hx : Canonical x) (he : 0 ≤ x.exponent) :
    ∃ n : Int, x = ofInt n := by
  obtain ⟨k, hk⟩ := Int.eq_ofNat_of_zero_le he
  refine ⟨x.sign.toInt * (x.mantissa.toNat * 2 ^ (32 * k) : Nat), hx.eq_ofInt ?_⟩
  rw [toRat, hk, weight_natCast]
  push_cast
  ring

/-- Only integers have an exponent that is not negative. -/
theorem exponent_ofInt_nonneg
    (n : Int) :
    0 ≤ (ofInt n).exponent := by
  rw [ofInt, ofParts]
  dsimp only
  split
  · exact le_rfl
  · simp

end ScaledNumber
end DeskCalculator
