import DeskCalculator.Proofs.Binary64.Rounding

/-!
# The order of binary64 numbers

A binary64 number is stored in 64 bits and compared by its exponent first and
its mantissa after that.  Because mantissas are canonical this is the order of
the numbers that are stood for; infinity stands for any number too large.

**Results.**
* `unpack_pack_of_holds`: what is rounded is stored without loss or as infinity.
* `le_iff`, `lt_iff`: comparisons are those of the numbers.
-/

namespace DeskCalculator
namespace Binary64

open Float.Model Float.Model.UnpackedFloat

/-- The sign as a factor. -/
def factor : Sign → ℚ
  | .negative => -1
  | .positive => 1

/-- The numbers that a stored number stands for. -/
inductive Represents : UnpackedFloat → ℚ → Prop
  | zero (s : Sign) : Represents (.zero s) 0
  | finite (s : Sign) {m : Nat} {e : Int} (hm : 0 < m) :
      Canonical m e →
      e ≤ 971 →
      Represents (.finite s m e hm) (factor s * (m * 2 ^ e))
  | infinity (s : Sign) {w : ℚ} :
      2 ^ 1024 ≤ w →
      Represents (.infinity s) (factor s * w)

/-! ### Packing -/

theorem unpack_pack_zero
    (s : Sign) :
    (Float.Model.pack (.zero s)).unpack = .zero s := by
  cases s <;> rfl

theorem unpack_pack_infinity
    (s : Sign) :
    (Float.Model.pack (.infinity s)).unpack = .infinity s := by
  cases s <;> rfl

/-- The highest bit of the mantissa is not stored. -/
theorem toNat_implicit
    (m : BitVec 52) :
    (1#1 ++ m).toNat = 2 ^ 52 + m.toNat := by
  rw [BitVec.toNat_append, ← Nat.shiftLeft_add_eq_or_of_lt m.isLt]
  rfl

/-- A stored exponent that is neither zero nor the largest one. -/
theorem unpack_normal
    (s : Sign) {b : Nat} (hpos : 0 < b) (hlt : b < 2047) (m : BitVec 52) :
    UnpackedFloat.unpack .binary64 (packComponents .binary64 s (BitVec.ofNat 11 b) m) =
      .finite s (2 ^ 52 + m.toNat) (b - 1075) (Nat.add_pos_left (Nat.two_pow_pos 52) _) := by
  have hb : (BitVec.ofNat 11 b).toNat = b := by
    rw [BitVec.toNat_ofNat]
    exact Nat.mod_eq_of_lt (by omega)
  have hzero : BitVec.ofNat 11 b ≠ 0#11 := by
    intro heq
    rw [heq] at hb
    exact hpos.ne hb
  have hones : BitVec.ofNat 11 b ≠ -1#11 := by
    intro heq
    rw [heq] at hb
    exact hlt.ne' hb
  unfold UnpackedFloat.unpack
  simp only [unpackMantissa_packComponents, unpackExponent_packComponents,
    unpackSign_packComponents, Sign.ofBitVec_toBitVec, if_neg hzero, if_neg hones, hb,
    toNat_implicit]
  rfl

/-- A stored exponent of zero. -/
theorem unpack_subnormal
    (s : Sign) {m : BitVec 52} (hm : 0 < m.toNat) :
    UnpackedFloat.unpack .binary64 (packComponents .binary64 s 0#11 m) =
      .finite s m.toNat (-1074) hm := by
  have hne : m ≠ 0#52 := by
    rintro rfl
    exact hm.ne rfl
  unfold UnpackedFloat.unpack
  simp only [unpackMantissa_packComponents, unpackExponent_packComponents,
    unpackSign_packComponents, Sign.ofBitVec_toBitVec, dif_neg hne]
  rfl

/-- The exponent is stored with an offset; the mantissa decides whether it is stored at all. -/
theorem pack_finite
    (s : Sign) {m : Nat} (hm : 0 < m) (hlt : m < 2 ^ 53) (b : Nat) :
    UnpackedFloat.pack .binary64 (.finite s m (b - 1075) hm) =
      if 2047 ≤ b then packedInfinity .binary64 s
      else
        packComponents .binary64 s (if 2 ^ 52 ≤ m then BitVec.ofNat 11 b else 0#11)
          (BitVec.ofNat 52 m) := by
  have hbits : m.log2 + 1 = Format.binary64.mantissaBits ↔ 2 ^ 52 ≤ m := by
    have hlog := (Nat.log2_lt hm.ne').mpr hlt
    rw [← Nat.le_log2 hm.ne', show Format.binary64.mantissaBits = 53 from rfl]
    omega
  have hbias : ((b : Int) - 1075 + Format.binary64.exponentBias +
      Format.binary64.mantissaBitsWithoutImplicit).toNat = b := by
    show ((b : Int) - 1075 + (1023 : Nat) + (52 : Nat)).toNat = b
    omega
  unfold UnpackedFloat.pack
  simp only [hbias, hbits]
  by_cases hlarge : 2047 ≤ b
  · rw [if_pos hlarge, if_pos (by omega)]
  · rw [if_neg hlarge, if_neg (by omega)]
    split <;> rfl

theorem unpack_pack_finite
    (s : Sign) {m : Nat} {e : Int} (hm : 0 < m) (h : Canonical m e) (he : e ≤ 971) :
    (Float.Model.pack (.finite s m e hm)).unpack = .finite s m e hm := by
  obtain ⟨hlt, hmin, hnormal⟩ := h
  obtain ⟨b, rfl⟩ : ∃ b : Nat, e = b - 1075 := ⟨(e + 1075).toNat, by omega⟩
  show UnpackedFloat.unpack .binary64 (UnpackedFloat.pack .binary64 (.finite s m _ hm)) = _
  rw [pack_finite s hm hlt, if_neg (by omega)]
  have hbits : (BitVec.ofNat 52 m).toNat = m % 2 ^ 52 := BitVec.toNat_ofNat m 52
  split
  · rename_i hfull
    rw [unpack_normal s (by omega) (by omega)]
    have hvalue : 2 ^ 52 + m % 2 ^ 52 = m := by omega
    simp only [hbits, hvalue]
  · rename_i hshort
    have hvalue : m % 2 ^ 52 = m := Nat.mod_eq_of_lt (by omega)
    rw [unpack_subnormal s (by rwa [hbits, hvalue])]
    simp only [hbits, hvalue, hnormal.resolve_left hshort]

theorem unpack_pack_large
    (s : Sign) {m : Nat} {e : Int} (hm : 0 < m) (h : Canonical m e) (he : 971 < e) :
    (Float.Model.pack (.finite s m e hm)).unpack = .infinity s := by
  obtain ⟨b, rfl⟩ : ∃ b : Nat, e = b - 1075 := ⟨(e + 1075).toNat, by omega⟩
  rw [Float.Model.pack]
  show UnpackedFloat.unpack .binary64 (UnpackedFloat.pack .binary64 (.finite s m _ hm)) = _
  rw [pack_finite s hm h.lt, if_pos (by omega)]
  exact unpack_pack_infinity s

/-- What represents a number is stored without loss. -/
theorem Represents.unpack_pack
    {u : UnpackedFloat} {x : ℚ} (h : Represents u x) :
    (Float.Model.pack u).unpack = u := by
  cases h with
  | zero s => exact unpack_pack_zero s
  | finite s hm hcanonical he => exact unpack_pack_finite s hm hcanonical he
  | infinity s => exact unpack_pack_infinity s

theorem two_pow_mul_zpow
    (a b : Nat) :
    (2 : ℚ) ^ a * 2 ^ (b : Int) = 2 ^ (a + b) := by
  rw [zpow_natCast, pow_add]

/-- What is rounded is stored without loss, or as infinity if its exponent is too large. -/
theorem unpack_pack_of_holds
    {s : Sign} {u : UnpackedFloat} {w : ℚ} (h : Holds s u w) :
    Represents (Float.Model.pack u).unpack (factor s * w) := by
  cases h with
  | zero =>
      rw [unpack_pack_zero, mul_zero]
      exact .zero s
  | finite hm hcanonical =>
      rename_i m e
      rcases le_or_gt e 971 with he | he
      · rw [unpack_pack_finite s hm hcanonical he]
        exact .finite s hm hcanonical he
      · rw [unpack_pack_large s hm hcanonical he]
        refine .infinity s ?_
        have hfull : 2 ^ 52 ≤ m := hcanonical.normal.resolve_right (by omega)
        calc (2 : ℚ) ^ 1024 = 2 ^ 52 * (2 : ℚ) ^ (972 : Int) := (two_pow_mul_zpow 52 972).symm
          _ ≤ m * 2 ^ e := by
            gcongr
            · exact_mod_cast hfull
            · exact one_le_two
            · omega

/-- What is stored stands for a number, unless it is not a number. -/
theorem unpack_represents
    (v : Float.Model) :
    v.unpack = .notANumber ∨ ∃ x, Represents v.unpack x := by
  unfold Float.Model.unpack UnpackedFloat.unpack
  extract_lets mantissa exponent e _ s
  have hmantissa : mantissa.toNat < 2 ^ 52 := mantissa.isLt
  have hexponent : exponent.toNat < 2 ^ 11 := exponent.isLt
  have he : e = exponent.toNat - 1075 := rfl
  split
  · split
    · exact Or.inr ⟨_, .infinity _ le_rfl⟩
    · exact Or.inl rfl
  · rename_i hones
    have hlarge : exponent.toNat ≠ 2047 := fun heq => hones (BitVec.eq_of_toNat_eq heq)
    split
    · rename_i hzero
      have hmin : e + 1 = -1074 := by
        rw [he, hzero]
        rfl
      split
      · exact Or.inr ⟨0, .zero _⟩
      · exact Or.inr ⟨_, .finite _ _ ⟨by omega, by omega, Or.inr hmin⟩ (by omega)⟩
    · rename_i hzero
      have hsmall : exponent.toNat ≠ 0 := fun heq => hzero (BitVec.eq_of_toNat_eq heq)
      have hvalue : (1#1 ++ mantissa).toNat = 2 ^ 52 + mantissa.toNat := toNat_implicit mantissa
      exact Or.inr ⟨_, .finite _ _ ⟨by omega, by omega, Or.inl (by omega)⟩ (by omega)⟩

/-! ### Comparison -/

/-- Of canonical numbers the one with the larger exponent is larger. -/
theorem Canonical.lt_of_exponent_lt
    {m m' : Nat} {e e' : Int} (h : Canonical m e) (h' : Canonical m' e') (he : e < e') :
    (m * 2 ^ e : ℚ) < m' * 2 ^ e' := by
  have hfull : 2 ^ 52 ≤ m' := h'.normal.resolve_right (by have := h.le; omega)
  calc (m * 2 ^ e : ℚ) < 2 ^ 53 * 2 ^ e := by
        gcongr
        exact_mod_cast h.lt
    _ = 2 ^ 52 * 2 ^ (e + 1) := by
        rw [zpow_add_one₀ two_ne_zero]
        ring
    _ ≤ m' * 2 ^ e' := by
        gcongr
        · exact_mod_cast hfull
        · exact one_le_two
        · omega

/-- Canonical numbers are compared by their exponents and then by their mantissas. -/
theorem Canonical.compare_eq
    {m m' : Nat} {e e' : Int} (h : Canonical m e) (h' : Canonical m' e') :
    (compare e e').then (compare m m') = compare (m * 2 ^ e : ℚ) (m' * 2 ^ e') := by
  rcases lt_trichotomy e e' with he | rfl | he
  · rw [compare_lt_iff_lt.mpr he, compare_lt_iff_lt.mpr (h.lt_of_exponent_lt h' he)]
    rfl
  · rw [compare_eq_iff_eq.mpr rfl]
    have hpos : (0 : ℚ) < 2 ^ e := zpow_pos two_pos e
    rcases lt_trichotomy m m' with hm | rfl | hm
    · rw [compare_lt_iff_lt.mpr hm, eq_comm]
      refine compare_lt_iff_lt.mpr (mul_lt_mul_of_pos_right ?_ hpos)
      exact_mod_cast hm
    · rw [compare_eq_iff_eq.mpr rfl, compare_eq_iff_eq.mpr rfl]
      rfl
    · rw [compare_gt_iff_gt.mpr hm, eq_comm]
      refine compare_gt_iff_gt.mpr (mul_lt_mul_of_pos_right ?_ hpos)
      exact_mod_cast hm
  · rw [compare_gt_iff_gt.mpr he, compare_gt_iff_gt.mpr (h'.lt_of_exponent_lt h he)]
    rfl

/-- A stored number that is not infinite is below the least number that is. -/
theorem Canonical.lt_large
    {m : Nat} {e : Int} (h : Canonical m e) (he : e ≤ 971) :
    (m * 2 ^ e : ℚ) < 2 ^ 1024 := by
  calc (m * 2 ^ e : ℚ) < 2 ^ 53 * 2 ^ e := by
        gcongr
        exact_mod_cast h.lt
    _ ≤ 2 ^ 53 * (2 : ℚ) ^ (971 : Int) := by
        gcongr
        exact one_le_two
    _ = 2 ^ 1024 := two_pow_mul_zpow 53 971

theorem compare_neg_neg
    (a b : ℚ) :
    compare (-a) (-b) = (compare a b).swap := by
  rcases lt_trichotomy a b with h | rfl | h
  · rw [compare_lt_iff_lt.mpr h, compare_gt_iff_gt.mpr (neg_lt_neg h)]
    rfl
  · simp
  · rw [compare_gt_iff_gt.mpr h, compare_lt_iff_lt.mpr (neg_lt_neg h)]
    rfl

/-- How a number compares with one of this sign that is larger in absolute value. -/
def towards : Sign → Ordering
  | .negative => .gt
  | .positive => .lt

theorem compare_larger
    {x w : ℚ} (h : |x| < w) (s : Sign) :
    compare x (factor s * w) = towards s := by
  obtain ⟨hlow, hhigh⟩ := abs_lt.mp h
  cases s with
  | negative => exact compare_gt_iff_gt.mpr (by simpa [factor] using hlow)
  | positive => exact compare_lt_iff_lt.mpr (by simpa [factor] using hhigh)

theorem compare_smaller
    {x w : ℚ} (h : |x| < w) (s : Sign) :
    compare (factor s * w) x = (towards s).swap := by
  obtain ⟨hlow, hhigh⟩ := abs_lt.mp h
  cases s with
  | negative => exact compare_lt_iff_lt.mpr (by simpa [factor] using hlow)
  | positive => exact compare_gt_iff_gt.mpr (by simpa [factor] using hhigh)

theorem abs_factor_mul
    (s : Sign) {w : ℚ} (hw : 0 ≤ w) :
    |factor s * w| = w := by
  cases s <;> simp [factor, abs_of_nonneg hw]

/-- Finite numbers are compared by their signs and then by their absolute values. -/
theorem compare_finite
    (s s' : Sign) {m m' : Nat} {e e' : Int} (hm : 0 < m) (hm' : 0 < m') (h : Canonical m e)
    (h' : Canonical m' e') :
    (UnpackedFloat.finite s m e hm).compare (.finite s' m' e' hm') =
      some (compare (factor s * (m * 2 ^ e)) (factor s' * (m' * 2 ^ e'))) := by
  have hcompare := h.compare_eq h'
  have hpos : (0 : ℚ) < m * 2 ^ e := by positivity
  have hpos' : (0 : ℚ) < m' * 2 ^ e' := by positivity
  cases s <;> cases s' <;>
    simp only [UnpackedFloat.compare, factor, one_mul, neg_one_mul, compare_neg_neg, hcompare]
  case negative.positive => rw [compare_lt_iff_lt.mpr (by linarith)]
  case positive.negative => rw [compare_gt_iff_gt.mpr (by linarith)]

/-- Stored numbers, not both infinite, are compared as the numbers that they stand for. -/
theorem Represents.compare_eq
    {u u' : UnpackedFloat} {x x' : ℚ} (h : Represents u x) (h' : Represents u' x')
    (hfinite : |x| < 2 ^ 1024 ∨ |x'| < 2 ^ 1024) :
    u.compare u' = some (compare x x') := by
  have hzero : |(0 : ℚ)| < 2 ^ 1024 := by simp
  cases h with
  | zero s =>
      cases h' with
      | zero s' => simp [UnpackedFloat.compare]
      | finite s' hm' =>
          rw [compare_larger (by rw [abs_zero]; positivity) s']
          cases s' <;> rfl
      | infinity s' hw' =>
          rw [compare_larger (hzero.trans_le hw') s']
          cases s' <;> rfl
  | finite s hm hcanonical he =>
      cases h' with
      | zero s' =>
          rw [compare_smaller (by rw [abs_zero]; positivity) s]
          cases s <;> rfl
      | finite s' hm' hcanonical' => exact compare_finite s s' hm hm' hcanonical hcanonical'
      | infinity s' hw' =>
          have hlt := hcanonical.lt_large he
          rw [compare_larger (by rw [abs_factor_mul s (by positivity)]; exact hlt.trans_le hw') s']
          cases s' <;> rfl
  | infinity s hw =>
      cases h' with
      | zero s' =>
          rw [compare_smaller (hzero.trans_le hw) s]
          cases s <;> rfl
      | finite s' hm' hcanonical' he' =>
          have hlt := hcanonical'.lt_large he'
          rw [compare_smaller (by rw [abs_factor_mul s' (by positivity)]; exact hlt.trans_le hw) s]
          cases s <;> rfl
      | infinity s' hw' =>
          have hpos : (0 : ℚ) ≤ 2 ^ 1024 := by positivity
          rw [abs_factor_mul s (hpos.trans hw), abs_factor_mul s' (hpos.trans hw')] at hfinite
          exact absurd hfinite (by rw [not_or, not_lt, not_lt]; exact ⟨hw, hw'⟩)

/-! ### Signs -/

theorem Represents.neg
    {u : UnpackedFloat} {x : ℚ} (h : Represents u x) :
    Represents u.neg (-x) := by
  have hfactor : ∀ s, factor (-s) = -factor s := by
    rintro (_ | _)
    · exact (neg_neg 1).symm
    · rfl
  cases h with
  | zero s =>
      rw [neg_zero]
      exact .zero (-s)
  | finite s hm hcanonical he =>
      rw [← neg_mul, ← hfactor]
      exact .finite (-s) hm hcanonical he
  | infinity s hw =>
      rw [← neg_mul, ← hfactor]
      exact .infinity (-s) hw

theorem Represents.abs
    {u : UnpackedFloat} {x : ℚ} (h : Represents u x) :
    Represents u.abs |x| := by
  cases h with
  | zero s =>
      rw [abs_zero]
      exact .zero .positive
  | finite s hm hcanonical he =>
      have hpositive := Represents.finite .positive hm hcanonical he
      rw [factor, one_mul] at hpositive
      rw [abs_factor_mul s (by positivity)]
      exact hpositive
  | infinity s hw =>
      have hpositive := Represents.infinity .positive hw
      rw [factor, one_mul] at hpositive
      rw [abs_factor_mul s ((by positivity : (0 : ℚ) ≤ 2 ^ 1024).trans hw)]
      exact hpositive

/-! ### Numbers of the machine -/

/-- The number that a binary64 number stands for, any number too large if it is infinity. -/
def Denotes (a : Float) (x : ℚ) : Prop :=
  Represents a.toModel.unpack x

namespace Denotes

variable {a b : Float} {x y : ℚ}

theorem le_iff
    (ha : Denotes a x) (hb : Denotes b y) (hfinite : |x| < 2 ^ 1024 ∨ |y| < 2 ^ 1024) :
    a ≤ b ↔ x ≤ y := by
  have hmodel : a ≤ b ↔ a.toModel.unpack.le b.toModel.unpack = true :=
    decide_eq_true_iff
  rw [hmodel, UnpackedFloat.le, Represents.compare_eq ha hb hfinite, Option.any_some]
  exact Ordering.isLE_iff_ne_gt.trans compare_le_iff_le

theorem lt_iff
    (ha : Denotes a x) (hb : Denotes b y) (hfinite : |x| < 2 ^ 1024 ∨ |y| < 2 ^ 1024) :
    a < b ↔ x < y := by
  have hmodel : a < b ↔ a.toModel.unpack.lt b.toModel.unpack = true :=
    decide_eq_true_iff
  rw [hmodel, UnpackedFloat.lt, Represents.compare_eq ha hb hfinite, beq_iff_eq,
    Option.some.injEq]
  exact compare_lt_iff_lt

theorem neg
    (ha : Denotes a x) :
    Denotes (-a) (-x) := by
  have hneg := Represents.neg ha
  show Represents (Float.Model.pack a.toModel.unpack.neg).unpack (-x)
  rwa [hneg.unpack_pack]

theorem abs
    (ha : Denotes a x) :
    Denotes a.abs |x| := by
  have habs := Represents.abs ha
  show Represents (Float.Model.pack a.toModel.unpack.abs).unpack |x|
  rwa [habs.unpack_pack]

end Denotes

/-- What can be compared is a number. -/
theorem exists_denotes_of_le
    (h : a ≤ b) :
    ∃ y, Denotes b y := by
  refine (unpack_represents b.toModel).resolve_left fun hnan => ?_
  have hle : a.toModel.unpack.le b.toModel.unpack = true := decide_eq_true_iff.mp h
  rw [hnan, UnpackedFloat.le] at hle
  cases hu : a.toModel.unpack <;> rw [hu] at hle <;> exact Bool.noConfusion hle

/-- A number that is unpacked to a canonical one. -/
theorem denotes_finite
    {m : Nat} {e : Int} (hm : 0 < m) (ha : a.toModel.unpack = .finite .positive m e hm)
    (h : Canonical m e) (he : e ≤ 971) :
    Denotes a (m * 2 ^ e) := by
  have hrepresents := Represents.finite .positive hm h he
  rw [factor, one_mul] at hrepresents
  rwa [Denotes, ha]

theorem denotes_zero : Denotes 0.0 0 :=
  .zero .positive

/-- A natural number whose mantissa is shifted to the highest bit. -/
theorem denotes_natCast
    {m k : Nat} (hm : 0 < m * 2 ^ k)
    (ha : a.toModel.unpack = .finite .positive (m * 2 ^ k) (-k) hm)
    (h : Canonical (m * 2 ^ k) (-k)) :
    Denotes a m := by
  have hdenotes := denotes_finite hm ha h (by omega)
  have hvalue : ((m * 2 ^ k : Nat) : ℚ) * 2 ^ (-(k : Int)) = m := by
    rw [zpow_neg, zpow_natCast, Nat.cast_mul, Nat.cast_pow, Nat.cast_two]
    exact mul_inv_cancel_right₀ (by positivity) _
  rwa [hvalue] at hdenotes

theorem denotes_one : Denotes 1.0 1 := by
  exact_mod_cast denotes_natCast (m := 1) (k := 52) (by decide) rfl
    (canonical_two_pow_52 (by decide))

end Binary64
end DeskCalculator
