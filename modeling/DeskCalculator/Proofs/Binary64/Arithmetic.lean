import DeskCalculator.Proofs.Binary64.Order

/-!
# Sums and products of binary64 numbers

A sum or a product of numbers that are not negative is computed exactly and
rounded once, as a word is when it is converted.  Rounding keeps the order, and
the numbers of the format are rounded to themselves, among them all natural
numbers of at most 53 bits and all powers of two.

**Results.**
* `Denotes.add`, `Denotes.mul`: sums and products are rounded correctly.
* `denotes_toFloat`: words are rounded correctly.
* `denotes_ofNat`: natural numbers of at most 53 bits are not rounded.
* `AtMost.add`, `AtMost.mul`: natural bounds of sums and products.
-/

namespace DeskCalculator
namespace Binary64

open Float.Model Float.Model.UnpackedFloat

/-! ### Numbers of the format -/

/-- A number that is not negative has a mantissa of at most 53 bits. -/
def Exact (x : ℚ) : Prop :=
  ∃ m e, Canonical m e ∧ x = m * 2 ^ e

theorem exact_zero : Exact 0 :=
  ⟨0, -1074, ⟨by decide, le_rfl, Or.inr rfl⟩, by rw [Nat.cast_zero, zero_mul]⟩

theorem exact_two_pow
    (k : Nat) :
    Exact (2 ^ k) := by
  refine ⟨2 ^ 52, k - 52, canonical_two_pow_52 (by omega), ?_⟩
  rw [Nat.cast_pow, Nat.cast_two, ← zpow_natCast, ← zpow_natCast, ← zpow_add₀ two_ne_zero]
  congr 1
  push_cast
  ring

/-- The bits of a natural number are shifted to the top of the mantissa. -/
theorem exact_natCast
    {n : Nat} (hn : n < 2 ^ 53) :
    Exact n := by
  rcases Nat.eq_zero_or_pos n with rfl | hpos
  · exact_mod_cast exact_zero
  have hlog : n.log2 < 53 := (Nat.log2_lt hpos.ne').mpr hn
  have hlow : 2 ^ 52 ≤ n * 2 ^ (52 - n.log2) := by
    calc 2 ^ 52 = 2 ^ n.log2 * 2 ^ (52 - n.log2) := by
          rw [← pow_add]
          congr 1
          omega
      _ ≤ n * 2 ^ (52 - n.log2) := Nat.mul_le_mul_right _ (Nat.log2_self_le hpos.ne')
  have hhigh : n * 2 ^ (52 - n.log2) < 2 ^ 53 := by
    calc n * 2 ^ (52 - n.log2) < 2 ^ (n.log2 + 1) * 2 ^ (52 - n.log2) :=
          Nat.mul_lt_mul_of_pos_right Nat.lt_log2_self (Nat.two_pow_pos _)
      _ = 2 ^ 53 := by
          rw [← pow_add]
          congr 1
          omega
  refine ⟨n * 2 ^ (52 - n.log2), -((52 - n.log2 : Nat) : Int),
    ⟨hhigh, by omega, Or.inl hlow⟩, ?_⟩
  rw [zpow_neg, zpow_natCast, Nat.cast_mul, Nat.cast_pow, Nat.cast_two]
  exact (mul_inv_cancel_right₀ (by positivity) _).symm

variable {v w x y : ℚ} {a b : Float}

theorem RoundsTo.eq_zero
    (h : RoundsTo 0 w) :
    w = 0 := by
  obtain ⟨n, hn, rfl⟩ := h
  rw [zero_div] at hn
  rw [Nat.le_zero.mp (hn.le_of_le (k := 0) (by rw [Nat.cast_zero])), Nat.cast_zero, zero_mul]

theorem roundsTo_zero_zero : RoundsTo 0 0 :=
  ⟨0, nearestEven_of_lt (by norm_num), by rw [Nat.cast_zero, zero_mul]⟩

/-- A number not above one of the format is not rounded above it. -/
theorem RoundsTo.le_exact
    (h : RoundsTo v w) (hv : 0 ≤ v) (hx : Exact x) (hle : v ≤ x) :
    w ≤ x := by
  obtain ⟨m, e, hcanonical, rfl⟩ := hx
  rcases hv.eq_or_lt with rfl | hpos
  · rwa [h.eq_zero]
  · refine h.le_of_le hpos (Nat.pos_of_ne_zero ?_) hcanonical hle
    rintro rfl
    rw [Nat.cast_zero, zero_mul] at hle
    exact hpos.not_ge hle

/-- A number not below one of the format is not rounded below it. -/
theorem RoundsTo.exact_le
    (h : RoundsTo v w) (hv : 0 ≤ v) (hx : Exact x) (hle : x ≤ v) :
    x ≤ w := by
  obtain ⟨m, e, hcanonical, rfl⟩ := hx
  rcases hv.eq_or_lt with rfl | hpos
  · rwa [h.eq_zero]
  · exact h.ge_of_ge hpos hcanonical hle

theorem RoundsTo.eq_of_exact
    (h : RoundsTo x w) (hnonneg : 0 ≤ x) (hx : Exact x) :
    w = x :=
  le_antisymm (h.le_exact hnonneg hx le_rfl) (h.exact_le hnonneg hx le_rfl)

/-- A number of the format is rounded to itself. -/
theorem roundsTo_self
    (hnonneg : 0 ≤ x) (hx : Exact x) :
    RoundsTo x x := by
  rcases hnonneg.eq_or_lt with rfl | hpos
  · exact roundsTo_zero_zero
  · obtain ⟨w, hw⟩ := exists_roundsTo hpos
    rwa [hw.eq_of_exact hnonneg hx] at hw

/-! ### Rounding with any exponent -/

/-- A mantissa that is extended stands for the same number with a lower exponent. -/
theorem shiftLeft_mul_zpow
    (m k : Nat) (e : Int) :
    ((m <<< k : Nat) : ℚ) * 2 ^ (e - k) = m * 2 ^ e := by
  rw [Nat.shiftLeft_eq, Nat.cast_mul, Nat.cast_pow, Nat.cast_two, mul_assoc, ← zpow_natCast,
    ← zpow_add₀ two_ne_zero, add_sub_cancel]

/-- A mantissa with few bits is extended before it is rounded. -/
theorem round_rounds
    (s : Sign) {m : Nat} (hm : 0 < m) (e : Int) :
    ∃ w, RoundsTo (m * 2 ^ e) w ∧ Holds s (UnpackedFloat.round .binary64 s m e) w := by
  have hlow : (2 : ℚ) ^ (m.log2 + e) ≤ m * 2 ^ e := by
    rw [zpow_add₀ two_ne_zero, zpow_natCast]
    gcongr
    exact_mod_cast Nat.log2_self_le hm.ne'
  have hsize := ulpExponent_ge hlow
  have hmin : -1074 ≤ ulpExponent (m * 2 ^ e) := le_max_right _ _
  have htarget : Format.binary64.targetExponent (totalExponent m e) ≤ ulpExponent (m * 2 ^ e) := by
    rw [targetExponent_binary64]
    omega
  unfold UnpackedFloat.round decreaseExponent
  dsimp only
  generalize Format.binary64.targetExponent (totalExponent m e) = target at htarget
  have hvalue := shiftLeft_mul_zpow m (e - target).toNat e
  have hpos : (0 : ℚ) < (m <<< (e - target).toNat : Nat) := by
    rw [Nat.shiftLeft_eq]
    positivity
  have hrounds := roundWithAccuracy_rounds s (describes_exact (m <<< (e - target).toNat)) hpos
    (e := e - (e - target).toNat) (by rw [hvalue]; omega)
  rwa [hvalue] at hrounds

theorem represents_pack_zero
    (s : Sign) :
    Represents (Float.Model.pack (.zero s)).unpack 0 := by
  rw [unpack_pack_zero]
  exact .zero s

theorem normalize_rounds
    (m : Nat) (e : Int) :
    ∃ w, RoundsTo (m * 2 ^ e) w ∧
      Represents (Float.Model.pack (UnpackedFloat.normalize .binary64 m e .positive)).unpack w := by
  rcases Nat.eq_zero_or_pos m with rfl | hm
  · refine ⟨0, by rw [Nat.cast_zero, zero_mul]; exact roundsTo_zero_zero, ?_⟩
    exact represents_pack_zero .positive
  · obtain ⟨w, hw, hholds⟩ := round_rounds .positive hm e
    have hstored := unpack_pack_of_holds hholds
    rw [factor, one_mul] at hstored
    refine ⟨w, hw, ?_⟩
    rwa [UnpackedFloat.normalize, compare_gt_iff_gt.mpr (by exact_mod_cast hm), Int.toNat_natCast]

/-- A word is converted to the nearest number. -/
theorem denotes_toFloat
    (n : UInt64) :
    ∃ w, RoundsTo n.toNat w ∧ Denotes n.toFloat w := by
  have h := normalize_rounds n.toNat 0
  rwa [zpow_zero, mul_one] at h

/-! ### Sums and products -/

/-- A number that is not negative and below the infinite ones. -/
inductive Finite : UnpackedFloat → ℚ → Prop
  | zero (s : Sign) : Finite (.zero s) 0
  | positive {m : Nat} {e : Int} (hm : 0 < m) :
      Canonical m e →
      e ≤ 971 →
      Finite (.finite .positive m e hm) (m * 2 ^ e)

theorem Represents.finite_of_nonneg
    {u : UnpackedFloat} (h : Represents u x) (hx : 0 ≤ x) (hlt : x < 2 ^ 1024) :
    Finite u x := by
  cases h with
  | zero s => exact .zero s
  | finite s hm hcanonical he =>
      rename_i m e
      cases s with
      | negative =>
          have hpos : (0 : ℚ) < m * 2 ^ e := by positivity
          rw [factor, neg_one_mul] at hx
          linarith
      | positive =>
          rw [factor, one_mul]
          exact .positive hm hcanonical he
  | infinity s hw =>
      have hpos : (0 : ℚ) < 2 ^ 1024 := by positivity
      cases s with
      | negative =>
          rw [factor, neg_one_mul] at hx
          exact absurd (hpos.trans_le hw) (neg_nonneg.mp hx).not_gt
      | positive =>
          rw [factor, one_mul] at hlt
          exact absurd hw hlt.not_ge

theorem Finite.represents
    {u : UnpackedFloat} (h : Finite u x) :
    Represents u x := by
  cases h with
  | zero s => exact .zero s
  | positive hm hcanonical he =>
      have hrepresents := Represents.finite .positive hm hcanonical he
      rwa [factor, one_mul] at hrepresents

theorem Finite.exact
    {u : UnpackedFloat} (h : Finite u x) :
    0 ≤ x ∧ Exact x := by
  cases h with
  | zero => exact ⟨le_rfl, exact_zero⟩
  | positive _ hcanonical => exact ⟨by positivity, _, _, hcanonical, rfl⟩

/-- A number of the format is stored as it is. -/
theorem Finite.stored
    {u : UnpackedFloat} (h : Finite u x) :
    ∃ w, RoundsTo x w ∧ Represents (Float.Model.pack u).unpack w := by
  obtain ⟨hnonneg, hexact⟩ := h.exact
  refine ⟨x, roundsTo_self hnonneg hexact, ?_⟩
  rw [h.represents.unpack_pack]
  exact h.represents

/-- A product of canonical numbers has all the bits of the result. -/
theorem Canonical.mul_exponent_le
    {m m' : Nat} {e e' : Int} (h : Canonical m e) (h' : Canonical m' e') (hm : 0 < m)
    (hm' : 0 < m') :
    e + e' ≤ ulpExponent ((m * m' : Nat) * 2 ^ (e + e')) := by
  have hmin : -1074 ≤ ulpExponent ((m * m' : Nat) * 2 ^ (e + e')) := le_max_right _ _
  by_cases hfull : 2 ^ 52 ≤ m * m'
  · have hlow : (2 : ℚ) ^ (52 + (e + e')) ≤ (m * m' : Nat) * 2 ^ (e + e') := by
      rw [zpow_add₀ two_ne_zero]
      gcongr
      exact_mod_cast hfull
    have hsize := ulpExponent_ge hlow
    omega
  · have hle := Nat.le_mul_of_pos_right m hm'
    have hle' := Nat.le_mul_of_pos_left m' hm
    have he := h.normal.resolve_left (by omega)
    have he' := h'.normal.resolve_left (by omega)
    omega

theorem Finite.mul_rounds
    {u u' : UnpackedFloat} (h : Finite u x) (h' : Finite u' y) :
    ∃ w, RoundsTo (x * y) w ∧
      Represents (Float.Model.pack (UnpackedFloat.mul .binary64 u u')).unpack w := by
  cases h with
  | zero s =>
      refine ⟨0, by rw [zero_mul]; exact roundsTo_zero_zero, ?_⟩
      cases h' with
      | zero =>
          rw [UnpackedFloat.mul]
          exact represents_pack_zero _
      | positive =>
          rw [UnpackedFloat.mul]
          exact represents_pack_zero _
  | positive hm hcanonical =>
      rename_i m e _
      cases h' with
      | zero =>
          refine ⟨0, by rw [mul_zero]; exact roundsTo_zero_zero, ?_⟩
          rw [UnpackedFloat.mul]
          exact represents_pack_zero _
      | positive hm' hcanonical' =>
          rename_i m' e' _
          obtain ⟨w, hw, hholds⟩ := roundWithAccuracy_rounds .positive (describes_exact (m * m'))
            (by exact_mod_cast Nat.mul_pos hm hm') (hcanonical.mul_exponent_le hcanonical' hm hm')
          have hvalue : ((m * m' : Nat) : ℚ) * 2 ^ (e + e') = m * 2 ^ e * (m' * 2 ^ e') := by
            rw [zpow_add₀ two_ne_zero, Nat.cast_mul]
            ring
          have hstored := unpack_pack_of_holds hholds
          rw [factor, one_mul] at hstored
          rw [hvalue] at hw
          exact ⟨w, hw, hstored⟩

/-- A sum with zero is not rounded, any other is aligned to the smaller exponent. -/
theorem Finite.add_rounds
    {u u' : UnpackedFloat} (h : Finite u x) (h' : Finite u' y) :
    ∃ w, RoundsTo (x + y) w ∧
      Represents (Float.Model.pack (UnpackedFloat.add .binary64 u u')).unpack w := by
  cases h with
  | zero s =>
      rw [zero_add]
      cases h' with
      | zero s' =>
          refine ⟨0, roundsTo_zero_zero, ?_⟩
          cases s <;> cases s' <;> exact .zero _
      | positive hm' hcanonical' he' => exact (Finite.positive hm' hcanonical' he').stored
  | positive hm hcanonical he =>
      rename_i m e
      cases h' with
      | zero s' =>
          rw [add_zero]
          exact (Finite.positive hm hcanonical he).stored
      | positive =>
          rename_i m' e' _ _ _
          have hleft := shiftLeft_mul_zpow m (e - min e e').toNat e
          have hright := shiftLeft_mul_zpow m' (e' - min e e').toNat e'
          rw [Int.toNat_sub_of_le (min_le_left e e'), sub_sub_cancel] at hleft
          rw [Int.toNat_sub_of_le (min_le_right e e'), sub_sub_cancel] at hright
          obtain ⟨w, hw, hstored⟩ := normalize_rounds
            (m <<< (e - min e e').toNat + m' <<< (e' - min e e').toNat) (min e e')
          rw [Nat.cast_add, add_mul, hleft, hright] at hw
          exact ⟨w, hw, hstored⟩

theorem Denotes.mul
    (ha : Denotes a x) (hb : Denotes b y) (hx : 0 ≤ x) (hy : 0 ≤ y) (hxlt : x < 2 ^ 1024)
    (hylt : y < 2 ^ 1024) :
    ∃ w, RoundsTo (x * y) w ∧ Denotes (a * b) w :=
  (ha.finite_of_nonneg hx hxlt).mul_rounds (hb.finite_of_nonneg hy hylt)

theorem Denotes.add
    (ha : Denotes a x) (hb : Denotes b y) (hx : 0 ≤ x) (hy : 0 ≤ y) (hxlt : x < 2 ^ 1024)
    (hylt : y < 2 ^ 1024) :
    ∃ w, RoundsTo (x + y) w ∧ Denotes (a + b) w :=
  (ha.finite_of_nonneg hx hxlt).add_rounds (hb.finite_of_nonneg hy hylt)

theorem Represents.eq_zero
    {u : UnpackedFloat} (h : Represents u x) (hx : x = 0) :
    ∃ s, u = .zero s := by
  have hpos : ∀ s {z : ℚ}, 0 < z → factor s * z ≠ 0 := by
    intro s z hz
    cases s with
    | negative => exact mul_ne_zero (neg_ne_zero.mpr one_ne_zero) hz.ne'
    | positive => exact mul_ne_zero one_ne_zero hz.ne'
  cases h with
  | zero s => exact ⟨s, rfl⟩
  | finite s hm => exact absurd hx (hpos s (by positivity))
  | infinity s hw => exact absurd hx (hpos s (lt_of_lt_of_le (by positivity) hw))

theorem unpack_pack_notANumber : (Float.Model.pack .notANumber).unpack = .notANumber :=
  rfl

/-- A product with zero is zero, or it is not a number at all. -/
theorem Represents.zero_mul
    {u : UnpackedFloat} (h : Represents u 0) (v : UnpackedFloat) :
    Represents (Float.Model.pack (UnpackedFloat.mul .binary64 u v)).unpack 0 ∨
      (Float.Model.pack (UnpackedFloat.mul .binary64 u v)).unpack = .notANumber := by
  obtain ⟨s, rfl⟩ := h.eq_zero rfl
  cases v with
  | notANumber => exact Or.inr unpack_pack_notANumber
  | infinity s' => exact Or.inr unpack_pack_notANumber
  | zero s' =>
      rw [UnpackedFloat.mul]
      exact Or.inl (represents_pack_zero _)
  | finite s' m e hm =>
      rw [UnpackedFloat.mul]
      exact Or.inl (represents_pack_zero _)

/-- No product with zero is above zero, whatever the other number is. -/
theorem not_lt_zero_mul
    {c : Float} (ha : Denotes a 0) (hc : Denotes c x) (hx : 0 ≤ x) (b : Float) :
    ¬c < a * b := by
  rcases Represents.zero_mul ha b.toModel.unpack with hzero | hnan
  · have hproduct : Denotes (a * b) 0 := hzero
    rw [hc.lt_iff hproduct (Or.inr (by rw [abs_zero]; positivity))]
    exact hx.not_gt
  · have hmodel : c < a * b ↔ c.toModel.unpack.lt (a * b).toModel.unpack = true :=
      decide_eq_true_iff
    have hproduct : (a * b).toModel.unpack = .notANumber := hnan
    rw [hmodel, hproduct, UnpackedFloat.lt]
    cases c.toModel.unpack <;> exact Bool.noConfusion

/-! ### Natural bounds -/

theorem natCast_lt_large
    {n : Nat} (hn : n < 2 ^ 53) :
    (n : ℚ) < 2 ^ 1024 := by
  exact_mod_cast hn.trans (Nat.pow_lt_pow_right one_lt_two (by decide))

/-- A natural number of at most 53 bits is converted by way of a word and not rounded. -/
theorem denotes_ofNat
    {n : Nat} (hn : n < 2 ^ 53) :
    Denotes (Float.ofNat n) n := by
  have hword : n.toUInt64.toNat = n := UInt64.toNat_ofNat_of_lt' (hn.trans (by decide))
  have hexact := exact_natCast hn
  obtain ⟨w, hw, hdenotes⟩ := denotes_toFloat n.toUInt64
  rw [hword] at hw
  rw [hw.eq_of_exact n.cast_nonneg hexact] at hdenotes
  -- the table of powers of ten is used for the exponent zero as well
  have htable : Float.ofNat n = n.toUInt64.toFloat * 1.0 := by
    show Float.ofScientific n false 0 = _
    unfold Float.ofScientific
    rw [dif_pos ⟨hn, by decide⟩]
    rfl
  obtain ⟨w, hw, hproduct⟩ := hdenotes.mul denotes_one n.cast_nonneg zero_le_one
    (natCast_lt_large hn) (one_lt_pow₀ one_lt_two (by decide))
  rw [mul_one] at hw
  rwa [hw.eq_of_exact n.cast_nonneg hexact, ← htable] at hproduct

/-- A number from zero up to a natural number. -/
def AtMost (a : Float) (n : Nat) : Prop :=
  ∃ x, Denotes a x ∧ 0 ≤ x ∧ x ≤ n

namespace AtMost

variable {m n : Nat}

theorem mono
    (ha : AtMost a m) (h : m ≤ n) :
    AtMost a n := by
  obtain ⟨x, hdenotes, hx, hle⟩ := ha
  exact ⟨x, hdenotes, hx, hle.trans (by exact_mod_cast h)⟩

theorem denotes_zero
    (ha : AtMost a 0) :
    Denotes a 0 := by
  obtain ⟨x, hdenotes, hx, hle⟩ := ha
  rwa [le_antisymm (by exact_mod_cast hle) hx] at hdenotes

theorem add
    (ha : AtMost a m) (hb : AtMost b n) (hsum : m + n < 2 ^ 53) :
    AtMost (a + b) (m + n) := by
  obtain ⟨x, hdx, hx, hxm⟩ := ha
  obtain ⟨y, hdy, hy, hyn⟩ := hb
  obtain ⟨w, hw, hdw⟩ := hdx.add hdy hx hy (hxm.trans_lt (natCast_lt_large (by omega)))
    (hyn.trans_lt (natCast_lt_large (by omega)))
  refine ⟨w, hdw, hw.nonneg, hw.le_exact (add_nonneg hx hy) (exact_natCast hsum) ?_⟩
  rw [Nat.cast_add]
  exact add_le_add hxm hyn

theorem mul
    (ha : AtMost a m) (hb : AtMost b n) (hm : m < 2 ^ 53) (hn : n < 2 ^ 53)
    (hproduct : m * n < 2 ^ 53) :
    AtMost (a * b) (m * n) := by
  obtain ⟨x, hdx, hx, hxm⟩ := ha
  obtain ⟨y, hdy, hy, hyn⟩ := hb
  obtain ⟨w, hw, hdw⟩ := hdx.mul hdy hx hy (hxm.trans_lt (natCast_lt_large hm))
    (hyn.trans_lt (natCast_lt_large hn))
  refine ⟨w, hdw, hw.nonneg, hw.le_exact (mul_nonneg hx hy) (exact_natCast hproduct) ?_⟩
  rw [Nat.cast_mul]
  exact mul_le_mul hxm hyn hy m.cast_nonneg

end AtMost

theorem atMost_ofNat
    {n : Nat} (hn : n < 2 ^ 53) :
    AtMost (Float.ofNat n) n :=
  ⟨n, denotes_ofNat hn, n.cast_nonneg, le_rfl⟩

theorem AtMost.not_lt
    {n : Nat} (ha : AtMost a n) (hn : n < 2 ^ 53) :
    ¬Float.ofNat n < a := by
  obtain ⟨x, hdenotes, -, hle⟩ := ha
  have hfinite : |(n : ℚ)| < 2 ^ 1024 := by
    rw [abs_of_nonneg n.cast_nonneg]
    exact natCast_lt_large hn
  rw [(denotes_ofNat hn).lt_iff hdenotes (Or.inl hfinite)]
  exact hle.not_gt

/-- A word is converted to within the powers of two around it. -/
theorem toFloat_bounds
    {n : UInt64} {k : Nat} (hpos : 0 < n.toNat) (hle : n.toNat ≤ 2 ^ k) :
    ∃ x, Denotes n.toFloat x ∧ 1 ≤ x ∧ x ≤ 2 ^ k := by
  obtain ⟨w, hw, hdenotes⟩ := denotes_toFloat n
  refine ⟨w, hdenotes, ?_, ?_⟩
  · exact hw.exact_le n.toNat.cast_nonneg (exact_two_pow 0) (by exact_mod_cast hpos)
  · exact hw.le_exact n.toNat.cast_nonneg (exact_two_pow k) (by exact_mod_cast hle)

end Binary64
end DeskCalculator
