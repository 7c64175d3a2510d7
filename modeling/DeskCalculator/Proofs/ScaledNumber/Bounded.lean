import DeskCalculator.Proofs.MachineWord
import DeskCalculator.Proofs.ScaledNumber.Arithmetic
import DeskCalculator.ScaledNumber.Bounded

/-!
# Scaled numbers with exponents in words

An operation in checked words stops with an overflow, or it is the operation with
any rule that keeps what fits; with exact exponents it is the operation on exact
integers.  Between them these two facts give every run in words in which no
exponent leaves its word.

That none does is a matter of the places of the limbs.  A number lies within `b`
if its limbs stand at the places from `-b` up to `b`; sums and products move the
outermost places by little, and exponents and shifts are differences of places.

**Results.**
* `mulBy_follows`, `mulBy_exact` and their likes for the other operations.
* `Within.mulBy`, `Within.addBy`, `Within.compareBy`: operations whose exponents
  fit in their words.
-/

namespace DeskCalculator

/-! ### Numbers of limbs -/

/-- A normalized magnitude has no more limbs than its value needs. -/
theorem Magnitude.Normalized.length_le_of_toNat_lt
    {m : Magnitude} (hm : m.Normalized) {k : Nat} (h : m.toNat < 2 ^ (32 * k)) :
    m.length ≤ k := by
  by_contra hlong
  have hne : m ≠ [] := by
    rintro rfl
    simp at hlong
  have hpow : 2 ^ (32 * k) ≤ 2 ^ (32 * (m.length - 1)) :=
    Nat.pow_le_pow_right (by decide) (by omega)
  exact absurd (hm.pow_le hne) (by omega)

namespace ScaledNumber

variable {x y : ScaledNumber} {bits : Nat} {keep : WordRule} {negative : Bool} {e : Int}
  {m : Magnitude}

/-! ### Checked words -/

section

variable (hkeep : keep.Keeps (FitsWord bits))

include hkeep

theorem ofPartsBy_follows
    (negative : Bool) (e : Int) (m : Magnitude) :
    Follows (ofPartsBy (.checked bits) negative e m) (ofPartsBy keep negative e m) :=
  .ite (.refl _) ((hkeep.follows _).bind fun _ => (hkeep.follows _).bind fun _ => .refl _)

theorem magnitudeAtBy_follows
    (x : ScaledNumber) (e : Int) :
    Follows (x.magnitudeAtBy (.checked bits) e) (x.magnitudeAtBy keep e) :=
  .ite (.refl _) ((hkeep.follows _).bind fun _ => .refl _)

theorem integerMagnitudeBy_follows
    (x : ScaledNumber) :
    Follows (x.integerMagnitudeBy (.checked bits)) (x.integerMagnitudeBy keep) :=
  .ite (magnitudeAtBy_follows hkeep _ _) ((hkeep.follows _).bind fun _ => .refl _)

theorem addBy_follows
    (x y : ScaledNumber) :
    Follows (x.addBy (.checked bits) y) (x.addBy keep y) := by
  refine .ite (.refl _) (.ite (.refl _) ?_)
  refine (magnitudeAtBy_follows hkeep _ _).bind fun a => ?_
  refine (magnitudeAtBy_follows hkeep _ _).bind fun b => ?_
  refine .ite (ofPartsBy_follows hkeep _ _ _) ?_
  cases a.compare b with
  | eq => exact .refl _
  | gt => exact ofPartsBy_follows hkeep _ _ _
  | lt => exact ofPartsBy_follows hkeep _ _ _

theorem mulBy_follows
    (x y : ScaledNumber) :
    Follows (x.mulBy (.checked bits) y) (x.mulBy keep y) :=
  .ite (.refl _) ((hkeep.follows _).bind fun _ => ofPartsBy_follows hkeep _ _ _)

theorem divModBy_follows
    (x y : ScaledNumber) :
    Follows (x.divModBy (.checked bits) y) (x.divModBy keep y) := by
  refine (integerMagnitudeBy_follows hkeep _).bind fun a => ?_
  refine (integerMagnitudeBy_follows hkeep _).bind fun b => .ite (.refl _) ?_
  refine (ofPartsBy_follows hkeep _ _ _).bind fun _ => ?_
  exact (ofPartsBy_follows hkeep _ _ _).bind fun _ => .refl _

theorem gcdBy_follows
    (x y : ScaledNumber) :
    Follows (x.gcdBy (.checked bits) y) (x.gcdBy keep y) := by
  refine (integerMagnitudeBy_follows hkeep _).bind fun a => ?_
  exact (integerMagnitudeBy_follows hkeep _).bind fun b => ofPartsBy_follows hkeep _ _ _

theorem compareBy_follows
    (x y : ScaledNumber) :
    Follows (x.compareBy (.checked bits) y) (x.compareBy keep y) := by
  refine .ite (.refl _) (.ite (.refl _) ?_)
  refine (magnitudeAtBy_follows hkeep _ _).bind fun a => ?_
  exact (magnitudeAtBy_follows hkeep _ _).bind fun b => .refl _

end

/-! ### Exponents in a range -/

/-- Parts with the mantissa of a canonical number are canonical as they are. -/
theorem exponent_ofParts_mantissa
    (hx : Canonical x) (hne : x ≠ zero) (negative : Bool) (e : Int) :
    (ofParts negative e x.mantissa).exponent = e := by
  have hnorm : x.mantissa.normalize = x.mantissa := if_pos hx.normalized
  obtain rfl | ⟨-, hmant, hhead, -⟩ := hx
  · exact absurd rfl hne
  unfold ofParts
  dsimp only
  rw [hnorm, if_neg hmant]
  cases hm : x.mantissa with
  | nil => exact absurd hm hmant
  | cons limb limbs =>
      have hlimb : limb ≠ 0 := by
        rintro rfl
        exact hhead (by rw [hm]; rfl)
      simp [hlimb]

section

variable {range : Int → Prop} (hkeep : keep.Keeps range)

include hkeep

/-- The canonical form, if its exponent and the number of zero limbs are in the range. -/
theorem ofPartsBy_eq
    (hlow : range ((ofParts negative e m).exponent - e))
    (he : range (ofParts negative e m).exponent) :
    ofPartsBy keep negative e m = .ok (ofParts negative e m) := by
  unfold ofPartsBy
  unfold ofParts at hlow he ⊢
  dsimp only at *
  split
  · rfl
  · rename_i hne
    rw [if_neg hne] at hlow he
    dsimp only at hlow he
    rw [add_sub_cancel_left] at hlow
    simp only [hkeep _ hlow, hkeep _ he, bind, Except.bind]
    rfl

/-- Integers have exponents that count their low zero limbs. -/
theorem ofPartsBy_zero_eq
    (he : range (ofParts negative 0 m).exponent) :
    ofPartsBy keep negative 0 m = .ok (ofParts negative 0 m) :=
  ofPartsBy_eq hkeep (by rwa [sub_zero]) he

/-- The shift up from a lower exponent is a count. -/
theorem magnitudeAtBy_eq
    (he : e ≤ x.exponent) (hshift : range (x.exponent - e)) :
    x.magnitudeAtBy keep e = .ok (x.magnitudeAt e) := by
  unfold magnitudeAtBy magnitudeAt
  split
  · rfl
  · simp only [hkeep _ hshift, bind, Except.bind]
    rw [if_neg (by omega)]
    rfl

theorem integerMagnitudeBy_eq
    (hx : range |x.exponent|) :
    x.integerMagnitudeBy keep = .ok x.integerMagnitude := by
  unfold integerMagnitudeBy integerMagnitude
  split
  · rename_i h
    rw [abs_of_nonneg h] at hx
    exact magnitudeAtBy_eq hkeep h (by rwa [sub_zero])
  · rename_i h
    rw [abs_of_neg (not_le.mp h)] at hx
    simp only [hkeep _ hx, bind, Except.bind]
    rw [if_neg (by omega)]
    rfl

/-- Sums: the shifts to the lower exponent, and the exponent of the sum from there. -/
theorem addBy_eq
    (hx : range (x.exponent - min x.exponent y.exponent))
    (hy : range (y.exponent - min x.exponent y.exponent))
    (hlow : range ((x + y).exponent - min x.exponent y.exponent))
    (he : range (x + y).exponent) :
    x.addBy keep y = .ok (x + y) := by
  change range ((x.add y).exponent - _) at hlow
  change range (x.add y).exponent at he
  show x.addBy keep y = .ok (x.add y)
  unfold addBy
  unfold ScaledNumber.add at hlow he ⊢
  dsimp only at *
  rw [magnitudeAtBy_eq hkeep (min_le_left _ _) hx, magnitudeAtBy_eq hkeep (min_le_right _ _) hy]
  generalize x.magnitudeAt _ = a at *
  generalize y.magnitudeAt _ = b at *
  simp only [bind, Except.bind]
  split_ifs at * with hzero hzero' hsign
  · rfl
  · rfl
  · exact ofPartsBy_eq hkeep hlow he
  · cases hord : a.compare b with
    | eq => rfl
    | gt =>
        rw [hord] at hlow he
        exact ofPartsBy_eq hkeep hlow he
    | lt =>
        rw [hord] at hlow he
        exact ofPartsBy_eq hkeep hlow he

/-- Products: the sum of the exponents, and the exponent of the product from there. -/
theorem mulBy_eq
    (hsum : range (x.exponent + y.exponent))
    (hlow : range ((x * y).exponent - (x.exponent + y.exponent)))
    (he : range (x * y).exponent) :
    x.mulBy keep y = .ok (x * y) := by
  change range ((x.mul y).exponent - _) at hlow
  change range (x.mul y).exponent at he
  show x.mulBy keep y = .ok (x.mul y)
  unfold mulBy
  unfold ScaledNumber.mul at hlow he ⊢
  split
  · rfl
  · rename_i hne
    rw [if_neg hne] at hlow he
    simp only [hkeep _ hsum, bind, Except.bind]
    exact ofPartsBy_eq hkeep hlow he

/-- Quotients: both operands as integers, and the exponents of both results. -/
theorem divModBy_eq
    (hx : range |x.exponent|) (hy : range |y.exponent|) (hne : y.integerMagnitude ≠ [])
    (hquot : range (x.divMod y).1.exponent) (hrest : range (x.divMod y).2.exponent) :
    x.divModBy keep y = .ok (x.divMod y) := by
  have hq : ofPartsBy keep (x.sign ≠ y.sign) 0
      (x.integerMagnitude.divMod y.integerMagnitude).1 = .ok (x.divMod y).1 :=
    ofPartsBy_zero_eq hkeep hquot
  have hr : ofPartsBy keep x.isNegative 0
      (x.integerMagnitude.divMod y.integerMagnitude).2 = .ok (x.divMod y).2 :=
    ofPartsBy_zero_eq hkeep hrest
  unfold divModBy
  simp only [integerMagnitudeBy_eq hkeep hx, integerMagnitudeBy_eq hkeep hy, bind, Except.bind,
    if_neg hne, hq, hr]
  rfl

theorem gcdBy_eq
    (hx : range |x.exponent|) (hy : range |y.exponent|) (hgcd : range (x.gcd y).exponent) :
    x.gcdBy keep y = .ok (x.gcd y) := by
  unfold gcdBy
  simp only [integerMagnitudeBy_eq hkeep hx, integerMagnitudeBy_eq hkeep hy, bind, Except.bind]
  exact ofPartsBy_zero_eq hkeep hgcd

/-- Comparisons: the shifts to the lower exponent. -/
theorem compareBy_eq
    (hx : range (x.exponent - min x.exponent y.exponent))
    (hy : range (y.exponent - min x.exponent y.exponent)) :
    x.compareBy keep y = .ok (x.compare y) := by
  unfold compareBy ScaledNumber.compare
  dsimp only
  rw [magnitudeAtBy_eq hkeep (min_le_left _ _) hx, magnitudeAtBy_eq hkeep (min_le_right _ _) hy]
  split
  · rfl
  split
  · rfl
  · rfl

end

/-! ### Places of limbs -/

/-- All limbs stand at the places from `-b` up to `b`. -/
def Within (b : Nat) (x : ScaledNumber) : Prop :=
  -(b : Int) ≤ x.exponent ∧ x.exponent + x.mantissa.length ≤ b

instance (b : Nat) (x : ScaledNumber) : Decidable (x.Within b) :=
  inferInstanceAs (Decidable (_ ∧ _))

theorem within_zero
    (b : Nat) :
    zero.Within b := by
  constructor <;> simp [zero]

theorem Within.mono
    {b c : Nat} (hx : x.Within b) (h : b ≤ c) :
    x.Within c := by
  obtain ⟨hlow, hhigh⟩ := hx
  constructor <;> omega

/-- Every number is within some bound. -/
theorem exists_within
    (x : ScaledNumber) :
    ∃ b, x.Within b := by
  refine ⟨x.exponent.natAbs + x.mantissa.length, ?_, ?_⟩ <;> omega

/-- The canonical form has limbs at no other places. -/
theorem within_ofParts
    {b k : Nat} (negative : Bool) (hlow : -(b : Int) ≤ e) (hm : m.toNat < 2 ^ (32 * k))
    (hhigh : e + k ≤ b) :
    (ofParts negative e m).Within b := by
  have hlength : m.normalize.length ≤ k :=
    (Magnitude.normalized_normalize m).length_le_of_toNat_lt (by rwa [Magnitude.toNat_normalize])
  unfold ofParts
  dsimp only
  split
  · exact within_zero b
  · have hsplit := congrArg List.length
      (List.takeWhile_append_dropWhile (p := (· = 0)) (l := m.normalize))
    rw [List.length_append] at hsplit
    constructor <;> dsimp only <;> omega

/-- Above the exponent `e` a mantissa has the limbs up to the place `b`. -/
theorem Within.toNat_magnitudeAt_lt
    {b : Nat} (hx : x.Within b) (he : e ≤ x.exponent) :
    (x.magnitudeAt e).toNat < 2 ^ (32 * (b - e).toNat) := by
  obtain ⟨-, hhigh⟩ := hx
  refine (Magnitude.toNat_lt _).trans_le (Nat.pow_le_pow_right (by decide) ?_)
  unfold magnitudeAt
  split
  · simp
  · rw [List.length_append, List.length_replicate]
    omega

/-- The limbs of a product reach as far as those of both factors together. -/
theorem Within.mul
    {b c : Nat} (hx : x.Within b) (hy : y.Within c) :
    (x * y).Within (b + c) := by
  show (x.mul y).Within (b + c)
  obtain ⟨hxlow, hxhigh⟩ := hx
  obtain ⟨hylow, hyhigh⟩ := hy
  unfold ScaledNumber.mul
  split
  · exact within_zero _
  · refine within_ofParts (k := x.mantissa.length + y.mantissa.length) _ ?_ ?_ ?_
    · push_cast
      omega
    · rw [Magnitude.toNat_mul, Nat.mul_add, Nat.pow_add]
      exact Nat.mul_lt_mul'' (Magnitude.toNat_lt _) (Magnitude.toNat_lt _)
    · push_cast
      omega

/-- The limbs of a sum reach one place further than those of the summands. -/
theorem Within.add
    {b : Nat} (hx : x.Within b) (hy : y.Within b) (hcx : Canonical x) (hcy : Canonical y) :
    (x + y).Within (b + 1) := by
  show (x.add y).Within (b + 1)
  have ha := hx.toNat_magnitudeAt_lt (min_le_left x.exponent y.exponent)
  have hb := hy.toNat_magnitudeAt_lt (min_le_right x.exponent y.exponent)
  have hanorm := (magnitudeAt_min_left hcx y.exponent).1
  have hbnorm := (magnitudeAt_min_right hcy x.exponent).1
  have hlow : -(b : Int) ≤ min x.exponent y.exponent := le_min hx.1 hy.1
  have hhigh : min x.exponent y.exponent ≤ b := by
    have := hx.2
    omega
  unfold ScaledNumber.add
  dsimp only
  generalize x.magnitudeAt _ = p at *
  generalize y.magnitudeAt _ = q at *
  generalize min x.exponent y.exponent = e at *
  have hpow : 2 ^ (32 * ((b - e).toNat + 1)) = 2 ^ (32 * (b - e).toNat) * 2 ^ 32 := by
    rw [Nat.mul_succ, Nat.pow_add]
  have hparts : ∀ (negative : Bool) (m : Magnitude), m.toNat ≤ p.toNat + q.toNat →
      (ofParts negative e m).Within (b + 1) := by
    intro negative m hm
    refine within_ofParts (k := (b - e).toNat + 1) negative ?_ ?_ ?_
    · push_cast
      omega
    · omega
    · push_cast
      omega
  split_ifs
  · exact hy.mono (Nat.le_succ b)
  · exact hx.mono (Nat.le_succ b)
  · exact hparts _ _ (Magnitude.toNat_add p q).le
  · cases hord : p.compare q with
    | eq => exact within_zero _
    | gt =>
        have hle : q.toNat ≤ p.toNat :=
          not_lt.mp (mt (hanorm.compare_eq_lt hbnorm).mpr (by simp [hord]))
        refine hparts _ _ ?_
        rw [Magnitude.toNat_sub hle]
        omega
    | lt =>
        have hle : p.toNat ≤ q.toNat := ((hanorm.compare_eq_lt hbnorm).mp hord).le
        refine hparts _ _ ?_
        rw [Magnitude.toNat_sub hle]
        omega

/-! ### Operations whose exponents fit -/

/-- A number not beyond a limit below the words fits in them. -/
theorem fitsWord_of_le
    {n : Int} {limit : Nat} (hlimit : limit < 2 ^ (bits - 1)) (hlow : -(limit : Int) ≤ n)
    (hhigh : n ≤ limit) :
    FitsWord bits n := by
  have hcast : (limit : Int) < 2 ^ (bits - 1) := by exact_mod_cast hlimit
  exact ⟨by omega, by omega⟩

section

variable {b : Nat} (hkeep : keep.Keeps (FitsWord bits))

include hkeep

theorem Within.mulBy
    (hx : x.Within b) (hy : y.Within b) (hb : 4 * b < 2 ^ (bits - 1)) :
    x.mulBy keep y = .ok (x * y) := by
  have hxy := hx.mul hy
  simp only [Within] at hx hy hxy
  refine mulBy_eq hkeep ?_ ?_ ?_ <;>
    exact fitsWord_of_le hb (by push_cast at *; omega) (by push_cast at *; omega)

theorem Within.addBy
    (hx : x.Within b) (hy : y.Within b) (hcx : Canonical x) (hcy : Canonical y)
    (hb : 2 * b + 1 < 2 ^ (bits - 1)) :
    x.addBy keep y = .ok (x + y) := by
  have hxy := hx.add hy hcx hcy
  simp only [Within] at hx hy hxy
  refine addBy_eq hkeep ?_ ?_ ?_ ?_ <;>
    exact fitsWord_of_le hb (by push_cast at *; omega) (by push_cast at *; omega)

theorem Within.compareBy
    (hx : x.Within b) (hy : y.Within b) (hb : 2 * b < 2 ^ (bits - 1)) :
    x.compareBy keep y = .ok (x.compare y) := by
  simp only [Within] at hx hy
  refine compareBy_eq hkeep ?_ ?_ <;>
    exact fitsWord_of_le hb (by push_cast at *; omega) (by push_cast at *; omega)

end

/-! ### Divisors -/

/-- A divisor of an integer has no more low zero limbs. -/
theorem exponent_ofInt_le_of_dvd
    {a n : Int} (h : a ∣ n) (hn : n ≠ 0) :
    (ofInt a).exponent ≤ (ofInt n).exponent := by
  obtain ⟨c, rfl⟩ := h
  have hane : ofInt (a * c) ≠ zero := by
    rw [← ofInt_zero]
    exact fun heq => hn (ofInt_injective heq)
  have ha := (canonical_ofInt a).abs_toRat
  have hprod := (canonical_ofInt (a * c)).abs_toRat
  rw [toRat_ofInt] at ha hprod
  refine exponent_le_of_mantissa_eq (n := c.natAbs * (ofInt a).mantissa.toNat)
    ((canonical_ofInt _).mantissa_mod hane) ?_
  rw [← hprod, Int.cast_mul, abs_mul, ha, Nat.cast_mul, Nat.cast_natAbs, Int.cast_abs]
  ring

/-- A divisor leaves no remainder. -/
theorem divMod_snd_of_dvd
    {n g : Int} (h : g ∣ n) :
    ((ofInt n).divMod (ofInt g)).2 = zero := by
  have hrest : ((ofInt n).divMod (ofInt g)).2 =
      ofParts (ofInt n).isNegative 0
        ((ofInt n).integerMagnitude.divMod (ofInt g).integerMagnitude).2 := rfl
  rw [hrest]
  refine (canonical_ofParts _ _ _).toRat_eq_zero.mp ?_
  rw [toRat_ofParts, integerMagnitude_ofInt, integerMagnitude_ofInt,
    Magnitude.toNat_divMod_snd (Magnitude.normalized_ofNat _) (Magnitude.normalized_ofNat _),
    Magnitude.toNat_ofNat, Magnitude.toNat_ofNat,
    Nat.mod_eq_zero_of_dvd (Int.natAbs_dvd_natAbs.mpr h)]
  simp

end ScaledNumber
end DeskCalculator
