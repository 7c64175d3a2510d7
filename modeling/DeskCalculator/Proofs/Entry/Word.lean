import DeskCalculator.Proofs.Engine.Reachable
import DeskCalculator.Proofs.Entry.Sound
import DeskCalculator.Proofs.Entry.Value
import DeskCalculator.Proofs.Numeral.Order
import DeskCalculator.Proofs.Ratio.Truncation

/-!
# Typing a word

On words an entry is compared with the largest word as a string: by its length,
and by its characters if the lengths agree.  As no key leaves a leading zero but
alone, this compares the numbers.  A digit is accepted exactly if the number it
makes is still a word, and the limit on the length never refuses another one.

**Results.**
* `fitsWord_iff`: a digit string fits in a word if its number does.
* `Bounded.typeDigit?_eq`: what a digit key makes of an entry.
* `TypedBy.bounded`: every entry that keys make holds a word.
* `Bounded.value_eq`: the value of such an entry.
* `Bounded.typeDigits`: the digits of a word are accepted one after the other.
-/

namespace DeskCalculator

/-- The rules for typing words of a width in a base. -/
def EntryRules.ofWords (b : Base) (w : WordSize) : EntryRules where
  radix := b.radix
  onWords := true
  maxWord := maxWordDigits w.bits b.radix
  maxDigits := Engine.maxWordDigitCount

variable {b : Base} {w : WordSize}

/-- The digits of the largest word. -/
theorem maxWordDigits_eq
    (b : Base) (w : WordSize) :
    maxWordDigits w.bits b.radix = digitsOf b.radix (2 ^ w.bits - 1) := by
  obtain ⟨htwo, hradix⟩ := b.radix_bounds
  have hone : (1 : Nat) ≤ 2 ^ w.bits := Nat.one_le_two_pow
  have hmax : ScaledNumber.radixPow 2 w.bits - .one = .ofNat (2 ^ w.bits - 1) := by
    rw [ScaledNumber.radixPow_eq]
    apply ScaledNumber.Canonical.eq_of_toRat_eq
    · exact (ScaledNumber.canonical_ofNat _).sub ScaledNumber.canonical_one
    · exact ScaledNumber.canonical_ofNat _
    · rw [ScaledNumber.toRat_sub (ScaledNumber.canonical_ofNat _) ScaledNumber.canonical_one]
      simp [Nat.cast_sub hone]
  rw [maxWordDigits, hmax, ScaledNumber.toDigits_ofNat htwo hradix]

/-- The largest word has at least one digit, and no more than a word may have. -/
theorem maxWord_bounds
    (b : Base) (w : WordSize) :
    0 < 2 ^ w.bits - 1 ∧
      (digitsOf b.radix (2 ^ w.bits - 1)).length ≤ Engine.maxWordDigitCount := by
  obtain ⟨htwo, -⟩ := b.radix_bounds
  have hbits : 1 < 2 ^ w.bits ∧ 2 ^ w.bits ≤ 2 ^ 64 := by
    cases w <;> decide
  have hpos : 0 < 2 ^ w.bits - 1 := by omega
  refine ⟨hpos, (length_digitsOf_le_iff htwo hpos _).mpr ?_⟩
  calc
    2 ^ w.bits - 1 < 2 ^ 64 := by omega
    _ ≤ b.radix ^ Engine.maxWordDigitCount := Nat.pow_le_pow_left htwo _

/-! ### Comparing digit strings -/

namespace Entry

/-- Without leading zeros digit strings are compared as their numbers. -/
theorem digitsAtMost_iff
    {radix : Nat} (hpos : 0 < radix) (hradix : radix ≤ 16) {cs ds : List Char}
    (hcs : DigitsOf radix cs) (hds : DigitsOf radix ds) (hhead : cs.head? ≠ some '0')
    (hhead' : ds.head? ≠ some '0') :
    digitsAtMost cs ds = true ↔ natOf radix cs ≤ natOf radix ds := by
  have hlength := hcs.length_le_iff hradix hpos hhead
  have hlength' := hds.length_le_iff hradix hpos hhead'
  have hlt := hcs.natOf_lt_pow hradix
  have hlt' := hds.natOf_lt_pow hradix
  simp only [digitsAtMost, Bool.or_eq_true, decide_eq_true_eq, Bool.and_eq_true,
    Bool.not_eq_true', decide_eq_false_iff_not]
  rcases Nat.lt_trichotomy cs.length ds.length with hshort | heq | hlong
  · have hnot := mt (hlength' cs.length).mpr (by omega)
    simp only [hshort, true_or, true_iff]
    omega
  · rw [hds.lt_iff_natOf_lt hradix hcs heq.symm]
    simp only [heq, lt_irrefl, false_or, true_and, not_lt]
  · have hnot := mt (hlength ds.length).mpr (by omega)
    simp only [hlong.ne', hlong.asymm, false_and, or_self, false_iff, not_le]
    omega

/-- A digit string fits in a word if its number does. -/
theorem fitsWord_iff
    {cs : List Char} (h : DigitsOf b.radix cs) :
    fitsWord (.ofWords b w) cs = true ↔ natOf b.radix cs ≤ 2 ^ w.bits - 1 := by
  obtain ⟨htwo, hradix⟩ := b.radix_bounds
  have hmax := areDigits_digitsOf htwo (2 ^ w.bits - 1)
  have hhead := head_digitsOf_ne_zero htwo hradix (maxWord_bounds b w).1
  have hiff := digitsAtMost_iff (by omega) hradix (h.dropWhile _) hmax
    (head?_dropWhile_zero_ne cs) hhead
  rw [natOf_dropWhile_zero, natOf_digitsOf htwo hradix, ← maxWordDigits_eq] at hiff
  exact hiff

/-! ### Entries that hold words -/

/-- The number that the digits typed stand for, without the sign. -/
def magnitude (radix : Nat) (e : Entry) : Nat := natOf radix e.digits

/-- Digits up to the largest word, with no leading zero but alone, and nothing else. -/
structure Bounded (b : Base) (w : WordSize) (e : Entry) : Prop where
  digits : DigitsOf b.radix e.digits
  leading : e.digits = ['0'] ∨ e.digits.head? ≠ some '0'
  point : e.point = none
  exponent : e.exponent = none
  magnitude_le : e.magnitude b.radix ≤ 2 ^ w.bits - 1

theorem leading_concat
    {cs : List Char} (h : cs.head? ≠ some '0') (c : Char) :
    cs ++ [c] = ['0'] ∨ (cs ++ [c]).head? ≠ some '0' := by
  cases cs with
  | nil =>
      by_cases hc : c = '0'
      · exact Or.inl (by rw [hc]; rfl)
      · exact Or.inr (by simpa using hc)
  | cons d cs => exact Or.inr (by simpa using h)

/-- The digits with another one, which replaces a single zero. -/
def extended (e : Entry) (d : Nat) : Entry :=
  { e with digits := (if e.isLoneZero then [] else e.digits) ++ [digitChar d] }

namespace Bounded

variable {e : Entry} {d : Nat}

theorem empty
    (b : Base) (w : WordSize) :
    Bounded b w {} where
  digits := .nil _
  leading := Or.inr (by simp)
  point := rfl
  exponent := rfl
  magnitude_le := by simp [magnitude]

theorem isLoneZero_iff
    (h : Bounded b w e) :
    e.isLoneZero = true ↔ e.digits = ['0'] := by
  simp [isLoneZero, h.point]

/-- What is typed is put behind digits without a leading zero. -/
theorem extended_digits
    (h : Bounded b w e) (hd : d < b.radix) :
    DigitsOf b.radix (e.extended d).digits ∧
      (e.extended d).magnitude b.radix = e.magnitude b.radix * b.radix + d := by
  obtain ⟨-, hradix⟩ := b.radix_bounds
  have hdigit : digitNat (digitChar d) = d := digitNat_digitChar (by omega)
  unfold extended magnitude
  split
  · rename_i hzero
    rw [h.isLoneZero_iff] at hzero
    have hvalue : natOf b.radix ['0'] = 0 := natOf_singleton _ _
    refine ⟨DigitsOf.concat (.nil _) hd, ?_⟩
    rw [hzero, hvalue, List.nil_append, natOf_singleton, hdigit, Nat.zero_mul, Nat.zero_add]
  · refine ⟨h.digits.concat hd, ?_⟩
    rw [natOf_append, natOf_singleton, hdigit, List.length_singleton, Nat.pow_one]

/-- An entry as long as the largest word has no room for a digit, and no number for it either. -/
theorem lt_of_length_le
    (h : Bounded b w e) (hzero : e.isLoneZero = false)
    (hlong : (digitsOf b.radix (2 ^ w.bits - 1)).length ≤ e.digits.length) (d : Nat) :
    2 ^ w.bits - 1 < e.magnitude b.radix * b.radix + d := by
  obtain ⟨htwo, hradix⟩ := b.radix_bounds
  have hmax := (length_digitsOf_le_iff htwo (maxWord_bounds b w).1 e.digits.length).mp hlong
  have hpos : digitsOf b.radix (2 ^ w.bits - 1) ≠ [] := digitsOf_ne_nil _
  rw [← List.length_pos_iff] at hpos
  have hhead : e.digits.head? ≠ some '0' := by
    refine h.leading.resolve_left fun heq => ?_
    rw [h.isLoneZero_iff.mpr heq] at hzero
    cases hzero
  cases hdigits : e.digits with
  | nil =>
      rw [hdigits, List.length_nil] at hlong
      omega
  | cons c cs =>
      have hle := DigitsOf.pow_le_natOf_cons hradix (hdigits ▸ h.digits)
        (by simpa [hdigits] using hhead)
      rw [hdigits, List.length_cons, Nat.pow_succ] at hmax
      rw [magnitude, hdigits]
      calc
        2 ^ w.bits - 1 < b.radix ^ cs.length * b.radix := hmax
        _ ≤ natOf b.radix (c :: cs) * b.radix := Nat.mul_le_mul_right _ hle
        _ ≤ natOf b.radix (c :: cs) * b.radix + d := Nat.le_add_right _ _

/-- A digit is accepted exactly if the number that it makes is a word. -/
theorem typeDigit?_eq
    (h : Bounded b w e) (hd : d < b.radix) :
    e.typeDigit? (.ofWords b w) d =
      if e.magnitude b.radix * b.radix + d ≤ 2 ^ w.bits - 1 then some (e.extended d) else none := by
  obtain ⟨hdigits, hvalue⟩ := h.extended_digits hd
  have hfits := fitsWord_iff (w := w) hdigits
  rw [← magnitude, hvalue] at hfits
  have hlimit : digitLimit (.ofWords b w) = (digitsOf b.radix (2 ^ w.bits - 1)).length := by
    simp only [digitLimit, EntryRules.ofWords, if_true, maxWordDigits_eq]
    exact min_eq_right (maxWord_bounds b w).2
  have hradix : ¬(EntryRules.ofWords b w).radix ≤ d := Nat.not_le.mpr hd
  rw [typeDigit?, if_neg hradix, h.exponent]
  simp only [typeMantissaDigit?, hlimit, show (EntryRules.ofWords b w).onWords = true from rfl,
    Bool.true_and]
  rw [show (if e.isLoneZero then [] else e.digits) ++ [digitChar d] = (e.extended d).digits from rfl]
  cases hroom : !e.isLoneZero &&
      decide ((digitsOf b.radix (2 ^ w.bits - 1)).length ≤ e.digits.length) with
  | true =>
      simp only [Bool.and_eq_true, Bool.not_eq_true', decide_eq_true_eq] at hroom
      have hlt := h.lt_of_length_le hroom.1 hroom.2 d
      rw [if_pos rfl, if_neg (Nat.not_le.mpr hlt)]
  | false =>
      simp only [Bool.false_eq_true, if_false, ← hfits]
      cases fitsWord (.ofWords b w) (e.extended d).digits <;> rfl

/-- An accepted digit leaves a word. -/
theorem extended
    (h : Bounded b w e) (hd : d < b.radix)
    (hle : e.magnitude b.radix * b.radix + d ≤ 2 ^ w.bits - 1) :
    Bounded b w (e.extended d) := by
  obtain ⟨hdigits, hvalue⟩ := h.extended_digits hd
  refine ⟨hdigits, ?_, h.point, h.exponent, hvalue.trans_le hle⟩
  refine leading_concat ?_ _
  split
  · simp
  · rename_i hzero
    exact h.leading.resolve_left (mt h.isLoneZero_iff.mpr hzero)

/-- The sign key is never refused. -/
theorem toggleSign?_eq
    (h : Bounded b w e) :
    e.toggleSign? (.ofWords b w) = some { e with negative := !e.negative } := by
  have hfits := (fitsWord_iff (w := w) h.digits).mpr h.magnitude_le
  simp [toggleSign?, h.exponent, hfits]

theorem withSign
    (h : Bounded b w e) (negative : Bool) :
    Bounded b w { e with negative } :=
  { h with }

/-- Without its last digit a number becomes smaller, and no zero comes to the front. -/
theorem backspace
    (h : Bounded b w e) {e' : Entry} (hk : e.backspace? = some e') :
    Bounded b w e' := by
  simp only [backspace?, h.exponent, h.point, reduceCtorEq, if_false,
    Option.ite_none_left_eq_some, Option.some.injEq] at hk
  obtain ⟨hne, rfl⟩ := hk
  refine ⟨h.digits.dropLast, Or.inr ?_, rfl, rfl, ?_⟩
  · rcases h.leading with hzero | hhead
    · simp [hzero]
    · rw [List.head?_dropLast]
      split
      · exact hhead
      · simp
  · refine le_trans ?_ h.magnitude_le
    conv_rhs => rw [magnitude, ← List.dropLast_append_getLast hne, natOf_append,
      List.length_singleton, Nat.pow_one]
    exact (Nat.le_mul_of_pos_right _ (by have := b.radix_bounds; omega)).trans
      (Nat.le_add_right _ _)

/-! ### Values -/

/-- The value is that of the digits with the sign. -/
theorem value_eq
    (h : Bounded b w e) :
    e.value b.radix =
      .ofInt (if e.negative then -e.magnitude b.radix else e.magnitude b.radix) := by
  obtain ⟨htwo, hradix⟩ := b.radix_bounds
  unfold value
  split
  · rename_i hempty
    rw [magnitude, hempty, natOf_nil, Nat.cast_zero, neg_zero, ite_self, Ratio.ofInt,
      ScaledNumber.ofInt_zero, Ratio.zero]
  · have hread : ScaledNumber.ofDigits? e.digits b.radix =
        some (.ofNat (e.magnitude b.radix)) := by
      rw [ScaledNumber.ofDigits?,
        Magnitude.ofDigits?_eq (by omega) hradix (h.digits.readable hradix), Option.map_some,
        ← ScaledNumber.ofMagnitude, ScaledNumber.ofMagnitude_eq, Magnitude.toNat_ofNat, magnitude]
    simp only [hread, exponentValue?, h.exponent, fractionLength, h.point, Nat.cast_zero, sub_self]
    rw [Ratio.ofMantissaScale_eq _ _ (by omega), ← Ratio.ofRat_intCast]
    cases e.negative <;> simp [ScaledNumber.signFactor]

end Bounded

/-! ### Entries that keys make -/

/-- The entries that digit, sign and backspace keys make of an empty one. -/
inductive TypedBy (rules : EntryRules) : Entry → Prop
  | empty : TypedBy rules {}
  | digit {e e' : Entry} {d : Nat} (h : TypedBy rules e) (hk : e.typeDigit? rules d = some e') :
      TypedBy rules e'
  | sign {e e' : Entry} (h : TypedBy rules e) (hk : e.toggleSign? rules = some e') :
      TypedBy rules e'
  | backspace {e e' : Entry} (h : TypedBy rules e) (hk : e.backspace? = some e') :
      TypedBy rules e'

/-- Whatever keys have made it, an entry holds a word. -/
theorem TypedBy.bounded
    {e : Entry} (h : TypedBy (.ofWords b w) e) :
    Bounded b w e := by
  induction h with
  | empty => exact .empty b w
  | @digit e e' d _ hk ih =>
      have hd : d < b.radix := by
        by_contra hle
        have hradix : (EntryRules.ofWords b w).radix ≤ d := Nat.not_lt.mp hle
        rw [typeDigit?, if_pos hradix] at hk
        cases hk
      rw [ih.typeDigit?_eq hd, Option.ite_none_right_eq_some, Option.some.injEq] at hk
      obtain ⟨hle, rfl⟩ := hk
      exact ih.extended hd hle
  | sign _ hk ih =>
      rw [ih.toggleSign?_eq, Option.some.injEq] at hk
      rw [← hk]
      exact ih.withSign _
  | backspace _ hk ih => exact ih.backspace hk

/-! ### The digits of a word -/

/-- The key of a digit character. -/
def digitKey (c : Char) : EntryKey := .digit (digitNat c)

/-- Digits are accepted one after the other as long as they make a word. -/
theorem Bounded.typeDigits
    {e : Entry} (h : Bounded b w e) {cs : List Char} (hcs : DigitsOf b.radix cs)
    (hle : e.magnitude b.radix * b.radix ^ cs.length + natOf b.radix cs ≤ 2 ^ w.bits - 1) :
    ∃ e', (cs.map digitKey).foldlM (press? (.ofWords b w)) e = some e' ∧ Bounded b w e' ∧
      e'.negative = e.negative ∧
      e'.magnitude b.radix = e.magnitude b.radix * b.radix ^ cs.length + natOf b.radix cs := by
  induction cs generalizing e with
  | nil => exact ⟨e, rfl, h, rfl, by simp⟩
  | cons c cs ih =>
      obtain ⟨⟨d, hd, rfl⟩, htail⟩ := hcs.of_cons
      obtain ⟨htwo, hradix⟩ := b.radix_bounds
      have hdigit : digitNat (digitChar d) = d := digitNat_digitChar (by omega)
      have hvalue := (h.extended_digits hd).2
      have hnext : (e.magnitude b.radix * b.radix + d) * b.radix ^ cs.length + natOf b.radix cs =
          e.magnitude b.radix * b.radix ^ (digitChar d :: cs).length +
            natOf b.radix (digitChar d :: cs) := by
        rw [natOf_cons, hdigit, List.length_cons, Nat.pow_succ]
        ring
      have hfirst : e.magnitude b.radix * b.radix + d ≤ 2 ^ w.bits - 1 := by
        refine le_trans ?_ (hnext.trans_le hle)
        exact (Nat.le_mul_of_pos_right _ (Nat.pow_pos (by omega))).trans (Nat.le_add_right _ _)
      obtain ⟨e', hrest, hbounded, hsign, hmagnitude⟩ :=
        ih (h.extended hd hfirst) htail (by rw [hvalue, hnext]; exact hle)
      refine ⟨e', ?_, hbounded, hsign, by rw [hmagnitude, hvalue, hnext]⟩
      have htyped := h.typeDigit?_eq hd
      rw [if_pos hfirst] at htyped
      rw [List.map_cons, List.foldlM_cons, digitKey, hdigit, press?, htyped]
      exact hrest

end Entry
end DeskCalculator
