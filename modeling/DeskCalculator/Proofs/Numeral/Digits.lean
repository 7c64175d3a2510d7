import DeskCalculator.Numeral.Validity
import Mathlib.Data.Nat.Digits.Lemmas
import Mathlib.Tactic

/-!
# Digit strings and numbers

A digit string stands for a number in positional notation, the most significant
digit first, and every number has one digit string without a leading zero.

**Results.**
* `natOf_append`: the value of two strings one after the other.
* `natOf_digitsOf`: the digits of a number stand for it.
* `length_digitsOf_le_iff`: how many digits a number has.
-/

namespace DeskCalculator

/-! ### Characters -/

theorem radixDigit?_digitChar
    {radix d : Nat} (hd : d < radix) (hradix : radix ≤ 16) :
    radixDigit? radix (digitChar d) = some d := by
  have hvalue : ∀ d < 16, digitValue? (digitChar d) = some d := by decide
  simp [radixDigit?, hvalue d (by omega), hd]

theorem digitChar_ne_sign_or_point
    {d : Nat} (hd : d < 16) :
    digitChar d ≠ '.' ∧ digitChar d ≠ '-' := by
  have hne : ∀ d < 16, digitChar d ≠ '.' ∧ digitChar d ≠ '-' := by decide
  exact hne d hd

/-- Decimal digits are no exponent marks and no signs. -/
theorem digitChar_decimal
    {d : Nat} (hd : d < 10) :
    (digitChar d).isDigit = true ∧
      Numeral.isExponentMark (digitChar d) = false ∧
      digitChar d ≠ '+' := by
  have hdec : ∀ d < 10, (digitChar d).isDigit = true ∧
      Numeral.isExponentMark (digitChar d) = false ∧ digitChar d ≠ '+' := by decide
  exact hdec d hd

/-- A character from `0` to `9` is a decimal digit. -/
theorem exists_digitChar
    {c : Char} (hlow : '0' ≤ c) (hhigh : c ≤ '9') :
    ∃ d < 10, c = digitChar d := by
  have hlow : 48 ≤ c.toNat := UInt32.le_iff_toNat_le.mp hlow
  have hhigh : c.toNat ≤ 57 := UInt32.le_iff_toNat_le.mp hhigh
  refine ⟨c.toNat - 48, by omega, ?_⟩
  rw [digitChar, if_pos (by omega), show '0'.toNat = 48 from rfl, Nat.add_sub_cancel' hlow,
    Char.ofNat_toNat]

theorem isDigit_iff
    {c : Char} :
    c.isDigit = true ↔ ∃ d < 10, c = digitChar d := by
  refine ⟨fun h => ?_, ?_⟩
  · obtain ⟨hlow, hhigh⟩ := Bool.and_eq_true_iff.mp h
    exact exists_digitChar (of_decide_eq_true hlow) (of_decide_eq_true hhigh)
  · rintro ⟨d, hd, rfl⟩
    exact (digitChar_decimal hd).1

/-! ### Splitting -/

theorem splitFirst?_eq_none
    {p : Char → Bool} {cs : List Char} (h : ∀ c ∈ cs, p c = false) :
    splitFirst? p cs = none := by
  induction cs with
  | nil =>
      rfl
  | cons c cs ih =>
      have hc := h c (by simp)
      simp [splitFirst?, hc, ih fun x hx => h x (by simp [hx])]

theorem splitFirst?_append
    {p : Char → Bool} {before : List Char} (h : ∀ c ∈ before, p c = false)
    {c : Char} (hc : p c = true) (after : List Char) :
    splitFirst? p (before ++ c :: after) = some (before, after) := by
  induction before with
  | nil =>
      simp [splitFirst?, hc]
  | cons b before ih =>
      have hb := h b (by simp)
      simp [splitFirst?, hb, ih fun x hx => h x (by simp [hx])]

/-- A text is split at the first character that satisfies the predicate. -/
theorem splitFirst?_eq_some_iff
    {p : Char → Bool} {cs before after : List Char} :
    splitFirst? p cs = some (before, after) ↔
      ∃ c, p c = true ∧ (∀ b ∈ before, p b = false) ∧ cs = before ++ c :: after := by
  constructor
  case mp =>
    intro hsplit
    induction cs generalizing before with
    | nil => cases hsplit
    | cons b cs ih =>
        rw [splitFirst?] at hsplit
        split at hsplit
        · rename_i hb
          obtain ⟨rfl, rfl⟩ := Prod.mk.inj (Option.some.inj hsplit)
          exact ⟨b, hb, by simp, rfl⟩
        · rename_i hb
          obtain ⟨⟨front, _⟩, hrest, hparts⟩ := Option.map_eq_some_iff.mp hsplit
          obtain ⟨rfl, rfl⟩ := Prod.mk.inj hparts
          obtain ⟨c, hc, hfront, rfl⟩ := ih hrest
          exact ⟨c, hc, List.forall_mem_cons.mpr ⟨Bool.eq_false_iff.mpr hb, hfront⟩, rfl⟩
  case mpr =>
    rintro ⟨c, hc, hbefore, rfl⟩
    exact splitFirst?_append hbefore hc after

/-- Behind a minus sign there is the text without it, and the sign is seen. -/
theorem Numeral.dropSign_signed
    {signs cs : List Char} (hminus : '-' ∈ signs) (hfirst : ∀ c ∈ cs.head?, c ∉ signs)
    (negative : Bool) :
    dropSign signs ((if negative then ['-'] else []) ++ cs) = cs ∧
      (((if negative then ['-'] else []) ++ cs).head? = some '-' ↔ negative = true) := by
  cases negative with
  | true => simp [dropSign, hminus]
  | false =>
      cases cs with
      | nil => simp [dropSign]
      | cons c cs =>
          have hc : c ∉ signs := hfirst c rfl
          have hne : c ≠ '-' := fun heq => hc (heq ▸ hminus)
          simp [dropSign, hc, hne]

/-! ### Digit strings -/

/-- Characters that are digits of a radix. -/
def DigitsOf (radix : Nat) (cs : List Char) : Prop :=
  ∀ c ∈ cs, ∃ d < radix, c = digitChar d

instance (radix : Nat) (cs : List Char) : Decidable (DigitsOf radix cs) :=
  List.decidableBAll (fun c => ∃ d < radix, c = digitChar d) cs

namespace DigitsOf

variable {radix : Nat} {cs ds : List Char}

theorem concat
    (h : DigitsOf radix cs) {d : Nat} (hd : d < radix) :
    DigitsOf radix (cs ++ [digitChar d]) := by
  intro c hc
  rcases List.mem_append.mp hc with hcs | hlast
  · exact h c hcs
  · exact ⟨d, hd, List.mem_singleton.mp hlast⟩

theorem singleton_zero
    (h : 0 < radix) :
    DigitsOf radix ['0'] := by
  intro c hc
  exact ⟨0, h, List.mem_singleton.mp hc⟩

theorem append
    (hcs : DigitsOf radix cs) (hds : DigitsOf radix ds) :
    DigitsOf radix (cs ++ ds) := by
  intro c hc
  rcases List.mem_append.mp hc with h | h
  · exact hcs c h
  · exact hds c h

theorem of_append
    (h : DigitsOf radix (cs ++ ds)) :
    DigitsOf radix cs ∧ DigitsOf radix ds :=
  ⟨fun c hc => h c (List.mem_append_left _ hc), fun c hc => h c (List.mem_append_right _ hc)⟩

theorem take
    (h : DigitsOf radix cs) (n : Nat) :
    DigitsOf radix (cs.take n) :=
  fun c hc => h c (List.mem_of_mem_take hc)

theorem drop
    (h : DigitsOf radix cs) (n : Nat) :
    DigitsOf radix (cs.drop n) :=
  fun c hc => h c (List.mem_of_mem_drop hc)

theorem dropLast
    (h : DigitsOf radix cs) :
    DigitsOf radix cs.dropLast :=
  fun c hc => h c (List.mem_of_mem_dropLast hc)

theorem replicate_zero
    (h : 0 < radix) (n : Nat) :
    DigitsOf radix (List.replicate n '0') :=
  fun _ hc => ⟨0, h, List.eq_of_mem_replicate hc⟩

end DigitsOf

/-! ### The number of a digit string -/

/-- The value of a digit, zero for other characters. -/
def digitNat (c : Char) : Nat := (digitValue? c).getD 0

/-- The number that digits stand for, the most significant first. -/
def natOf (radix : Nat) (cs : List Char) : Nat :=
  Nat.ofDigits radix (cs.map digitNat).reverse

theorem digitNat_digitChar
    {d : Nat} (hd : d < 16) :
    digitNat (digitChar d) = d := by
  have hvalue : ∀ d < 16, digitNat (digitChar d) = d := by decide
  exact hvalue d hd

@[simp] theorem natOf_nil
    (radix : Nat) :
    natOf radix [] = 0 := by
  simp [natOf]

theorem natOf_append
    (radix : Nat) (cs ds : List Char) :
    natOf radix (cs ++ ds) = natOf radix cs * radix ^ ds.length + natOf radix ds := by
  simp only [natOf, List.map_append, List.reverse_append, Nat.ofDigits_append,
    List.length_reverse, List.length_map]
  ring

theorem natOf_singleton
    (radix : Nat) (c : Char) :
    natOf radix [c] = digitNat c := by
  simp [natOf]

theorem natOf_cons
    (radix : Nat) (c : Char) (cs : List Char) :
    natOf radix (c :: cs) = digitNat c * radix ^ cs.length + natOf radix cs := by
  rw [← natOf_singleton radix c, ← natOf_append, List.singleton_append]

@[simp] theorem natOf_replicate_zero
    (radix n : Nat) :
    natOf radix (List.replicate n '0') = 0 := by
  have hzero : digitNat '0' = 0 := by decide
  induction n with
  | zero =>
      simp
  | succ n ih =>
      rw [List.replicate_succ, natOf_cons, hzero, ih, Nat.zero_mul]

/-- Zeros at the end multiply by powers of the radix. -/
theorem natOf_append_zeros
    (radix : Nat) (cs : List Char) (n : Nat) :
    natOf radix (cs ++ List.replicate n '0') = natOf radix cs * radix ^ n := by
  simp [natOf_append]

/-- Zeros in front do not count. -/
theorem natOf_zeros_append
    (radix n : Nat) (cs : List Char) :
    natOf radix (List.replicate n '0' ++ cs) = natOf radix cs := by
  simp [natOf_append]

/-! ### Characters that can be read -/

/-- Every character can be read as a digit, in capitals or not. -/
def Readable (radix : Nat) (cs : List Char) : Prop :=
  ∀ c ∈ cs, ∃ d, radixDigit? radix c = some d

/-- Neither a point nor a sign can be read as a digit. -/
theorem ne_sign_or_point_of_radixDigit?
    {radix : Nat} {c : Char} (h : ∃ d, radixDigit? radix c = some d) :
    c ≠ '.' ∧ c ≠ '-' ∧ c ≠ '+' := by
  have hvalue : digitValue? '.' = none ∧ digitValue? '-' = none ∧ digitValue? '+' = none := by
    decide
  have hne : ∀ c', digitValue? c' = none → c ≠ c' := by
    rintro _ hnone rfl
    obtain ⟨d, hd⟩ := h
    rw [radixDigit?, hnone] at hd
    cases hd
  exact ⟨hne _ hvalue.1, hne _ hvalue.2.1, hne _ hvalue.2.2⟩

theorem DigitsOf.readable
    {radix : Nat} (hradix : radix ≤ 16) {cs : List Char} (h : DigitsOf radix cs) :
    Readable radix cs := by
  intro c hc
  obtain ⟨d, hd, rfl⟩ := h c hc
  exact ⟨d, radixDigit?_digitChar hd hradix⟩

namespace Readable

variable {radix : Nat} {cs ds : List Char}

theorem append
    (hcs : Readable radix cs) (hds : Readable radix ds) :
    Readable radix (cs ++ ds) :=
  List.forall_mem_append.mpr ⟨hcs, hds⟩

theorem of_append
    (h : Readable radix (cs ++ ds)) :
    Readable radix cs ∧ Readable radix ds :=
  List.forall_mem_append.mp h

theorem take
    (h : Readable radix cs) (n : Nat) :
    Readable radix (cs.take n) :=
  fun c hc => h c (List.mem_of_mem_take hc)

theorem drop
    (h : Readable radix cs) (n : Nat) :
    Readable radix (cs.drop n) :=
  fun c hc => h c (List.mem_of_mem_drop hc)

theorem replicate_zero
    (h : 0 < radix) (n : Nat) :
    Readable radix (List.replicate n '0') := by
  have hvalue : digitValue? '0' = some 0 := by decide
  intro c hc
  obtain rfl := List.eq_of_mem_replicate hc
  exact ⟨0, by simp [radixDigit?, hvalue, h]⟩

theorem not_mem
    (h : Readable radix cs) :
    '.' ∉ cs ∧ '-' ∉ cs ∧ '+' ∉ cs :=
  ⟨fun hc => (ne_sign_or_point_of_radixDigit? (h _ hc)).1 rfl,
    fun hc => (ne_sign_or_point_of_radixDigit? (h _ hc)).2.1 rfl,
    fun hc => (ne_sign_or_point_of_radixDigit? (h _ hc)).2.2 rfl⟩

end Readable

/-- What can be read in radix ten are the decimal digits. -/
theorem radixDigit?_ten_iff
    {c : Char} :
    (∃ d, radixDigit? 10 c = some d) ↔ ∃ d < 10, c = digitChar d := by
  constructor
  · rintro ⟨d, hd⟩
    obtain ⟨hvalue, hlt⟩ := Option.filter_eq_some_iff.mp hd
    have hlt : d < 10 := by simpa using hlt
    unfold digitValue? at hvalue
    split_ifs at hvalue with hdigit
    case pos => exact exists_digitChar hdigit.1 hdigit.2
    -- the value of a letter is ten at least
    all_goals
      have heq := Option.some.inj hvalue
      omega
  · rintro ⟨d, hd, rfl⟩
    exact ⟨d, radixDigit?_digitChar hd (by decide)⟩

theorem readable_ten_iff
    {cs : List Char} :
    Readable 10 cs ↔ DigitsOf 10 cs :=
  forall₂_congr fun _ _ => radixDigit?_ten_iff

theorem digitNat_of_radixDigit?
    {radix d : Nat} {c : Char} (h : radixDigit? radix c = some d) :
    digitNat c = d ∧ d < radix := by
  obtain ⟨hvalue, hlt⟩ := Option.filter_eq_some_iff.mp h
  exact ⟨by simp [digitNat, hvalue], by simpa using hlt⟩

/-! ### The digit string of a number -/

/-- The digits of a number, `0` for zero. -/
def digitsOf (radix n : Nat) : List Char :=
  if n = 0 then ['0'] else (Nat.digits radix n).reverse.map digitChar

theorem digitsOf_zero
    (radix : Nat) :
    digitsOf radix 0 = ['0'] :=
  if_pos rfl

theorem digitsOf_of_pos
    {n : Nat} (hn : 0 < n) (radix : Nat) :
    digitsOf radix n = (Nat.digits radix n).reverse.map digitChar :=
  if_neg hn.ne'

section

variable {radix : Nat} (htwo : 2 ≤ radix)

include htwo

theorem areDigits_digitsOf
    (n : Nat) :
    DigitsOf radix (digitsOf radix n) := by
  unfold digitsOf
  split
  · exact DigitsOf.singleton_zero (by omega)
  · intro c hc
    obtain ⟨d, hd, rfl⟩ := List.mem_map.mp hc
    exact ⟨d, Nat.digits_lt_base htwo (List.mem_reverse.mp hd), rfl⟩

omit htwo in
theorem digitsOf_ne_nil
    (n : Nat) :
    digitsOf radix n ≠ [] := by
  unfold digitsOf
  split
  · exact List.cons_ne_nil _ _
  · rename_i hn
    simpa using Nat.digits_ne_nil_iff_ne_zero.mpr hn

/-- The digits of a number stand for it. -/
theorem natOf_digitsOf
    (hradix : radix ≤ 16) (n : Nat) :
    natOf radix (digitsOf radix n) = n := by
  unfold digitsOf
  split
  · rename_i hzero
    rw [hzero, natOf_singleton]
    decide
  · have hdigits : (Nat.digits radix n).map (digitNat ∘ digitChar) = Nat.digits radix n := by
      refine List.map_congr_left (g := id) ?_ |>.trans (List.map_id _)
      intro d hd
      exact digitNat_digitChar ((Nat.digits_lt_base htwo hd).trans_le hradix)
    simp only [natOf, List.map_map, List.map_reverse, List.reverse_reverse]
    rw [hdigits, Nat.ofDigits_digits]

/-- A number has at most `k` digits if it is below the `k`-th power of the radix. -/
theorem length_digitsOf_le_iff
    {n : Nat} (hn : 0 < n) (k : Nat) :
    (digitsOf radix n).length ≤ k ↔ n < radix ^ k := by
  rw [digitsOf_of_pos hn, List.length_map, List.length_reverse]
  exact Nat.digits_length_le_iff htwo n

/-- The digits of a number above zero do not begin with zero. -/
theorem head_digitsOf_ne_zero
    (hradix : radix ≤ 16) {n : Nat} (hn : 0 < n) :
    (digitsOf radix n).head? ≠ some '0' := by
  have hne : Nat.digits radix n ≠ [] := Nat.digits_ne_nil_iff_ne_zero.mpr hn.ne'
  have hlast := Nat.getLast_digit_ne_zero radix hn.ne'
  have hlt := Nat.digits_lt_base htwo (List.getLast_mem hne)
  have hzero : ∀ d < 16, digitChar d = '0' → d = 0 := by decide
  rw [digitsOf_of_pos hn, List.head?_map, List.head?_reverse, List.getLast?_eq_some_getLast hne,
    Option.map_some]
  intro heq
  exact hlast (hzero _ (by omega) (Option.some.inj heq))

/-- A power of the radix is written as a one with zeros. -/
theorem digitsOf_pow
    (k : Nat) :
    digitsOf radix (radix ^ k) = '1' :: List.replicate k '0' := by
  have hpos : 0 < radix ^ k := Nat.pow_pos (by omega)
  have hone : Nat.digits radix 1 = [1] := Nat.digits_of_lt radix 1 (by omega) (by omega)
  have hdigits := Nat.digits_base_pow_mul (k := k) (m := 1) htwo (by omega)
  rw [Nat.mul_one, hone] at hdigits
  rw [digitsOf_of_pos hpos, hdigits]
  simp only [List.reverse_append, List.reverse_replicate, List.reverse_singleton,
    List.singleton_append, List.map_cons, List.map_replicate]
  congr 1

end

end DeskCalculator
