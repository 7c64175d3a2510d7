import DeskCalculator.Proofs.Magnitude.Digits
import DeskCalculator.Proofs.Numeral.Order

/-!
# Digit strings and magnitudes are inverse

Every magnitude has one digit string in capitals without leading zeros, and it
is read back as that magnitude.  What is read may have leading zeros and small
letters; apart from them it is the digit string of its magnitude.

A text *spells* digits if it has a character for each of them, which is the
digit itself when it is put in capitals.

**Results.**
* `digitValue?_eq_some_iff`: the characters that are read, in capitals.
* `spells_iff`: a text that can be read spells the values of its characters.
* `DigitsOf.eq_digitsOf`: without leading zeros there is one digit string only.
* `digitsOf_natOf`: a digit string without its leading zeros is that of its number.
* `Magnitude.digit_strings_inverse`: reading and writing are inverse.
-/

namespace DeskCalculator

/-! ### Characters in capitals -/

theorem toUpper_of_not_ascii
    {c : Char} (hc : 128 ≤ c.toNat) :
    c.toUpper = c := by
  refine dif_neg ?_
  rintro ⟨-, hhigh⟩
  have hle : c.toNat ≤ 122 := UInt32.le_iff_toNat_le.mp hhigh
  omega

theorem digitValue?_of_not_ascii
    {c : Char} (hc : 128 ≤ c.toNat) :
    digitValue? c = none := by
  have hnot : ∀ high : Char, high.toNat < 128 → ¬c ≤ high := by
    intro high hhigh hle
    have := UInt32.le_iff_toNat_le.mp hle
    simp only [Char.toNat] at hc hhigh
    omega
  unfold digitValue?
  rw [if_neg fun h => hnot '9' (by decide) h.2, if_neg fun h => hnot 'f' (by decide) h.2,
    if_neg fun h => hnot 'F' (by decide) h.2]

/-- What can be read as a digit is that digit when it is put in capitals. -/
theorem digitValue?_eq_some_iff
    {c : Char} {d : Nat} :
    digitValue? c = some d ↔ d < 16 ∧ c.toUpper = digitChar d := by
  rcases Nat.lt_or_ge c.toNat 128 with hascii | hother
  · have hvalue : ∀ n < 128, ∀ d ∈ digitValue? (Char.ofNat n), d < 16 := by decide +kernel
    have hall : ∀ n < 128, ∀ d < 16,
        (digitValue? (Char.ofNat n) = some d ↔ (Char.ofNat n).toUpper = digitChar d) := by
      decide +kernel
    have hchar := hall c.toNat hascii
    have hlt := hvalue c.toNat hascii
    rw [Char.ofNat_toNat] at hchar hlt
    constructor
    · intro h
      have hd := hlt d h
      exact ⟨hd, (hchar d hd).mp h⟩
    · rintro ⟨hd, h⟩
      exact (hchar d hd).mpr h
  · have hdigit : ∀ d < 16, (digitChar d).toNat < 128 := by decide
    rw [digitValue?_of_not_ascii hother, toUpper_of_not_ascii hother]
    refine ⟨fun h => absurd h (Option.some_ne_none d).symm, ?_⟩
    rintro ⟨hd, rfl⟩
    exact absurd (hdigit d hd) (Nat.not_lt.mpr hother)

example : (List.range 16).map digitChar = "0123456789ABCDEF".toList := by
  decide

/-! ### Texts that spell digits -/

/-- A text with a character for each of the digits of the radix, in capitals or not. -/
def Spells (radix : Nat) (text : List Char) (digits : List Nat) : Prop :=
  List.Forall₂ (fun c d => d < radix ∧ c.toUpper = digitChar d) text digits

/-- A text in capitals without its leading zeros, zero if nothing remains. -/
def canonicalText (text : List Char) : List Char :=
  if (text.map Char.toUpper).dropWhile (· = '0') = [] then ['0']
  else (text.map Char.toUpper).dropWhile (· = '0')

variable {radix : Nat}

theorem radixDigit?_eq_some_iff
    (hradix : radix ≤ 16) {c : Char} {d : Nat} :
    radixDigit? radix c = some d ↔ d < radix ∧ c.toUpper = digitChar d := by
  rw [radixDigit?, Option.filter_eq_some_iff, digitValue?_eq_some_iff, decide_eq_true_iff]
  constructor
  · rintro ⟨⟨-, hc⟩, hd⟩
    exact ⟨hd, hc⟩
  · rintro ⟨hd, hc⟩
    exact ⟨⟨by omega, hc⟩, hd⟩

/-- A text that can be read spells the values of its characters, and no other digits. -/
theorem spells_iff
    (hradix : radix ≤ 16) {text : List Char} {digits : List Nat} :
    Spells radix text digits ↔ Readable radix text ∧ digits = text.map digitNat := by
  constructor
  · intro h
    induction h with
    | nil => exact ⟨fun c hc => absurd hc List.not_mem_nil, rfl⟩
    | cons hc _ ih =>
        have hread := (radixDigit?_eq_some_iff hradix).mpr hc
        refine ⟨List.forall_mem_cons.mpr ⟨⟨_, hread⟩, ih.1⟩, ?_⟩
        rw [List.map_cons, (digitNat_of_radixDigit? hread).1, ← ih.2]
  · rintro ⟨hread, rfl⟩
    induction text with
    | nil => exact .nil
    | cons c text ih =>
        obtain ⟨⟨d, hd⟩, htext⟩ := List.forall_mem_cons.mp hread
        refine .cons ?_ (ih htext)
        rw [(digitNat_of_radixDigit? hd).1]
        exact (radixDigit?_eq_some_iff hradix).mp hd

/-- In capitals the text is a digit string, of the same number. -/
theorem Readable.map_toUpper
    (hradix : radix ≤ 16) {text : List Char} (h : Readable radix text) :
    DigitsOf radix (text.map Char.toUpper) ∧
      natOf radix (text.map Char.toUpper) = natOf radix text := by
  induction text with
  | nil => exact ⟨DigitsOf.nil radix, rfl⟩
  | cons c text ih =>
      obtain ⟨⟨d, hd⟩, htext⟩ := List.forall_mem_cons.mp h
      obtain ⟨hdigits, hvalue⟩ := ih htext
      obtain ⟨hlt, hc⟩ := (radixDigit?_eq_some_iff hradix).mp hd
      rw [List.map_cons, hc]
      refine ⟨List.forall_mem_cons.mpr ⟨⟨d, hlt, rfl⟩, hdigits⟩, ?_⟩
      rw [natOf_cons, natOf_cons, hvalue, List.length_map, digitNat_digitChar (by omega),
        (digitNat_of_radixDigit? hd).1]

/-! ### One digit string for each number -/

/-- Digits in capitals without leading zeros, and zero as one digit. -/
def IsCanonicalText (radix : Nat) (text : List Char) : Prop :=
  text = ['0'] ∨ DigitsOf radix text ∧ text ≠ [] ∧ text.head? ≠ some '0'

theorem isCanonicalText_digitsOf
    (htwo : 2 ≤ radix) (hradix : radix ≤ 16) (n : Nat) :
    IsCanonicalText radix (digitsOf radix n) := by
  rcases Nat.eq_zero_or_pos n with rfl | hn
  · exact Or.inl rfl
  · exact Or.inr ⟨areDigits_digitsOf htwo n, digitsOf_ne_nil n, head_digitsOf_ne_zero htwo hradix hn⟩

/-- A string without leading zeros is the digit string of its number. -/
theorem DigitsOf.eq_digitsOf
    (htwo : 2 ≤ radix) (hradix : radix ≤ 16) {cs : List Char} (h : DigitsOf radix cs)
    (hne : cs ≠ []) (hhead : cs.head? ≠ some '0') :
    cs = digitsOf radix (natOf radix cs) := by
  have hpos : 0 < natOf radix cs := by
    cases cs with
    | nil => exact absurd rfl hne
    | cons c cs =>
        exact (Nat.pow_pos (by omega)).trans_le
          (h.pow_le_natOf_cons hradix (by simpa using hhead))
  have hlength : ∀ k, cs.length ≤ k ↔ (digitsOf radix (natOf radix cs)).length ≤ k := fun k => by
    rw [h.length_le_iff hradix (by omega) hhead, length_digitsOf_le_iff htwo hpos]
  refine h.eq_of_natOf_eq hradix (areDigits_digitsOf htwo _) ?_ (natOf_digitsOf htwo hradix _).symm
  exact Nat.le_antisymm ((hlength _).mpr le_rfl) ((hlength _).mp le_rfl)

/-- A text without its leading zeros is the digit string of its number. -/
theorem digitsOf_natOf
    (htwo : 2 ≤ radix) (hradix : radix ≤ 16) {text : List Char} (h : Readable radix text) :
    digitsOf radix (natOf radix text) = canonicalText text := by
  obtain ⟨hdigits, hvalue⟩ := h.map_toUpper hradix
  have hstripped := natOf_dropWhile_zero radix (text.map Char.toUpper)
  have hhead := head?_dropWhile_zero_ne (text.map Char.toUpper)
  have hcapitals := hdigits.dropWhile (· = '0')
  rw [hvalue] at hstripped
  unfold canonicalText
  generalize (text.map Char.toUpper).dropWhile (· = '0') = stripped at *
  rw [← hstripped]
  split
  · rename_i hnil
    rw [hnil, natOf_nil]
    rfl
  · rename_i hne
    exact (hcapitals.eq_digitsOf htwo hradix hne hhead).symm

namespace Magnitude

/--
In a radix from 2 to 16, the digit string of a magnitude is one of that radix in
capitals without leading zeros, and is read as the magnitude.  A text is read
exactly if it spells digits of the radix, as the magnitude of the number that
they stand for, whose digit string is the text in capitals without its leading
zeros.
-/
theorem digit_strings_inverse
    (htwo : 2 ≤ radix) (hradix : radix ≤ 16) :
    (∀ a : Magnitude, Normalized a →
      IsCanonicalText radix (a.toDigits radix) ∧ ofDigits? (a.toDigits radix) radix = some a) ∧
      ∀ (text : List Char) (a : Magnitude),
        (ofDigits? text radix = some a ↔
          ∃ digits, Spells radix text digits ∧ Normalized a ∧
            toNat a = Nat.ofDigits radix digits.reverse) ∧
          (ofDigits? text radix = some a → a.toDigits radix = canonicalText text) := by
  refine ⟨fun a ha => ?_, fun text a => ?_⟩
  · have hreadable := (areDigits_digitsOf htwo (toNat a)).readable hradix
    rw [toDigits_eq htwo hradix ha]
    refine ⟨isCanonicalText_digitsOf htwo hradix (toNat a), ?_⟩
    rw [ofDigits?_eq (by omega) hradix hreadable, natOf_digitsOf htwo hradix, ← ha.eq_ofNat]
  · rw [ofDigits?_eq_some_iff (by omega) hradix]
    refine ⟨?_, ?_⟩
    · constructor
      · rintro ⟨hread, rfl⟩
        exact ⟨_, (spells_iff hradix).mpr ⟨hread, rfl⟩, normalized_ofNat _, toNat_ofNat _⟩
      · rintro ⟨digits, hspells, ha, hvalue⟩
        obtain ⟨hread, rfl⟩ := (spells_iff hradix).mp hspells
        refine ⟨hread, ?_⟩
        rw [ha.eq_ofNat, hvalue]
        rfl
    · rintro ⟨hread, rfl⟩
      rw [toDigits_eq htwo hradix (normalized_ofNat _), toNat_ofNat,
        digitsOf_natOf htwo hradix hread]

/-- A text with leading zeros and small letters, and the block border within its zeros. -/
theorem digit_strings_of_sixteen :
    2 ≤ 16 ∧ 16 ≤ 16 ∧ Normalized [0xFF, 1] ∧
      toDigits [0xFF, 1] 16 = "1000000FF".toList ∧
      ofDigits? (toDigits [0xFF, 1] 16) 16 = some [0xFF, 1] ∧
      ofDigits? "001000000fF".toList 16 = some [0xFF, 1] ∧
      canonicalText "001000000fF".toList = "1000000FF".toList := by
  obtain ⟨hwritten, hread⟩ := digit_strings_inverse (show 2 ≤ 16 by decide) (show 16 ≤ 16 by decide)
  have hnormalized : Normalized [0xFF, 1] := by decide
  have htext : ofDigits? "001000000fF".toList 16 = some [0xFF, 1] := by decide +kernel
  have hcanonical : canonicalText "001000000fF".toList = "1000000FF".toList := by decide +kernel
  refine ⟨by decide, by decide, hnormalized, ?_, (hwritten _ hnormalized).2, htext, hcanonical⟩
  rw [(hread _ _).2 htext, hcanonical]

end Magnitude
end DeskCalculator
