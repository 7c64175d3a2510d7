import DeskCalculator.Proofs.Entry.Legible
import DeskCalculator.Proofs.Ratio.DecimalGrammar

/-!
# The text of an entry is read as its value

The text is a numeral at every moment of typing: with nothing typed, with a
point that no digit follows yet, with an exponent that has no digits.  The
value is not made from the text but from the digits, the place of the point and
the exponent.  Both agree because the text falls apart into the same parts.

**Results.**
* `value_eq`: the value of an entry is that of its parts.
* `derives_text`: the text of a decimal entry is a literal of its parts.
* `ofDecimal?_text`: so the reader of literals finds the value, within its limits.
* `read?_text`: in every radix it is what the digits stand for.
* `typed_text_read_as_value`: so it is for whatever keys are struck.
-/

namespace DeskCalculator

open Numeral

/-! ### Exponents -/

namespace EntryExponent

/-- The number that an exponent stands for, zero if it has no digits. -/
def value (radix : Nat) (x : EntryExponent) : Int :=
  if x.negative then -natOf radix x.digits else natOf radix x.digits

variable {x : EntryExponent}

/-- Four digits are below ten thousand. -/
theorem value_bounds
    (hdigits : DigitsOf 10 x.digits) (hlen : x.digits.length ≤ Entry.maxExponentDigits) :
    (x.value 10).natAbs < 10000 := by
  have hlt : natOf 10 x.digits < 10 ^ 4 :=
    (hdigits.natOf_lt_pow (by decide)).trans_le (Nat.pow_le_pow_right (by decide) hlen)
  unfold value
  split <;> omega

end EntryExponent

namespace Entry

variable {radix : Nat} {e : Entry}

/-! ### The parts of an entry -/

/-- The parts of the numeral that an entry is. -/
def parts (radix : Nat) (e : Entry) : Parts where
  whole := e.shownDigits.1
  fraction := e.shownDigits.2
  exponent? := e.exponent.map (·.value radix)

/-- The number that the exponent of an entry stands for, zero if there is none. -/
def exponentNumber (radix : Nat) (e : Entry) : Int :=
  (e.exponent.map fun x => x.value radix).getD 0

/-- The number that an entry stands for. -/
def number (radix : Nat) (e : Entry) : ℚ :=
  ScaledNumber.signFactor e.negative * (e.parts radix).value radix

theorem length_shownDigits
    (e : Entry) :
    e.shownDigits.2.length = e.fractionLength := by
  unfold shownDigits fractionLength
  split
  · rename_i hnil
    cases e.point <;> simp [hnil]
  · cases e.point <;> simp

/-- The zero shown in place of no digits does not count. -/
theorem natOf_digitsOrZero
    (radix : Nat) (e : Entry) :
    natOf radix e.digitsOrZero = natOf radix e.digits := by
  unfold digitsOrZero
  split
  · rename_i hnil
    rw [hnil]
    exact natOf_replicate_zero radix 1
  · rfl

/-- The value of the parts, in terms of what is typed. -/
theorem value_parts
    (radix : Nat) (e : Entry) :
    (e.parts radix).value radix =
      natOf radix e.digits *
        (radix : ℚ) ^ (e.exponentNumber radix - e.fractionLength) := by
  rw [← natOf_digitsOrZero, ← shownDigits_append, ← length_shownDigits]
  rfl

/-! ### The value -/

theorem exponentValue?_eq
    (h : Digital radix e) (hpos : 0 < radix) (hradix : radix ≤ 16) :
    e.exponentValue? radix = some (e.exponentNumber radix) := by
  unfold exponentValue? exponentNumber
  split
  · rename_i hx
    rw [hx]
    rfl
  · rename_i x hx
    have hdigits := (h.exponent x hx).1
    rw [Magnitude.ofDigits?_eq hpos hradix (hdigits.readable hradix), hx]
    simp only [Option.map_some, Option.getD_some, Magnitude.toNat_ofNat]
    rfl

/-- The value of an entry is the number that it stands for. -/
theorem value_eq
    (h : Digital radix e) (hpos : 0 < radix) (hradix : radix ≤ 16) :
    e.value radix = .ofRat (e.number radix) := by
  rw [number, value_parts]
  unfold value
  split
  · rename_i hnil
    rw [hnil, natOf_nil, Nat.cast_zero, zero_mul, mul_zero, Ratio.ofRat_zero]
  · have hdigits : ScaledNumber.ofDigits? e.digits radix =
        some (.ofNat (natOf radix e.digits)) := by
      rw [ScaledNumber.ofDigits?, Magnitude.ofDigits?_eq hpos hradix (h.digits.readable hradix)]
      rfl
    simp only [hdigits, exponentValue?_eq h hpos hradix]
    rw [Ratio.ofMantissaScale_eq _ _ hpos.ne', mul_assoc]

/-! ### The text -/

/-- The exponent of a decimal entry is shown as that of a literal. -/
theorem exponentText_exponentNumber
    (h : Digital 10 e) :
    DecimalLiteral.ExponentText (exponentText e.exponent) (e.exponentNumber 10) := by
  unfold exponentNumber
  cases hx : e.exponent with
  | none => exact .absent
  | some x =>
      obtain ⟨hdigits, hlen⟩ := h.exponent x hx
      obtain ⟨sign, shown, htext, hsign, hone, -, hshown, hnumber⟩ := x.exists_shown hdigits hlen
      have hinteger : DecimalLiteral.IntegerText x.shown (x.value 10) := by
        rw [htext, EntryExponent.value, ← hnumber]
        exact .signed hsign (List.ne_nil_of_length_pos hone) hshown
      have hbounds := x.value_bounds hdigits hlen
      exact .marked (.inl rfl) hinteger
        (show -2 ^ 63 ≤ x.value 10 by omega) (show x.value 10 < 2 ^ 63 by omega)

/-- A decimal entry is a literal of its parts. -/
theorem derives_text
    (h : Digital 10 e) :
    DecimalLiteral.Derives (e.text ['.'])
      ⟨e.negative, e.shownDigits.1, e.shownDigits.2, e.exponentNumber 10⟩ := by
  have hne : e.shownDigits.1 ++ e.shownDigits.2 ≠ [] :=
    e.shownDigits_append ▸ e.digitsOrZero_ne_nil
  rw [text, List.append_assoc]
  exact .of_parts (DecimalLiteral.signText_minus e.negative) e.mantissaText_shownDigits
    (exponentText_exponentNumber h) hne (digitsOf_shownDigits (by decide) h.digits)

/-- The text of a decimal entry is read as the number that it stands for. -/
theorem ofDecimal?_text
    (h : Digital 10 e) (hlen : e.digits.length ≤ 90000) :
    Ratio.ofDecimal? (e.text ['.']) = some (.ofRat (e.number 10)) := by
  have hexponent : (e.exponentNumber 10).natAbs < 10000 := by
    unfold exponentNumber
    cases hx : e.exponent with
    | none => decide
    | some x => exact x.value_bounds (h.exponent x hx).1 (h.exponent x hx).2
  have hfraction : e.fractionLength ≤ e.digits.length := by
    unfold fractionLength
    split <;> omega
  -- four digits of exponent and the digits of the mantissa leave the scale within its limit
  have hscale : (e.exponentNumber 10 - e.fractionLength).natAbs ≤
      DecimalLiteral.scaleLimit := by
    unfold DecimalLiteral.scaleLimit
    omega
  refine Ratio.ofDecimal?_eq_some_iff.mpr ⟨_, derives_text h, ?_, congrArg Ratio.ofRat ?_⟩
  · rwa [DecimalLiteral.scale, length_shownDigits]
  · exact (mul_assoc _ _ _).symm

/-- In any radix, the parts of an entry without an exponent are found in its text. -/
theorem parts?_text
    (h : Digital radix e) (hpos : 0 < radix) (hradix : radix ≤ 16) (hx : e.exponent = none) :
    parts? radix (e.text ['.']) = some (e.negative, e.parts radix) := by
  have hreadable := (digitsOf_shownDigits hpos h.digits).readable hradix
  have hshown := e.mantissaText_shownDigits
  have hfirst : ∀ c ∈ (e.mantissaText ['.']).head?, c ∉ ['-'] := by
    intro c hc
    simpa using (hshown.ne_sign hreadable (List.mem_of_mem_head? hc)).2
  obtain ⟨hdrop, hhead⟩ := dropSign_signed (by simp) hfirst e.negative
  obtain ⟨hdot, hdigit⟩ := exponentMark_spec radix
  have hmarks : ∀ c ∈ e.mantissaText ['.'], decide (c = exponentMark radix) = false := by
    intro c hc
    rw [decide_eq_false_iff_not]
    rintro rfl
    rcases hshown.mem_cases hreadable hc with hpoint | ⟨d, hd⟩
    · exact hdot hpoint
    · exact nomatch hdigit.symm.trans hd
  have hpoint := hshown.splitFirst?_eq hreadable
  rw [text, hx, exponentText, List.append_nil]
  simp only [parts?, hdrop, hhead]
  simp [hx, splitFirst?_eq_none hmarks, hpoint, parts]

/-- In any radix, an entry without an exponent is read as the number that it stands for. -/
theorem read?_text
    (h : Digital radix e) (hpos : 0 < radix) (hradix : radix ≤ 16) (hx : e.exponent = none) :
    read? radix (e.text ['.']) = some (e.number radix) := by
  have hall : e.digitsOrZero.all (fun c => (radixDigit? radix c).isSome) = true := by
    rw [List.all_eq_true]
    intro c hc
    obtain ⟨d, hd⟩ := (digitsOf_digitsOrZero hpos h.digits).readable hradix c hc
    rw [hd]
    rfl
  have hdigits : (e.parts radix).whole ++ (e.parts radix).fraction = e.digitsOrZero :=
    e.shownDigits_append
  rw [read?, parts?_text h hpos hradix hx, Option.bind_some]
  simp only [hdigits]
  rw [if_pos ⟨e.digitsOrZero_ne_nil, hall⟩]
  rfl

/-! ### What is typed -/

/-- **The text and the value of an entry agree.** Whatever keys are struck, in
radix ten the text is a decimal literal of the value, and in every radix the
text without an exponent has the value as its positional reading. -/
theorem typed_text_read_as_value
    (keys : List Keystroke) :
    ((∀ k ∈ keys, k.InRadix 10) → (typed keys).digits.length ≤ 90000 →
        Ratio.ofDecimal? ((typed keys).text ['.']) = some ((typed keys).value 10)) ∧
      ∀ radix, 2 ≤ radix → radix ≤ 16 → (∀ k ∈ keys, k.InRadix radix ∧ k ≠ .exponent) →
        (read? radix ((typed keys).text ['.'])).map .ofRat =
          some ((typed keys).value radix) := by
  constructor
  · intro hkeys hlen
    have hdigital := typed_digital (by decide) hkeys
    rw [ofDecimal?_text hdigital hlen, value_eq hdigital (by decide) (by decide)]
  · intro radix htwo hradix hkeys
    have hpos : 0 < radix := by omega
    have hdigital := typed_digital hpos fun k hk => (hkeys k hk).1
    have hx := typed_exponent_eq_none fun k hk => (hkeys k hk).2
    rw [read?_text hdigital hpos hradix hx, value_eq hdigital hpos hradix, Option.map_some]

/-- Rules off words, with room for thirty-two digits. -/
def plainRules (radix : Nat) : EntryRules where
  radix
  onWords := false
  maxWord := []
  maxDigits := 32

/-- The keys of `-12.5e-3`, the sign of the exponent after its digit. -/
def decimalKeys : List Keystroke :=
  [.sign (plainRules 10), .digit (plainRules 10) 1, .digit (plainRules 10) 2, .point,
    .digit (plainRules 10) 5, .exponent, .digit (plainRules 10) 3, .sign (plainRules 10)]

/-- The keys of `-F.` in radix sixteen, the digit behind the point taken back. -/
def hexadecimalKeys : List Keystroke :=
  [.digit (plainRules 16) 0, .digit (plainRules 16) 15, .sign (plainRules 16), .point,
    .digit (plainRules 16) 8, .backspace]

/-- A number with an exponent, and one in radix sixteen that ends in its point. -/
theorem keys_read_back :
    (typed decimalKeys).text ['.'] = ['-', '1', '2', '.', '5', 'e', '-', '3'] ∧
      Ratio.ofDecimal? ((typed decimalKeys).text ['.']) =
        some ((typed decimalKeys).value 10) ∧
      (typed hexadecimalKeys).text ['.'] = ['-', 'F', '.'] ∧
      (read? 16 ((typed hexadecimalKeys).text ['.'])).map .ofRat =
        some ((typed hexadecimalKeys).value 16) := by
  refine ⟨by decide, ?decimal, by decide, ?hexadecimal⟩
  case decimal =>
    exact (typed_text_read_as_value decimalKeys).1
      (by simp [decimalKeys, plainRules, Keystroke.InRadix]) (by decide)
  case hexadecimal =>
    exact (typed_text_read_as_value hexadecimalKeys).2 16 (by decide) (by decide)
      (by simp [hexadecimalKeys, plainRules, Keystroke.InRadix])

end Entry
end DeskCalculator
