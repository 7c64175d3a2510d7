import DeskCalculator.Numeral.Layout
import DeskCalculator.Proofs.Numeral.Digits

/-!
# The parts of a numeral

A numeral consists of a sign, digits before and after the point, and perhaps an
exponent behind its mark.  Its parts can be found again in its text, because
neither the point nor the mark nor a sign is a digit.

`read?` reads a numeral in any radix without limits on its length or exponent.

**Results.**
* `read?_signed_text`: a numeral is read as the value of its parts.
-/

namespace DeskCalculator

/-- A signed decimal integer of any size. -/
def signedInt? (cs : List Char) : Option Int :=
  (decimalNat? (Numeral.dropSign ['+', '-'] cs)).map fun n : Nat =>
    if cs.head? = some '-' then -(n : Int) else (n : Int)

/-- Decimal digits are read back. -/
theorem decimalNat?_toString
    (n : Nat) :
    decimalNat? (toString n).toList = some n := by
  have htext : (toString n).toList = Nat.toDigits 10 n := by
    rw [Nat.toString_eq_repr, Nat.repr_eq_ofList_toDigits, String.toList_ofList]
  have hdigits : (Nat.toDigits 10 n).any (fun c => !c.isDigit) = false := by
    rw [List.any_eq_false]
    intro c hc
    simp [Nat.isDigit_of_mem_toDigits (by decide) (by decide) hc]
  have hne : Nat.toDigits 10 n ≠ [] := Nat.toDigits_ne_nil
  have hvalue := Nat.ofDigitChars_toDigits (b := 10) (n := n) (by decide) (by decide)
  rw [decimalNat?, htext, if_neg (by simp [hne, hdigits])]
  exact congrArg some hvalue

/-- Decimal digits are read as the number that they stand for. -/
theorem decimalNat?_eq_natOf
    {cs : List Char} (h : DigitsOf 10 cs) (hne : cs ≠ []) :
    decimalNat? cs = some (natOf 10 cs) := by
  have hdigits : cs.any (fun c => !c.isDigit) = false := by
    rw [List.any_eq_false]
    intro c hc
    obtain ⟨d, hd, rfl⟩ := h c hc
    simp [(digitChar_decimal hd).1]
  have hvalue : cs.foldl (fun n c => 10 * n + (c.toNat - '0'.toNat)) 0 = natOf 10 cs := by
    have hdigit : ∀ d < 10, (digitChar d).toNat - '0'.toNat = digitNat (digitChar d) := by
      decide
    clear hne hdigits
    induction cs using List.reverseRecOn with
    | nil => simp
    | append_singleton cs c ih =>
        obtain ⟨hcs, hc⟩ := h.of_append
        obtain ⟨d, hd, rfl⟩ := hc c List.mem_cons_self
        rw [List.foldl_concat, ih hcs, natOf_append, natOf_singleton, hdigit d hd]
        simp [mul_comm]
  rw [decimalNat?, if_neg (by simp [hne, hdigits]), hvalue]

/-- Nothing else is read as a number. -/
theorem decimalNat?_eq_some_iff
    {cs : List Char} {n : Nat} :
    decimalNat? cs = some n ↔ cs ≠ [] ∧ DigitsOf 10 cs ∧ n = natOf 10 cs := by
  constructor
  case mp =>
    intro h
    have hguard : ¬(cs = [] ∨ cs.any (fun c => !c.isDigit) = true) := by
      intro hguard
      rw [decimalNat?, if_pos hguard] at h
      cases h
    rw [not_or, List.any_eq_true, not_exists] at hguard
    obtain ⟨hne, hall⟩ := hguard
    have hdigits : DigitsOf 10 cs := fun c hc => isDigit_iff.mp (by simpa [hc] using hall c)
    rw [decimalNat?_eq_natOf hdigits hne] at h
    exact ⟨hne, hdigits, (Option.some.inj h).symm⟩
  case mpr =>
    rintro ⟨hne, hdigits, rfl⟩
    exact decimalNat?_eq_natOf hdigits hne

namespace Numeral

/-- The sign and the digits of a written exponent. -/
def exponentDigits (e : Int) : List Char :=
  (if e < 0 then '-' else '+') :: (toString e.natAbs).toList

/-- A written exponent is read back. -/
theorem signedInt?_exponentDigits
    (e : Int) :
    signedInt? (exponentDigits e) = some e := by
  have hsign : dropSign ['+', '-'] (exponentDigits e) = (toString e.natAbs).toList := by
    unfold exponentDigits
    split <;> simp [dropSign]
  rw [signedInt?, hsign, decimalNat?_toString, Option.map_some]
  unfold exponentDigits
  rcases lt_or_ge e 0 with hneg | hpos
  · simp only [if_pos hneg, List.head?_cons, if_true, Option.some.injEq]
    omega
  · simp [not_lt.mpr hpos]
    exact hpos

/-- The parts of a numeral without its sign. -/
structure Parts where
  whole : List Char
  fraction : List Char := []
  exponent? : Option Int := none

namespace Parts

/-- The text up to the exponent. -/
def mantissa (p : Parts) : List Char :=
  p.whole ++ if p.fraction = [] then [] else '.' :: p.fraction

/-- The text of the numeral without its sign. -/
def text (radix : Nat) (p : Parts) : List Char :=
  p.mantissa ++ (p.exponent?.map (exponentSuffix radix)).getD []

/-- The number that the parts stand for. -/
def value (radix : Nat) (p : Parts) : ℚ :=
  natOf radix (p.whole ++ p.fraction) *
    (radix : ℚ) ^ (p.exponent?.getD 0 - p.fraction.length)

/-- There is a digit before the point, and around it there are only digits. -/
structure Digital (radix : Nat) (p : Parts) : Prop where
  whole_ne_nil : p.whole ≠ []
  digits : Readable radix (p.whole ++ p.fraction)

variable {radix : Nat} {p : Parts}

/-- A character of the mantissa is a digit or the point. -/
theorem Digital.mem_mantissa
    (h : p.Digital radix) {c : Char} (hc : c ∈ p.mantissa) :
    c = '.' ∨ ∃ d, radixDigit? radix c = some d := by
  obtain ⟨hwhole, hfraction⟩ := h.digits.of_append
  rcases List.mem_append.mp hc with hc | hc
  · exact Or.inr (hwhole c hc)
  · split at hc
    · cases hc
    · rcases List.mem_cons.mp hc with hdot | hc
      · exact Or.inl hdot
      · exact Or.inr (hfraction c hc)

/-- The first character is that of the digits before the point. -/
theorem Digital.head_text
    (h : p.Digital radix) :
    ∃ c ∈ p.whole, (p.text radix).head? = some c := by
  obtain ⟨c, cs, hwhole⟩ := List.exists_cons_of_ne_nil h.whole_ne_nil
  exact ⟨c, by simp [hwhole], by
    rw [text, mantissa, hwhole, List.cons_append, List.cons_append, List.head?_cons]⟩

/-- A sign in front is not part of the numeral. -/
theorem Digital.dropSign_signed
    (h : p.Digital radix) (negative : Bool) :
    dropSign ['-'] (if negative then '-' :: p.text radix else p.text radix) = p.text radix ∧
      ((if negative then '-' :: p.text radix else p.text radix).head? = some '-' ↔
        negative = true) := by
  obtain ⟨first, hfirst, hhead⟩ := h.head_text
  obtain ⟨-, hnotMinus, -⟩ := h.digits.of_append.1.not_mem
  have hnotSign : ∀ c ∈ (p.text radix).head?, c ∉ ['-'] := by
    intro c hc hmem
    obtain rfl := List.mem_singleton.mp hmem
    obtain rfl := Option.some.inj (hhead.symm.trans hc)
    exact hnotMinus hfirst
  have hsigned : (if negative then '-' :: p.text radix else p.text radix) =
      (if negative then ['-'] else []) ++ p.text radix := by
    cases negative <;> rfl
  rw [hsigned]
  exact Numeral.dropSign_signed (List.mem_singleton_self '-') hnotSign negative

/-- The mark of the exponent is found where the mantissa ends. -/
theorem splitFirst?_text
    {isMark : Char → Bool} (hmark : isMark (exponentMark radix) = true)
    (hmantissa : ∀ c ∈ p.mantissa, isMark c = false) :
    splitFirst? isMark (p.text radix) =
      p.exponent?.map fun e => (p.mantissa, exponentDigits e) := by
  unfold text
  cases p.exponent? with
  | none =>
      simp only [Option.map_none, Option.getD_none, List.append_nil]
      exact splitFirst?_eq_none hmantissa
  | some e =>
      simp only [Option.map_some, Option.getD_some]
      exact splitFirst?_append hmantissa hmark _

/-- The point is found between the two strings of digits. -/
theorem Digital.splitFirst?_mantissa
    (h : p.Digital radix) :
    (splitFirst? (· = '.') p.mantissa).getD (p.mantissa, []) = (p.whole, p.fraction) := by
  obtain ⟨hwhole, -⟩ := h.digits.of_append
  have hnone : ∀ c ∈ p.whole, decide (c = '.') = false := by
    intro c hc
    rw [decide_eq_false_iff_not]
    rintro rfl
    exact hwhole.not_mem.1 hc
  unfold mantissa
  split
  · rename_i hfraction
    rw [List.append_nil, splitFirst?_eq_none hnone, hfraction]
    rfl
  · rw [splitFirst?_append hnone (by decide)]
    rfl

end Parts

/-! ### Reading without limits -/

/-- The sign and the parts of a numeral in a radix. -/
def parts? (radix : Nat) (text : List Char) : Option (Bool × Parts) :=
  let negative := text.head? = some '-'
  let unsigned := dropSign ['-'] text
  let split := splitFirst? (· = exponentMark radix) unsigned
  let mantissa := (split.map (·.1)).getD unsigned
  let (whole, fraction) := (splitFirst? (· = '.') mantissa).getD (mantissa, [])
  match split with
  | none => some (negative, { whole, fraction })
  | some (_, exponent) =>
      (signedInt? exponent).map fun e => (negative, { whole, fraction, exponent? := some e })

/-- The number that a numeral stands for, if there are digits and nothing but digits. -/
def read? (radix : Nat) (text : List Char) : Option ℚ :=
  (parts? radix text).bind fun (negative, p) =>
    let digits := p.whole ++ p.fraction
    if digits ≠ [] ∧ digits.all (fun c => (radixDigit? radix c).isSome) then
      some ((if negative then -1 else 1) * p.value radix)
    else none

variable {radix : Nat} {p : Parts}

/-- The mark is neither a digit nor the point. -/
theorem exponentMark_spec
    (radix : Nat) :
    exponentMark radix ≠ '.' ∧ radixDigit? radix (exponentMark radix) = none := by
  have hvalue : digitValue? '^' = none ∧ radixDigit? 10 'e' = none := by decide
  unfold exponentMark
  split
  · rename_i hten
    exact ⟨by decide, hten ▸ hvalue.2⟩
  · exact ⟨by decide, by simp [radixDigit?, hvalue.1]⟩

/-- The parts of a numeral are found again. -/
theorem parts?_signed_text
    (h : p.Digital radix) (negative : Bool) :
    parts? radix (if negative then '-' :: p.text radix else p.text radix) =
      some (negative, p) := by
  obtain ⟨hdot, hdigit⟩ := exponentMark_spec radix
  have hmantissa : ∀ c ∈ p.mantissa, decide (c = exponentMark radix) = false := by
    intro c hc
    rw [decide_eq_false_iff_not]
    rintro rfl
    rcases h.mem_mantissa hc with hpoint | ⟨d, hd⟩
    · exact hdot hpoint
    · rw [hdigit] at hd
      cases hd
  have hsplit : splitFirst? (· = exponentMark radix) (p.text radix) =
      p.exponent?.map fun e => (p.mantissa, exponentDigits e) :=
    Parts.splitFirst?_text (by simp) hmantissa
  obtain ⟨hdrop, hhead⟩ := h.dropSign_signed negative
  have hpoint := h.splitFirst?_mantissa
  have hmantissaText : ((p.exponent?.map fun e => (p.mantissa, exponentDigits e)).map
      (·.1)).getD (p.text radix) = p.mantissa := by
    unfold Parts.text
    cases p.exponent? <;> simp
  simp only [parts?, hdrop, hsplit, hmantissaText, hpoint, hhead]
  obtain ⟨whole, fraction, exponent?⟩ := p
  cases exponent? with
  | none => simp
  | some e => simp [signedInt?_exponentDigits]

/-- A numeral is read as the value of its parts. -/
theorem read?_signed_text
    (h : p.Digital radix) (negative : Bool) :
    read? radix (if negative then '-' :: p.text radix else p.text radix) =
      some ((if negative then -1 else 1) * p.value radix) := by
  have hne : p.whole ++ p.fraction ≠ [] := by simp [h.whole_ne_nil]
  have hall : (p.whole ++ p.fraction).all (fun c => (radixDigit? radix c).isSome) = true := by
    rw [List.all_eq_true]
    exact fun c hc => Option.isSome_iff_exists.mpr (h.digits c hc)
  rw [read?, parts?_signed_text h negative, Option.bind_some]
  exact if_pos ⟨hne, hall⟩

end Numeral
end DeskCalculator
