import DeskCalculator.Proofs.Checked.LimbArithmetic
import DeskCalculator.Proofs.Checked.Ratio
import DeskCalculator.Proofs.Ratio.DecimalGrammar
import Mathlib.Data.String.Basic

/-!
# Reading decimal literals with byte offsets and machine integers

The reader of decimal literals once more, on the bytes of a text in UTF-8 and
with integers of 64 bits.  Where the computation cannot go on, it stops with a
fault:

* a text is cut at byte offsets, which have to be boundaries of characters;
* the limbs of the digits are computed in words;
* the scale is the exponent less the number of bytes of the fraction, and has to
  fit in a signed word before it is compared with its limit;
* the digits are divided by a power of ten, which must not be zero.

The offsets come from a search for the mark of the exponent.  What is in front
of the mark may be any characters, of any number of bytes.  The mark itself is
one byte, so the next offset is a boundary as well.

The exponent fits in a signed word, but the smallest one does not any more once
the length of a fraction is taken from it.

**Results.**
* `cutAt?_isSome_iff`: the offsets at which a text can be cut.
* `checkedOfChars?_eq`: every cut is at a boundary.
* `checkedValue?_eq`, `checkedValue?_overflow`: the values, by their scale.
* `decimal_reader_fault_iff`: the texts for which the reader stops, and that it
  gives what it should for all others.
-/

namespace DeskCalculator

/-! ### Faults -/

/-- What stops a computation with byte offsets and machine integers. -/
inductive Fault
  /-- A text is cut within a character, or beyond its end. -/
  | boundary
  /-- A number does not fit in its word. -/
  | overflow
  /-- A division by zero. -/
  | zeroDivisor
deriving DecidableEq, Repr

namespace Fault

variable {α β : Type}

/-- Goes on with a value, or stops if there is none. -/
def ifNone (fault : Fault) : Option α → Except Fault α
  | none => .error fault
  | some a => .ok a

theorem ifNone_some_bind
    (fault : Fault) (a : α) (f : α → Except Fault β) :
    fault.ifNone (some a) >>= f = f a :=
  rfl

theorem ifNone_none_bind
    (fault : Fault) (f : α → Except Fault β) :
    fault.ifNone none >>= f = .error fault :=
  rfl

end Fault

/-! ### Byte offsets -/

/-- The text before and the text behind a byte offset, if it is the boundary of a character. -/
def cutAt? : List Char → Nat → Option (List Char × List Char)
  | cs, 0 => some ([], cs)
  | [], _ + 1 => none
  | c :: cs, n + 1 =>
      if c.utf8Size ≤ n + 1 then
        (cutAt? cs (n + 1 - c.utf8Size)).map fun (before, after) => (c :: before, after)
      else none

/-- The byte offset of the first character that satisfies `p`. -/
def firstOffset? (p : Char → Bool) : List Char → Option Nat
  | [] => none
  | c :: cs => if p c then some 0 else (firstOffset? p cs).map (· + c.utf8Size)

/-- Where bytes stand in front of a cut, the first character is among them. -/
theorem exists_front_of_append
    {c : Char} {cs before after : List Char} {n : Nat} (hcs : c :: cs = before ++ after)
    (hlen : String.utf8Len before = n + 1) :
    ∃ front, before = c :: front ∧ cs = front ++ after ∧
      String.utf8Len front + c.utf8Size = n + 1 := by
  cases before with
  | nil => cases hlen
  | cons b front =>
      obtain ⟨rfl, rfl⟩ := List.cons.inj hcs
      exact ⟨front, rfl, rfl, hlen⟩

/-- A text is cut where the bytes in front of the cut end. -/
theorem cutAt?_eq_some_iff
    {cs before after : List Char} {n : Nat} :
    cutAt? cs n = some (before, after) ↔ cs = before ++ after ∧ String.utf8Len before = n := by
  fun_induction cutAt? cs n generalizing before with
  | case1 cs =>
      rw [Option.some.injEq, Prod.mk.injEq, String.utf8Len_eq_zero]
      constructor
      · rintro ⟨rfl, rfl⟩
        exact ⟨rfl, rfl⟩
      · rintro ⟨rfl, rfl⟩
        exact ⟨rfl, rfl⟩
  | case2 n =>
      simp only [reduceCtorEq, false_iff, not_and]
      intro hcs
      obtain ⟨rfl, -⟩ := List.append_eq_nil_iff.mp hcs.symm
      simp
  | case3 c cs n hsize ih =>
      rw [Option.map_eq_some_iff]
      constructor
      · rintro ⟨⟨front, rest⟩, hrest, hparts⟩
        obtain ⟨rfl, rfl⟩ := Prod.mk.inj hparts
        obtain ⟨rfl, hlen⟩ := ih.mp hrest
        refine ⟨rfl, ?_⟩
        rw [String.utf8Len_cons]
        omega
      · rintro ⟨hcs, hlen⟩
        obtain ⟨front, rfl, hfront, hbytes⟩ := exists_front_of_append hcs hlen
        exact ⟨(front, after), ih.mpr ⟨hfront, by omega⟩, rfl⟩
  | case4 c cs n hsize =>
      simp only [reduceCtorEq, false_iff, not_and]
      intro hcs hlen
      obtain ⟨front, -, -, hbytes⟩ := exists_front_of_append hcs hlen
      omega

/-- A text can be cut at the boundaries of its encoded characters. -/
theorem cutAt?_isSome_iff
    {cs : List Char} {n : Nat} :
    (cutAt? cs n).isSome = true ↔ String.Pos.Raw.IsValid (String.ofList cs) ⟨n⟩ := by
  rw [Option.isSome_iff_exists, String.Pos.Raw.isValid_ofList]
  constructor
  · rintro ⟨⟨before, after⟩, hcut⟩
    obtain ⟨rfl, rfl⟩ := cutAt?_eq_some_iff.mp hcut
    exact ⟨before.length, by rw [List.take_left, String.utf8ByteSize_ofList]⟩
  · rintro ⟨i, hlen⟩
    rw [String.utf8ByteSize_ofList] at hlen
    exact ⟨(cs.take i, cs.drop i),
      cutAt?_eq_some_iff.mpr ⟨(List.take_append_drop i cs).symm, hlen.symm⟩⟩

example : cutAt? ['é', 'e', '1'] 1 = none ∧ cutAt? ['é', 'e', '1'] 2 = some (['é'], ['e', '1']) := by
  decide

/-- The first character that is looked for is behind the text in front of it. -/
theorem firstOffset?_eq
    (p : Char → Bool) (cs : List Char) :
    firstOffset? p cs = (splitFirst? p cs).map fun parts => String.utf8Len parts.1 := by
  induction cs with
  | nil => rfl
  | cons c cs ih =>
      rw [firstOffset?, splitFirst?]
      split
      · rfl
      · rw [ih, Option.map_map, Option.map_map]
        rfl

/-! ### Digits -/

namespace Magnitude

variable {radix : Nat} {a : Magnitude}

/-- Reads digits on from the magnitude `a`: one product and one sum for each. -/
def exactReadDigits? (radix : Nat) : Magnitude → List Char → Option (Option Magnitude)
  | a, [] => some (some a)
  | a, c :: cs =>
      match radixDigit? radix c with
      | none => some none
      | some d => do
          let product ← exactMulLimb a (UInt32.ofNat radix)
          exactReadDigits? radix (← exactAddLimb product (UInt32.ofNat d)) cs

/-- A product and a sum are one multiple with a carry. -/
theorem addLimb_mulLimb
    (ha : Normalized a) (hpos : 0 < radix) (hradix : radix ≤ 16) {d : Nat} (hd : d < radix) :
    addLimb (mulLimb a (UInt32.ofNat radix)) (UInt32.ofNat d) =
      mulLimbWithCarry (UInt64.ofNat radix) a (UInt64.ofNat d) := by
  have hm : (UInt64.ofNat radix).toNat = radix :=
    UInt64.toNat_ofNat_of_lt' (by omega : radix < 2 ^ 64)
  have hc : (UInt64.ofNat d).toNat = d := UInt64.toNat_ofNat_of_lt' (by omega : d < 2 ^ 64)
  have hm' : (UInt32.ofNat radix).toNat = radix :=
    UInt32.toNat_ofNat_of_lt' (by omega : radix < 2 ^ 32)
  have hc' : (UInt32.ofNat d).toNat = d := UInt32.toNat_ofNat_of_lt' (by omega : d < 2 ^ 32)
  have hmlt : (UInt64.ofNat radix).toNat < 2 ^ 32 := by omega
  have hclt : (UInt64.ofNat d).toNat < 2 ^ 32 := by omega
  refine toNat_injective ((ha.mulLimb _).addLimb _)
    (ha.mulLimbWithCarry hmlt (by omega) hclt) ?_
  rw [toNat_addLimb, toNat_mulLimb, toNat_mulLimbWithCarry a hmlt hclt, hm, hc, hm', hc',
    Nat.mul_comm]

/-- Every product and every sum fits in its word. -/
theorem exactReadDigits?_eq
    (ha : Normalized a) (hpos : 0 < radix) (hradix : radix ≤ 16) (cs : List Char) :
    exactReadDigits? radix a cs = some (readDigits? radix a cs) := by
  induction cs generalizing a with
  | nil => rfl
  | cons c cs ih =>
      rw [exactReadDigits?, readDigits?]
      cases hdigit : radixDigit? radix c with
      | none => rfl
      | some d =>
          obtain ⟨-, hd⟩ := digitNat_of_radixDigit? hdigit
          have hnext := addLimb_mulLimb ha hpos hradix hd
          dsimp only
          rw [exactMulLimb_eq, Option.bind_eq_bind, Option.bind_some, exactAddLimb_eq,
            Option.bind_some, ih ((ha.mulLimb _).addLimb _), hnext]

end Magnitude

/-- The natural number with the given digits, computed in words. -/
def ScaledNumber.exactOfDigits? (digits : List Char) (radix : Nat) :
    Option (Option ScaledNumber) :=
  (Magnitude.exactReadDigits? radix [] digits).map fun m? => m?.map (ofParts false 0)

theorem ScaledNumber.exactOfDigits?_eq
    {radix : Nat} (hpos : 0 < radix) (hradix : radix ≤ 16) (digits : List Char) :
    exactOfDigits? digits radix = some (ofDigits? digits radix) := by
  rw [exactOfDigits?, Magnitude.exactReadDigits?_eq Magnitude.normalized_nil hpos hradix]
  rfl

/-- A decimal digit is one byte. -/
theorem DigitsOf.utf8Len_eq
    {cs : List Char} (h : DigitsOf 10 cs) :
    String.utf8Len cs = cs.length := by
  have hsize : ∀ d < 10, (digitChar d).utf8Size = 1 := by decide
  induction cs with
  | nil => rfl
  | cons c cs ih =>
      obtain ⟨d, hd, rfl⟩ := h c List.mem_cons_self
      rw [String.utf8Len_cons, List.length_cons, hsize d hd,
        ih fun x hx => h x (List.mem_cons_of_mem _ hx)]

namespace DecimalLiteral

variable {cs text : List Char} {l : DecimalLiteral}

/-! ### Taking a text apart -/

/-- The text in front of the first mark of an exponent and the text behind the mark. -/
def checkedCutAtMark (cs : List Char) : Except Fault (Option (List Char × List Char)) :=
  match firstOffset? Numeral.isExponentMark cs with
  | none => .ok none
  | some offset => do
      let (mantissa, _) ← Fault.boundary.ifNone (cutAt? cs offset)
      let (_, exponent) ← Fault.boundary.ifNone (cutAt? cs (offset + 1))
      return some (mantissa, exponent)

/-- Checked parts of a text. -/
def checkedOfChars? (text : List Char) : Except Fault (Option DecimalLiteral) := do
  let trimmed := trimBlanks text
  let negative := trimmed.head? = some '-'
  let unsigned := Numeral.dropSign ['+', '-'] trimmed
  let (mantissa, exponent?) :=
    match ← checkedCutAtMark unsigned with
    | none => (unsigned, some 0)
    | some (mantissa, exponent) => (mantissa, signedWord? exponent)
  let (whole, fraction) := (splitFirst? (· = '.') mantissa).getD (mantissa, [])
  return exponent?.map fun exponent => { negative, whole, fraction, exponent }

/-- A mark is one byte, whatever the characters in front of it are. -/
theorem utf8Size_of_isExponentMark
    {c : Char} (h : Numeral.isExponentMark c = true) :
    c.utf8Size = 1 := by
  simp only [Numeral.isExponentMark, Bool.or_eq_true, decide_eq_true_eq] at h
  rcases h with rfl | rfl <;> decide

/-- Both offsets at the mark are boundaries. -/
theorem checkedCutAtMark_eq
    (cs : List Char) :
    checkedCutAtMark cs = .ok (splitFirst? Numeral.isExponentMark cs) := by
  unfold checkedCutAtMark
  rw [firstOffset?_eq]
  cases hsplit : splitFirst? Numeral.isExponentMark cs with
  | none => rfl
  | some parts =>
      obtain ⟨mantissa, exponent⟩ := parts
      obtain ⟨mark, hmark, -, rfl⟩ := splitFirst?_eq_some_iff.mp hsplit
      have hfront : cutAt? (mantissa ++ mark :: exponent) (String.utf8Len mantissa) =
          some (mantissa, mark :: exponent) :=
        cutAt?_eq_some_iff.mpr ⟨rfl, rfl⟩
      have hback : cutAt? (mantissa ++ mark :: exponent) (String.utf8Len mantissa + 1) =
          some (mantissa ++ [mark], exponent) := by
        refine cutAt?_eq_some_iff.mpr ⟨by simp, ?_⟩
        simp [utf8Size_of_isExponentMark hmark]
      simp only [Option.map_some, hfront, hback, Fault.ifNone_some_bind]
      rfl

/-- No text is cut within a character. -/
theorem checkedOfChars?_eq
    (text : List Char) :
    checkedOfChars? text = .ok (ofChars? text) := by
  unfold checkedOfChars? ofChars?
  dsimp only
  rw [checkedCutAtMark_eq]
  cases splitFirst? Numeral.isExponentMark (Numeral.dropSign ['+', '-'] (trimBlanks text)) with
  | none => rfl
  | some parts => rfl

/-! ### The value -/

/--
Checked value.  The length of the fraction is taken from the exponent in a signed
word; it fits in one itself, as every length of a text does.
-/
def checkedValue? (l : DecimalLiteral) : Except Fault (Option Ratio) :=
  if l.digits = [] then .ok none
  else do
    match ← Fault.overflow.ifNone (ScaledNumber.exactOfDigits? l.digits 10) with
    | none => return none
    | some mantissa =>
        let scale ← Fault.overflow.ifNone
          (Magnitude.asSignedWord (l.exponent - String.utf8Len l.fraction))
        if scaleLimit < scale.natAbs then return none
        else
          return some (← Fault.zeroDivisor.ifNone
            (Ratio.checkedOfMantissaScale mantissa l.negative 10 scale))

/-- The exponent in the texts of the grammar fits in a signed word. -/
theorem ExponentText.lt_two_pow
    {e : Int} (h : ExponentText cs e) :
    e < 2 ^ 63 := by
  cases h with
  | absent => decide
  | marked _ _ _ hhigh => exact hhigh

/-- A scale that fits in a signed word is found. -/
theorem checkedValue?_eq
    (hhigh : l.exponent < 2 ^ 63)
    (hlow : l.digits ≠ [] → DigitsOf 10 l.digits → -2 ^ 63 ≤ l.scale) :
    l.checkedValue? = .ok l.value? := by
  unfold checkedValue? value?
  rw [ScaledNumber.exactOfDigits?_eq (by decide) (by decide)]
  split
  · rfl
  rename_i hne
  cases hread : ScaledNumber.ofDigits? l.digits 10 with
  | none => rfl
  | some m =>
      obtain ⟨hdigits, rfl⟩ := ofDigits?_ten_eq_some_iff.mp hread
      have hscale : Magnitude.asSignedWord (l.exponent - String.utf8Len l.fraction) =
          some l.scale := by
        rw [hdigits.of_append.2.utf8Len_eq]
        exact Magnitude.asSignedWord_eq (hlow hne hdigits) (by omega)
      have hvalue := Ratio.checkedOfMantissaScale_eq
        (ScaledNumber.canonical_ofNat (natOf 10 l.digits)) l.negative (by decide : 10 ≠ 0) l.scale
      simp only [Fault.ifNone_some_bind, hscale, hvalue]
      split <;> rfl

/-- A scale below the signed words stops the reader. -/
theorem checkedValue?_overflow
    (hne : l.digits ≠ []) (hdigits : DigitsOf 10 l.digits) (hlow : l.scale < -2 ^ 63) :
    l.checkedValue? = .error .overflow := by
  have hscale : Magnitude.asSignedWord (l.exponent - String.utf8Len l.fraction) = none := by
    rw [hdigits.of_append.2.utf8Len_eq]
    exact if_neg fun hfits => absurd hfits.1 (not_le.mpr hlow)
  unfold checkedValue?
  rw [if_neg hne, ScaledNumber.exactOfDigits?_eq (by decide) (by decide),
    ofDigits?_ten_eq_some_iff.mpr ⟨hdigits, rfl⟩]
  simp only [Fault.ifNone_some_bind, hscale, Fault.ifNone_none_bind]

end DecimalLiteral

namespace Ratio

open DecimalLiteral

/-! ### The reader -/

/-- The checked value of a decimal literal. -/
def checkedOfDecimal? (text : List Char) : Except Fault (Option Ratio) := do
  match ← checkedOfChars? text with
  | none => return none
  | some l => l.checkedValue?

variable {text : List Char}

theorem checkedOfDecimal?_of_parts
    {l : DecimalLiteral} (h : ofChars? text = some l) :
    checkedOfDecimal? text = l.checkedValue? := by
  rw [checkedOfDecimal?, checkedOfChars?_eq, h]
  rfl

/-- The reader goes through unless the scale of a literal is below the signed words. -/
theorem checkedOfDecimal?_eq
    (h : ∀ l, Derives text l → -2 ^ 63 ≤ l.scale) :
    checkedOfDecimal? text = .ok (ofDecimal? text) := by
  cases hparts : ofChars? text with
  | none =>
      rw [checkedOfDecimal?, checkedOfChars?_eq, ofDecimal?, hparts]
      rfl
  | some l =>
      obtain ⟨_, _, -, -, -, hexponent⟩ := exists_parts_of_ofChars? hparts
      rw [checkedOfDecimal?_of_parts hparts, ofDecimal?, hparts, Option.bind_some]
      exact checkedValue?_eq hexponent.lt_two_pow fun hne hdigits =>
        h l (derives_iff.mpr ⟨hparts, hne, hdigits⟩)

/-- For such a literal it stops with an overflow. -/
theorem checkedOfDecimal?_overflow
    {l : DecimalLiteral} (h : Derives text l) (hlow : l.scale < -2 ^ 63) :
    checkedOfDecimal? text = .error .overflow := by
  obtain ⟨hparts, hne, hdigits⟩ := derives_iff.mp h
  rw [checkedOfDecimal?_of_parts hparts]
  exact checkedValue?_overflow hne hdigits hlow

/-- A text has no value if it is no literal, or if the scale is beyond its limit. -/
theorem ofDecimal?_eq_none_iff :
    ofDecimal? text = none ↔ ∀ l, Derives text l → scaleLimit < l.scale.natAbs := by
  simp only [Option.eq_none_iff_forall_ne_some, ne_eq, ofDecimal?_eq_some_iff, not_exists, not_and]
  constructor
  · intro h l hl
    by_contra hscale
    exact h (ofRat l.number) l hl (not_lt.mp hscale) rfl
  · intro h r l hl hscale
    exact absurd (h l hl) (not_lt.mpr hscale)

/-- **The reader stops for the literals with a scale below the signed words, and
for no other text.** It never cuts a text within a character, and no other number
leaves its word.  Whenever it does not stop it gives the value of the text, which
is none if the text is no literal or the scale is beyond its limit. -/
theorem decimal_reader_fault_iff
    (text : List Char) :
    (∀ fault, checkedOfDecimal? text = .error fault ↔
        fault = .overflow ∧ ∃ l, Derives text l ∧ l.scale < -2 ^ 63) ∧
      (∀ value?, checkedOfDecimal? text = .ok value? ↔
        value? = ofDecimal? text ∧ ∀ l, Derives text l → -2 ^ 63 ≤ l.scale) ∧
      (ofDecimal? text = none ↔ ∀ l, Derives text l → scaleLimit < l.scale.natAbs) := by
  rw [← and_assoc]
  refine ⟨?outcome, ofDecimal?_eq_none_iff⟩
  by_cases h : ∃ l, Derives text l ∧ l.scale < -2 ^ 63
  case pos =>
    obtain ⟨l, hl, hlow⟩ := h
    rw [checkedOfDecimal?_overflow hl hlow]
    refine ⟨fun fault => ?_, fun value? => ?_⟩
    · rw [Except.error.injEq]
      exact ⟨fun heq => ⟨heq.symm, l, hl, hlow⟩, fun heq => heq.1.symm⟩
    · simp only [reduceCtorEq, false_iff, not_and]
      exact fun _ hfits => absurd (hfits l hl) (not_le.mpr hlow)
  case neg =>
    have hfits : ∀ l, Derives text l → -2 ^ 63 ≤ l.scale := fun l hl =>
      not_lt.mp fun hlow => h ⟨l, hl, hlow⟩
    rw [checkedOfDecimal?_eq hfits]
    refine ⟨fun fault => ?_, fun value? => ?_⟩
    · simp only [reduceCtorEq, false_iff, not_and]
      exact fun _ => h
    · rw [Except.ok.injEq]
      exact ⟨fun heq => ⟨heq.symm, hfits⟩, fun heq => heq.1.symm⟩

/-- The smallest exponent is no signed word any more when the length of a fraction is taken
from it, although the text only has to be refused. -/
theorem smallest_exponent_overflows :
    checkedOfDecimal? "1.5e-9223372036854775808".toList = .error .overflow ∧
      ofDecimal? "1.5e-9223372036854775808".toList = none := by
  decide +kernel

example : checkedOfDecimal? "15e-9223372036854775808".toList = .ok none := by
  decide +kernel

end Ratio
end DeskCalculator
