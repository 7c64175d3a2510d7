import DeskCalculator.Proofs.Magnitude.Digits
import DeskCalculator.Proofs.Numeral.Parts
import DeskCalculator.Proofs.Ratio.Truncation
import DeskCalculator.Ratio.Decimal
import Mathlib.Data.List.TakeWhile

/-!
# The grammar of decimal literals

A literal is `[+|-] mantissa [(e|E) [+|-] digits]` with blanks around it.  The
mantissa is made of decimal digits, one at least, with at most one point.  The
exponent fits in 64 bits, and the scale is within its limit.

The grammar says which texts are literals and what their parts are.  It does not
mention how a text is taken apart, and the reader does not mention the grammar:
it cuts at the first mark and at the first point, whatever is around them.

**Results.**
* `derives_iff`: the reader finds the parts of the texts of the grammar.
* `decimal_reader_accepts_grammar`: those texts are read, and no others, as the
  numbers that they denote.
-/

namespace DeskCalculator

/-! ### Blanks -/

/-- A text of blanks only. -/
def Blank (cs : List Char) : Prop :=
  ∀ c ∈ cs, isBlank c = true

/-- A text is what is left of it after trimming, with blanks around. -/
theorem exists_blank_trimBlanks
    (cs : List Char) :
    ∃ before after, Blank before ∧ Blank after ∧ cs = before ++ trimBlanks cs ++ after := by
  have hfront := List.takeWhile_append_dropWhile (p := isBlank) (l := cs)
  have hback := List.takeWhile_append_dropWhile (p := isBlank) (l := (cs.dropWhile isBlank).reverse)
  refine ⟨cs.takeWhile isBlank, ((cs.dropWhile isBlank).reverse.takeWhile isBlank).reverse,
    fun c hc => List.mem_takeWhile_imp hc,
    fun c hc => List.mem_takeWhile_imp (List.mem_reverse.mp hc), ?_⟩
  rw [List.append_assoc, trimBlanks, ← List.reverse_append, hback, List.reverse_reverse, hfront]

theorem trimBlanks_eq_self
    {cs : List Char} (h : ∀ c ∈ cs, isBlank c = false) :
    trimBlanks cs = cs := by
  have hdrop : ∀ ds : List Char, (∀ c ∈ ds, isBlank c = false) → ds.dropWhile isBlank = ds := by
    intro ds hds
    cases ds with
    | nil => rfl
    | cons d ds => simp [hds d List.mem_cons_self]
  rw [trimBlanks, hdrop cs h, hdrop _ fun c hc => h c (List.mem_reverse.mp hc),
    List.reverse_reverse]

/-- Trimming takes away the blanks around a text without blanks. -/
theorem trimBlanks_append
    {before cs after : List Char} (hbefore : Blank before) (hafter : Blank after)
    (hcs : ∀ c ∈ cs, isBlank c = false) :
    trimBlanks (before ++ cs ++ after) = cs := by
  have hreverse : Blank after.reverse := fun c hc => hafter c (List.mem_reverse.mp hc)
  cases cs with
  | nil =>
      have hall : (before ++ [] ++ after).dropWhile isBlank = [] := by
        rw [List.append_nil, List.dropWhile_append_of_pos hbefore, List.dropWhile_eq_nil_iff]
        exact hafter
      rw [trimBlanks, hall]
      rfl
  | cons c cs =>
      have hfront : (before ++ (c :: cs) ++ after).dropWhile isBlank = (c :: cs) ++ after := by
        rw [List.append_assoc, List.dropWhile_append_of_pos hbefore]
        simp [hcs c List.mem_cons_self]
      have hself := trimBlanks_eq_self hcs
      rw [trimBlanks, List.dropWhile_cons_of_neg (by simp [hcs c List.mem_cons_self])] at hself
      rw [trimBlanks, hfront, List.reverse_append, List.dropWhile_append_of_pos hreverse, hself]

/-! ### The grammar -/

namespace DecimalLiteral

/-- The texts of a sign, and whether it is a minus sign. -/
inductive SignText : List Char → Bool → Prop
  | absent : SignText [] false
  | plus : SignText ['+'] false
  | minus : SignText ['-'] true

/-- The texts of an integer, with a sign or without. -/
inductive IntegerText : List Char → Int → Prop
  | signed {sign digits : List Char} {negative : Bool} :
      SignText sign negative →
      digits ≠ [] →
      DigitsOf 10 digits →
      IntegerText (sign ++ digits)
        (if negative then -(natOf 10 digits : Int) else natOf 10 digits)

/-- The texts of an exponent, zero if there is none. -/
inductive ExponentText : List Char → Int → Prop
  | absent : ExponentText [] 0
  | marked {mark : Char} {integer : List Char} {e : Int} :
      mark = 'e' ∨ mark = 'E' →
      IntegerText integer e →
      -2 ^ 63 ≤ e →
      e < 2 ^ 63 →
      ExponentText (mark :: integer) e

/-- The texts of the digits before and after the point, which may be missing. -/
inductive MantissaText : List Char → List Char → List Char → Prop
  | whole (whole : List Char) : MantissaText whole whole []
  | pointed (whole fraction : List Char) :
      MantissaText (whole ++ '.' :: fraction) whole fraction

/-- The texts of a literal, with blanks around it. -/
inductive Derives : List Char → DecimalLiteral → Prop
  | literal {before sign mantissa exponent after : List Char} {l : DecimalLiteral} :
      Blank before →
      SignText sign l.negative →
      MantissaText mantissa l.whole l.fraction →
      ExponentText exponent l.exponent →
      Blank after →
      l.digits ≠ [] →
      DigitsOf 10 l.digits →
      Derives (before ++ (sign ++ (mantissa ++ exponent)) ++ after) l

/-- The number that a literal stands for. -/
def number (l : DecimalLiteral) : ℚ :=
  ScaledNumber.signFactor l.negative * natOf 10 l.digits * 10 ^ l.scale

variable {cs sign mantissa exponent whole fraction : List Char} {negative : Bool} {e : Int}
  {l : DecimalLiteral}

/-! ### Signs and exponents -/

/-- A sign in front is found, whatever follows, if it is not a sign again. -/
theorem SignText.dropSign
    (h : SignText sign negative) (hcs : ∀ c ∈ cs.head?, c ≠ '+' ∧ c ≠ '-') :
    Numeral.dropSign ['+', '-'] (sign ++ cs) = cs ∧
      ((sign ++ cs).head? = some '-' ↔ negative = true) := by
  have hfirst : ∀ c ∈ cs.head?, c ∉ ['+', '-'] := fun c hc => by simpa using hcs c hc
  cases h with
  | absent => exact Numeral.dropSign_signed (by simp) hfirst false
  | plus => simp [Numeral.dropSign]
  | minus => exact Numeral.dropSign_signed (by simp) hfirst true

/-- A minus sign that may be missing. -/
theorem signText_minus
    (negative : Bool) :
    SignText (if negative then ['-'] else []) negative := by
  cases negative with
  | false => exact .absent
  | true => exact .minus

/-- Every text begins with a sign that may be missing. -/
theorem exists_signText
    (cs : List Char) :
    ∃ sign, SignText sign (decide (cs.head? = some '-')) ∧
      cs = sign ++ Numeral.dropSign ['+', '-'] cs := by
  rcases cs with _ | ⟨c, cs⟩
  · exact ⟨[], .absent, rfl⟩
  rcases eq_or_ne c '-' with rfl | hminus
  · exact ⟨['-'], .minus, rfl⟩
  rcases eq_or_ne c '+' with rfl | hplus
  · exact ⟨['+'], .plus, rfl⟩
  · exact ⟨[], by simpa [hminus] using SignText.absent, by simp [Numeral.dropSign, hminus, hplus]⟩

/-- A sign is no blank. -/
theorem SignText.not_isBlank
    (h : SignText sign negative) {c : Char} (hc : c ∈ sign) :
    isBlank c = false := by
  cases h with
  | absent => cases hc
  | plus =>
      obtain rfl := List.mem_singleton.mp hc
      decide
  | minus =>
      obtain rfl := List.mem_singleton.mp hc
      decide

/-- A digit is no sign. -/
theorem ne_sign_of_digitsOf
    (h : DigitsOf 10 cs) {c : Char} (hc : c ∈ cs) :
    c ≠ '+' ∧ c ≠ '-' := by
  obtain ⟨d, hd, rfl⟩ := h c hc
  exact ⟨(digitChar_decimal hd).2.2, (digitChar_ne_sign_or_point (by omega)).2⟩

/-- Integers are read, and nothing else. -/
theorem signedInt?_eq_some_iff :
    signedInt? cs = some e ↔ IntegerText cs e := by
  constructor
  case mp =>
    intro h
    obtain ⟨sign, hsign, hcs⟩ := exists_signText cs
    obtain ⟨n, hn, rfl⟩ := Option.map_eq_some_iff.mp h
    obtain ⟨hne, hdigits, rfl⟩ := decimalNat?_eq_some_iff.mp hn
    have htext := IntegerText.signed hsign hne hdigits
    rw [← hcs] at htext
    simpa only [decide_eq_true_eq] using htext
  case mpr =>
    rintro ⟨hsign, hne, hdigits⟩
    obtain ⟨hdrop, hhead⟩ := hsign.dropSign fun c hc =>
      ne_sign_of_digitsOf hdigits (List.mem_of_mem_head? hc)
    simp only [signedInt?, hdrop, decimalNat?_eq_natOf hdigits hne, hhead, Option.map_some]

/-- The reader of exponents refuses integers beyond 64 bits. -/
theorem signedWord?_eq_some_iff :
    signedWord? cs = some e ↔ signedInt? cs = some e ∧ -2 ^ 63 ≤ e ∧ e < 2 ^ 63 := by
  unfold signedWord? signedInt?
  dsimp only
  cases decimalNat? (Numeral.dropSign ['+', '-'] cs) with
  | none => simp
  | some n =>
      simp only [Option.map_some, Option.some.injEq]
      generalize (if cs.head? = some '-' then -(n : Int) else n) = value
      split
      · rename_i hrange
        rw [Option.some.injEq]
        exact ⟨fun heq => ⟨heq, heq ▸ hrange⟩, And.left⟩
      · rename_i hrange
        simp only [reduceCtorEq, false_iff]
        rintro ⟨rfl, hvalue⟩
        exact hrange hvalue

/-- The exponent is what stands behind the first mark. -/
theorem exponentText_iff :
    ExponentText exponent e ↔
      (exponent = [] ∧ e = 0) ∨
        ∃ mark integer, exponent = mark :: integer ∧
          Numeral.isExponentMark mark = true ∧ signedWord? integer = some e := by
  simp only [signedWord?_eq_some_iff, signedInt?_eq_some_iff, Numeral.isExponentMark,
    Bool.or_eq_true, decide_eq_true_eq]
  constructor
  · rintro (_ | ⟨hmark, hinteger, hlow, hhigh⟩)
    · exact Or.inl ⟨rfl, rfl⟩
    · exact Or.inr ⟨_, _, rfl, hmark, hinteger, hlow, hhigh⟩
  · rintro (⟨rfl, rfl⟩ | ⟨mark, integer, rfl, hmark, hinteger, hlow, hhigh⟩)
    · exact .absent
    · exact .marked hmark hinteger hlow hhigh

/-! ### The mantissa -/

/-- What is cut at the first point is a mantissa. -/
theorem mantissaText_splitFirst?
    (h : (splitFirst? (· = '.') mantissa).getD (mantissa, []) = (whole, fraction)) :
    MantissaText mantissa whole fraction := by
  cases hsplit : splitFirst? (· = '.') mantissa with
  | none =>
      rw [hsplit, Option.getD_none] at h
      obtain ⟨rfl, rfl⟩ := Prod.mk.inj h
      exact .whole _
  | some parts =>
      rw [hsplit, Option.getD_some] at h
      subst h
      obtain ⟨c, hc, -, rfl⟩ := splitFirst?_eq_some_iff.mp hsplit
      obtain rfl := of_decide_eq_true hc
      exact .pointed _ _

namespace MantissaText

variable {radix : Nat} (h : MantissaText mantissa whole fraction)
  (hdigits : Readable radix (whole ++ fraction))

include h hdigits

/-- There is no point but the one between the digits. -/
theorem splitFirst?_eq :
    (splitFirst? (· = '.') mantissa).getD (mantissa, []) = (whole, fraction) := by
  have hwhole : ∀ c ∈ whole, decide (c = '.') = false := by
    intro c hc
    rw [decide_eq_false_iff_not]
    rintro rfl
    exact hdigits.of_append.1.not_mem.1 hc
  cases h with
  | whole => rw [splitFirst?_eq_none hwhole, Option.getD_none]
  | pointed => rw [splitFirst?_append hwhole (by decide), Option.getD_some]

/-- A mantissa is made of digits and points. -/
theorem mem_cases
    {c : Char} (hc : c ∈ mantissa) :
    c = '.' ∨ ∃ d, radixDigit? radix c = some d := by
  cases h with
  | whole => exact Or.inr (hdigits c (List.mem_append_left _ hc))
  | pointed =>
      rcases List.mem_append.mp hc with hwhole | hrest
      · exact Or.inr (hdigits c (List.mem_append_left _ hwhole))
      · rcases List.mem_cons.mp hrest with hpoint | hfraction
        · exact Or.inl hpoint
        · exact Or.inr (hdigits c (List.mem_append_right _ hfraction))

theorem ne_sign
    {c : Char} (hc : c ∈ mantissa) :
    c ≠ '+' ∧ c ≠ '-' := by
  rcases h.mem_cases hdigits hc with rfl | hdigit
  · decide
  · obtain ⟨-, hminus, hplus⟩ := ne_sign_or_point_of_radixDigit? hdigit
    exact ⟨hplus, hminus⟩

omit hdigits in
/-- A mantissa with a digit is not empty. -/
theorem ne_nil
    (hne : whole ++ fraction ≠ []) :
    mantissa ≠ [] := by
  cases h with
  | whole => simpa using hne
  | pointed => simp

end MantissaText

/-- There is no mark of an exponent in a decimal mantissa. -/
theorem MantissaText.not_isExponentMark
    (h : MantissaText mantissa whole fraction) (hdigits : Readable 10 (whole ++ fraction)) :
    ∀ c ∈ mantissa, Numeral.isExponentMark c = false := by
  intro c hc
  rcases h.mem_cases hdigits hc with rfl | hdigit
  · decide
  · obtain ⟨d, hd, rfl⟩ := radixDigit?_ten_iff.mp hdigit
    exact (digitChar_decimal hd).2.1

/-! ### The whole text -/

/-- A text without blanks around it is a literal as well. -/
theorem Derives.of_parts
    (hsign : SignText sign l.negative) (hmantissa : MantissaText mantissa l.whole l.fraction)
    (hexponent : ExponentText exponent l.exponent) (hne : l.digits ≠ [])
    (hdigits : DigitsOf 10 l.digits) :
    Derives (sign ++ (mantissa ++ exponent)) l := by
  have hblank : Blank [] := List.forall_mem_nil _
  have hderives := Derives.literal hblank hsign hmantissa hexponent hblank hne hdigits
  rwa [List.nil_append, List.append_nil] at hderives

/-- There is no blank within a literal. -/
theorem not_isBlank
    (hsign : SignText sign negative) (hmantissa : MantissaText mantissa whole fraction)
    (hdigits : DigitsOf 10 (whole ++ fraction)) (hexponent : ExponentText exponent e)
    {c : Char} (hc : c ∈ sign ++ (mantissa ++ exponent)) :
    isBlank c = false := by
  have hdigit : ∀ d < 10, isBlank (digitChar d) = false := by decide
  rcases List.mem_append.mp hc with hc | hc
  · exact hsign.not_isBlank hc
  rcases List.mem_append.mp hc with hc | hc
  · rcases hmantissa.mem_cases (hdigits.readable (by decide)) hc with rfl | hreadable
    · decide
    · obtain ⟨d, hd, rfl⟩ := radixDigit?_ten_iff.mp hreadable
      exact hdigit d hd
  rcases hexponent with _ | ⟨hmark, hinteger, -, -⟩
  · cases hc
  rcases List.mem_cons.mp hc with rfl | hc
  · rcases hmark with rfl | rfl <;> decide
  obtain ⟨hsign, -, hdigits⟩ := hinteger
  rcases List.mem_append.mp hc with hc | hc
  · exact hsign.not_isBlank hc
  · obtain ⟨d, hd, rfl⟩ := hdigits c hc
    exact hdigit d hd

/-- The parts of a literal are found in its text. -/
theorem Derives.ofChars?_eq
    (h : Derives cs l) :
    ofChars? cs = some l := by
  obtain ⟨hbefore, hsign, hmantissa, hexponent, hafter, hne, hdigits⟩ := h
  rename_i before sign mantissa exponent after
  have htrim := trimBlanks_append hbefore hafter fun c hc =>
    not_isBlank hsign hmantissa hdigits hexponent hc
  have hreadable := hdigits.readable (by decide : 10 ≤ 16)
  have hfirst : ∀ c ∈ (mantissa ++ exponent).head?, c ≠ '+' ∧ c ≠ '-' := by
    intro c hc
    rw [List.head?_append_of_ne_nil _ (hmantissa.ne_nil hne)] at hc
    exact hmantissa.ne_sign hreadable (List.mem_of_mem_head? hc)
  have hmarks := hmantissa.not_isExponentMark hreadable
  obtain ⟨hdrop, hhead⟩ := hsign.dropSign hfirst
  have hpoint := hmantissa.splitFirst?_eq hreadable
  unfold ofChars?
  simp only [htrim, hdrop, hhead, Bool.decide_eq_true]
  rcases exponentText_iff.mp hexponent with ⟨rfl, hzero⟩ | ⟨mark, integer, rfl, hmark, hword⟩
  · simp [splitFirst?_eq_none hmarks, hpoint, ← hzero]
  · simp [splitFirst?_append hmarks hmark, hpoint, hword]

/-- What the reader finds is a mantissa and an exponent behind a sign. -/
theorem exists_parts_of_ofChars?
    (h : ofChars? cs = some l) :
    ∃ mantissa exponent,
      Numeral.dropSign ['+', '-'] (trimBlanks cs) = mantissa ++ exponent ∧
        l.negative = decide ((trimBlanks cs).head? = some '-') ∧
        MantissaText mantissa l.whole l.fraction ∧
        ExponentText exponent l.exponent := by
  unfold ofChars? at h
  dsimp only at h
  cases hsplit : splitFirst? Numeral.isExponentMark
      (Numeral.dropSign ['+', '-'] (trimBlanks cs)) with
  | none =>
      rw [hsplit] at h
      obtain rfl := Option.some.inj h
      exact ⟨_, [], (List.append_nil _).symm, rfl, mantissaText_splitFirst? rfl, .absent⟩
  | some parts =>
      obtain ⟨mantissa, integer⟩ := parts
      rw [hsplit] at h
      obtain ⟨e, hword, rfl⟩ := Option.map_eq_some_iff.mp h
      obtain ⟨mark, hmark, -, hunsigned⟩ := splitFirst?_eq_some_iff.mp hsplit
      exact ⟨mantissa, mark :: integer, hunsigned, rfl, mantissaText_splitFirst? rfl,
        exponentText_iff.mpr (Or.inr ⟨mark, integer, rfl, hmark, hword⟩)⟩

/-- The reader finds the parts of the texts of the grammar, and other parts are
not made of digits. -/
theorem derives_iff :
    Derives cs l ↔ ofChars? cs = some l ∧ l.digits ≠ [] ∧ DigitsOf 10 l.digits := by
  constructor
  case mp =>
    intro h
    refine ⟨h.ofChars?_eq, ?_⟩
    obtain ⟨-, -, -, -, -, hne, hdigits⟩ := h
    exact ⟨hne, hdigits⟩
  case mpr =>
    rintro ⟨h, hne, hdigits⟩
    obtain ⟨before, after, hbefore, hafter, hcs⟩ := exists_blank_trimBlanks cs
    obtain ⟨sign, hsign, htrimmed⟩ := exists_signText (trimBlanks cs)
    obtain ⟨mantissa, exponent, hunsigned, hnegative, hmantissa, hexponent⟩ :=
      exists_parts_of_ofChars? h
    rw [hcs, htrimmed, hunsigned]
    exact .literal hbefore (hnegative ▸ hsign) hmantissa hexponent hafter hne hdigits

/-- Decimal digits are read as the number that they spell, and nothing else is read. -/
theorem ofDigits?_ten_eq_some_iff
    {m : ScaledNumber} :
    ScaledNumber.ofDigits? cs 10 = some m ↔ DigitsOf 10 cs ∧ m = .ofNat (natOf 10 cs) := by
  rw [ScaledNumber.ofDigits?, Option.map_eq_some_iff, ← readable_ten_iff]
  simp only [Magnitude.ofDigits?_eq_some_iff (by decide : 0 < 10) (by decide)]
  constructor
  · rintro ⟨_, ⟨hreadable, rfl⟩, rfl⟩
    exact ⟨hreadable, rfl⟩
  · rintro ⟨hreadable, rfl⟩
    exact ⟨_, ⟨hreadable, rfl⟩, rfl⟩

/-- Digits within the limit on the scale have a value, and nothing else has. -/
theorem value?_eq_some_iff
    {r : Ratio} :
    l.value? = some r ↔
      l.digits ≠ [] ∧ DigitsOf 10 l.digits ∧ l.scale.natAbs ≤ scaleLimit ∧
        r = .ofRat l.number := by
  unfold value?
  constructor
  case mp =>
    intro h
    split at h
    · cases h
    rename_i hne
    split at h
    · cases h
    rename_i m hm
    obtain ⟨hdigits, rfl⟩ := ofDigits?_ten_eq_some_iff.mp hm
    split at h
    · cases h
    rename_i hscale
    refine ⟨hne, hdigits, not_lt.mp hscale, ?_⟩
    rw [← Option.some.inj h, Ratio.ofMantissaScale_eq _ _ (by decide)]
    rfl
  case mpr =>
    rintro ⟨hne, hdigits, hscale, rfl⟩
    rw [if_neg hne, ofDigits?_ten_eq_some_iff.mpr ⟨hdigits, rfl⟩]
    dsimp only
    rw [if_neg (not_lt.mpr hscale), Ratio.ofMantissaScale_eq _ _ (by decide)]
    rfl

end DecimalLiteral

namespace Ratio

open DecimalLiteral

/-- A text is read as the number that it denotes. -/
theorem ofDecimal?_eq_some_iff
    {text : List Char} {r : Ratio} :
    ofDecimal? text = some r ↔
      ∃ l, Derives text l ∧ l.scale.natAbs ≤ scaleLimit ∧ r = ofRat l.number := by
  simp only [ofDecimal?, Option.bind_eq_some_iff, value?_eq_some_iff, derives_iff]
  constructor
  · rintro ⟨l, hl, hne, hdigits, hscale, rfl⟩
    exact ⟨l, ⟨hl, hne, hdigits⟩, hscale, rfl⟩
  · rintro ⟨l, ⟨hl, hne, hdigits⟩, hscale, rfl⟩
    exact ⟨l, hl, hne, hdigits, hscale, rfl⟩

/-- **The reader of decimal literals accepts exactly its grammar.** A text is
read if it is a literal with blanks around it whose scale is within the limit.
What is read is in lowest terms and equal to the number that the literal denotes. -/
theorem decimal_reader_accepts_grammar
    (text : List Char) :
    ((ofDecimal? text).isSome = true ↔
        ∃ l, Derives text l ∧ l.scale.natAbs ≤ scaleLimit) ∧
      ∀ r, ofDecimal? text = some r ↔
        ∃ l, Derives text l ∧ l.scale.natAbs ≤ scaleLimit ∧
          LowestTerms r ∧ r.toRat = l.number := by
  refine ⟨?accepted, fun r => ?value⟩
  case accepted =>
    simp only [Option.isSome_iff_exists, ofDecimal?_eq_some_iff]
    constructor
    · rintro ⟨_, l, hl, hscale, -⟩
      exact ⟨l, hl, hscale⟩
    · rintro ⟨l, hl, hscale⟩
      exact ⟨ofRat l.number, l, hl, hscale, rfl⟩
  case value =>
    rw [ofDecimal?_eq_some_iff]
    refine exists_congr fun l => and_congr_right fun _ => and_congr_right fun _ => ?_
    constructor
    · rintro rfl
      exact ⟨lowestTerms_ofRat _, toRat_ofRat _⟩
    · rintro ⟨hr, hvalue⟩
      rw [(lowestTerms_iff r).mp hr, hvalue]

example : ofDecimal? [' ', '-', '1', '.', '5', 'E', '+', '1', ' '] = some (ofInt (-15)) := by
  decide +kernel

example : ofDecimal? ['1', '.', '5', '.'] = none := by
  decide

end Ratio
end DeskCalculator
