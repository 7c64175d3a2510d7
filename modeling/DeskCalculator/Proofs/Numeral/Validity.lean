import DeskCalculator.Proofs.Numeral.Order
import DeskCalculator.Proofs.Ratio.DecimalGrammar

/-!
# The grammar of well-formed numerals

A numeral is `[-] mantissa [(e|E) [+|-] digits]`.  The mantissa is made of digits
of the radix, in capitals or not, with at most one point; the exponent stands in
radix ten only.  Both numbers of digits are at least one and within a limit.

The grammar shares its signs and mantissas with that of decimal literals.  So in
radix ten a numeral is a literal as well, and limits on the digits keep its scale
within the range of the reader.

**Results.**
* `isValid_iff`: the check accepts the texts of the grammar, and no others.
* `WellFormed.derives`: in radix ten they are decimal literals.
* `valid_numerals_read`: both together, with limits under which all are read.
-/

namespace DeskCalculator
namespace Numeral

open DecimalLiteral

/-! ### The grammar -/

/-- The texts of an exponent of at most `limit` digits, empty if there is none. -/
inductive ExponentPart (limit radix : Nat) : List Char → Prop
  | absent : ExponentPart limit radix []
  | marked {mark : Char} {sign digits : List Char} {negative : Bool} :
      radix = 10 →
      mark = 'e' ∨ mark = 'E' →
      SignText sign negative →
      1 ≤ digits.length →
      digits.length ≤ limit →
      DigitsOf 10 digits →
      ExponentPart limit radix (mark :: (sign ++ digits))

/-- The numerals of a radix within limits on the digits of the two parts. -/
inductive WellFormed (exponentLimit mantissaLimit radix : Nat) : List Char → Prop
  | numeral {mantissa whole fraction exponent : List Char} (negative : Bool) :
      MantissaText mantissa whole fraction →
      Readable radix (whole ++ fraction) →
      1 ≤ (whole ++ fraction).length →
      (whole ++ fraction).length ≤ mantissaLimit →
      ExponentPart exponentLimit radix exponent →
      WellFormed exponentLimit mantissaLimit radix
        ((if negative then ['-'] else []) ++ (mantissa ++ exponent))

variable {exponentLimit mantissaLimit limit radix n : Nat}
  {cs mantissa whole fraction exponent text : List Char}

/-! ### Mantissas -/

/-- Digits in front of a mantissa are counted. -/
theorem mantissaDigits?_append
    (h : Readable radix cs) (rest : List Char) :
    mantissaDigits? radix (cs ++ rest) = (mantissaDigits? radix rest).map (· + cs.length) := by
  induction cs with
  | nil => simp
  | cons c cs ih =>
      obtain ⟨⟨d, hd⟩, hcs⟩ := List.forall_mem_cons.mp h
      have hpoint : c ≠ '.' := fun heq =>
        h.not_mem.1 (heq ▸ List.mem_cons_self)
      rw [List.cons_append, mantissaDigits?, if_neg hpoint, hd, Option.isSome_some, if_pos rfl,
        ih hcs, Option.map_map]
      congr 1

/-- The count is that of the digits around the point. -/
theorem mantissaDigits?_of_mantissaText
    (h : MantissaText mantissa whole fraction) (hdigits : Readable radix (whole ++ fraction)) :
    mantissaDigits? radix mantissa = some (whole ++ fraction).length := by
  obtain ⟨hwhole, hfraction⟩ := hdigits.of_append
  cases h with
  | whole =>
      have hcount := mantissaDigits?_append hwhole []
      rw [List.append_nil] at hcount
      rw [hcount]
      simp [mantissaDigits?]
  | pointed =>
      have hcount := mantissaDigits?_append hfraction []
      rw [List.append_nil] at hcount
      rw [mantissaDigits?_append hwhole, mantissaDigits?, if_pos rfl,
        if_neg hfraction.not_mem.1, hcount, List.length_append]
      simp only [mantissaDigits?, Option.map_some, Option.some.injEq]
      omega

/-- A digit in front belongs to the digits before the point. -/
theorem mantissaText_cons
    (c : Char) (h : MantissaText mantissa whole fraction) :
    MantissaText (c :: mantissa) (c :: whole) fraction := by
  cases h with
  | whole => exact .whole (c :: mantissa)
  | pointed => exact .pointed (c :: whole) fraction

/-- What is counted is a mantissa. -/
theorem exists_mantissaText
    (h : mantissaDigits? radix cs = some n) :
    ∃ whole fraction, MantissaText cs whole fraction ∧ Readable radix (whole ++ fraction) ∧
      n = (whole ++ fraction).length := by
  induction cs generalizing n with
  | nil =>
      obtain rfl := Option.some.inj h
      exact ⟨[], [], .whole [], List.forall_mem_nil _, rfl⟩
  | cons c cs ih =>
      rw [mantissaDigits?] at h
      split at h
      · rename_i hpoint
        obtain ⟨hrest, h⟩ := Option.ite_none_left_eq_some.mp h
        obtain ⟨whole, fraction, hmantissa, hdigits, rfl⟩ := ih h
        subst hpoint
        -- behind the point there are digits only
        cases hmantissa with
        | whole => exact ⟨[], cs, .pointed [] cs, by simpa using hdigits, by simp⟩
        | pointed => exact absurd (by simp) hrest
      · obtain ⟨hc, h⟩ := Option.ite_none_right_eq_some.mp h
        obtain ⟨m, hm, rfl⟩ := Option.map_eq_some_iff.mp h
        obtain ⟨whole, fraction, hmantissa, hdigits, rfl⟩ := ih hm
        exact ⟨c :: whole, fraction, mantissaText_cons c hmantissa,
          List.forall_mem_cons.mpr ⟨Option.isSome_iff_exists.mp hc, hdigits⟩, rfl⟩

/-- Every text begins with a minus sign that may be missing. -/
theorem eq_minus_append
    (cs : List Char) :
    cs = (if decide (cs.head? = some '-') then ['-'] else []) ++ dropSign ['-'] cs := by
  cases cs with
  | nil => rfl
  | cons c cs => by_cases hc : c = '-' <;> simp [dropSign, hc]

/-- A mantissa is a sign and digits around a point, as many as are allowed. -/
theorem isMantissa_iff :
    isMantissa limit radix text = true ↔
      ∃ (negative : Bool) (mantissa whole fraction : List Char),
        text = (if negative then ['-'] else []) ++ mantissa ∧
          MantissaText mantissa whole fraction ∧ Readable radix (whole ++ fraction) ∧
          1 ≤ (whole ++ fraction).length ∧ (whole ++ fraction).length ≤ limit := by
  unfold isMantissa
  constructor
  case mp =>
    intro h
    split at h
    · cases h
    rename_i n hcount
    obtain ⟨hne, hle⟩ := Bool.and_eq_true_iff.mp h
    obtain ⟨whole, fraction, hmantissa, hdigits, rfl⟩ := exists_mantissaText hcount
    exact ⟨_, _, whole, fraction, eq_minus_append text, hmantissa, hdigits,
      Nat.one_le_iff_ne_zero.mpr (of_decide_eq_true hne), of_decide_eq_true hle⟩
  case mpr =>
    rintro ⟨negative, mantissa, whole, fraction, rfl, hmantissa, hdigits, hpos, hle⟩
    have hfirst : ∀ c ∈ mantissa.head?, c ∉ ['-'] := by
      rintro c hc hminus
      have hne := hmantissa.ne_sign hdigits (List.mem_of_mem_head? hc)
      exact hne.2 (List.mem_singleton.mp hminus)
    rw [(dropSign_signed (by simp) hfirst negative).1,
      mantissaDigits?_of_mantissaText hmantissa hdigits]
    exact Bool.and_eq_true_iff.mpr
      ⟨decide_eq_true (Nat.one_le_iff_ne_zero.mp hpos), decide_eq_true hle⟩

/-! ### Exponents -/

/-- An exponent is a sign and decimal digits, as many as are allowed. -/
theorem isExponent_iff :
    isExponent limit text = true ↔
      ∃ sign negative digits, SignText sign negative ∧ text = sign ++ digits ∧
        1 ≤ digits.length ∧ digits.length ≤ limit ∧ DigitsOf 10 digits := by
  have hall : ∀ digits : List Char, digits.all Char.isDigit = true ↔ DigitsOf 10 digits := by
    intro digits
    simp only [List.all_eq_true, isDigit_iff, DigitsOf]
  simp only [isExponent, Bool.and_eq_true, decide_eq_true_eq, hall, ← List.length_pos_iff]
  constructor
  case mp =>
    rintro ⟨⟨hpos, hle⟩, hdigits⟩
    obtain ⟨sign, hsign, htext⟩ := exists_signText text
    exact ⟨sign, _, _, hsign, htext, hpos, hle, hdigits⟩
  case mpr =>
    rintro ⟨sign, negative, digits, hsign, rfl, hpos, hle, hdigits⟩
    have hdrop := (hsign.dropSign fun c hc =>
      ne_sign_of_digitsOf hdigits (List.mem_of_mem_head? hc)).1
    rw [hdrop]
    exact ⟨⟨hpos, hle⟩, hdigits⟩

/-- Behind a mark there is a sign with digits. -/
theorem exponentPart_cons_iff
    {mark : Char} :
    ExponentPart limit radix (mark :: text) ↔
      radix = 10 ∧ isExponentMark mark = true ∧ isExponent limit text = true := by
  rw [isExponent_iff, isExponentMark, Bool.or_eq_true, decide_eq_true_eq, decide_eq_true_eq]
  constructor
  · intro h
    cases h with
    | marked hten hmark hsign hpos hle hdigits =>
        exact ⟨hten, hmark, _, _, _, hsign, rfl, hpos, hle, hdigits⟩
  · rintro ⟨hten, hmark, sign, negative, digits, hsign, rfl, hpos, hle, hdigits⟩
    exact .marked hten hmark hsign hpos hle hdigits

/-! ### Numerals -/

/-- A numeral is a mantissa with an exponent behind it, which may be missing. -/
theorem wellFormed_iff :
    WellFormed exponentLimit mantissaLimit radix text ↔
      ∃ signed exponent, text = signed ++ exponent ∧
        isMantissa mantissaLimit radix signed = true ∧
        ExponentPart exponentLimit radix exponent := by
  constructor
  · rintro ⟨negative, hmantissa, hdigits, hpos, hle, hexponent⟩
    exact ⟨_, _, (List.append_assoc _ _ _).symm,
      isMantissa_iff.mpr ⟨negative, _, _, _, rfl, hmantissa, hdigits, hpos, hle⟩, hexponent⟩
  · rintro ⟨signed, exponent, rfl, hsigned, hexponent⟩
    obtain ⟨negative, mantissa, whole, fraction, rfl, hmantissa, hdigits, hpos, hle⟩ :=
      isMantissa_iff.mp hsigned
    rw [List.append_assoc]
    exact .numeral negative hmantissa hdigits hpos hle hexponent

/-- There is no mark of an exponent in a decimal mantissa. -/
theorem not_isExponentMark_of_isMantissa
    (h : isMantissa limit 10 text = true) :
    ∀ c ∈ text, isExponentMark c = false := by
  obtain ⟨negative, mantissa, whole, fraction, rfl, hmantissa, hdigits, -, -⟩ :=
    isMantissa_iff.mp h
  intro c hc
  rcases List.mem_append.mp hc with hsign | hc
  · cases negative with
    | false => cases hsign
    | true =>
        obtain rfl := List.mem_singleton.mp hsign
        decide
  · exact hmantissa.not_isExponentMark hdigits c hc

/-- The check cuts at the first mark, which in a numeral is the only one. -/
theorem isValid_iff :
    isValid text exponentLimit mantissaLimit radix = true ↔
      WellFormed exponentLimit mantissaLimit radix text := by
  rw [wellFormed_iff]
  by_cases hten : radix = 10
  case pos =>
    subst hten
    rw [isValid, if_pos rfl]
    constructor
    case mp =>
      intro h
      split at h
      · exact ⟨text, [], (List.append_nil _).symm, h, .absent⟩
      · rename_i mantissa exponent hsplit
        obtain ⟨mark, hmark, -, rfl⟩ := splitFirst?_eq_some_iff.mp hsplit
        obtain ⟨hmantissa, hexponent⟩ := Bool.and_eq_true_iff.mp h
        exact ⟨mantissa, _, rfl, hmantissa, exponentPart_cons_iff.mpr ⟨rfl, hmark, hexponent⟩⟩
    case mpr =>
      rintro ⟨signed, exponent, rfl, hmantissa, hexponent⟩
      have hmarks := not_isExponentMark_of_isMantissa hmantissa
      cases exponent with
      | nil => rwa [List.append_nil, splitFirst?_eq_none hmarks]
      | cons mark digits =>
          obtain ⟨-, hmark, hdigits⟩ := exponentPart_cons_iff.mp hexponent
          rw [splitFirst?_append hmarks hmark]
          exact Bool.and_eq_true_iff.mpr ⟨hmantissa, hdigits⟩
  case neg =>
    rw [isValid, if_neg hten]
    constructor
    · intro h
      exact ⟨text, [], (List.append_nil _).symm, h, .absent⟩
    · rintro ⟨signed, exponent, rfl, hmantissa, hexponent⟩
      cases exponent with
      | nil => rwa [List.append_nil]
      | cons mark digits => exact absurd (exponentPart_cons_iff.mp hexponent).1 hten

/-! ### Numerals in radix ten -/

/-- An exponent is that of a literal, if so many digits always fit in 64 bits. -/
theorem ExponentPart.exponentText
    (h : ExponentPart limit 10 text) (hlimit : limit ≤ 4) :
    ∃ e, ExponentText text e ∧ e.natAbs < 10 ^ 4 := by
  cases h with
  | absent => exact ⟨0, .absent, by decide⟩
  | @marked _ _ digits _ _ hmark hsign hpos hle hdigits =>
      have hlt : natOf 10 digits < 10 ^ 4 :=
        (hdigits.natOf_lt_pow (by decide)).trans_le
          (Nat.pow_le_pow_right (by decide) (hle.trans hlimit))
      have hinteger := IntegerText.signed hsign (List.ne_nil_of_length_pos hpos) hdigits
      refine ⟨_, .marked hmark hinteger ?_ ?_, ?_⟩ <;> split <;> omega

/-- Numerals of radix ten are decimal literals, and the limits on the digits bound the scale. -/
theorem WellFormed.derives
    (h : WellFormed exponentLimit mantissaLimit 10 text) (hexponent : exponentLimit ≤ 4) :
    ∃ l, Derives text l ∧ l.scale.natAbs < 10 ^ 4 + mantissaLimit := by
  obtain ⟨negative, hmantissa, hdigits, hpos, hle, hpart⟩ := h
  rename_i mantissa whole fraction exponent
  obtain ⟨e, htext, hlt⟩ := hpart.exponentText hexponent
  refine ⟨⟨negative, whole, fraction, e⟩, .of_parts (signText_minus negative) hmantissa htext
    (List.ne_nil_of_length_pos hpos) (readable_ten_iff.mp hdigits), ?_⟩
  rw [List.length_append] at hle
  simp only [DecimalLiteral.scale]
  omega

/-- **The check of numerals accepts exactly its grammar, and only texts that can be read.**
A text is accepted if it is an optional minus sign, digits of the radix with at
most one point, and in radix ten an optional exponent, with at least one digit
and at most the allowed number in either part.  With at most 4 digits of an
exponent and 90000 of a mantissa, the reader of decimal literals makes of every
accepted text of radix ten the number that it denotes. -/
theorem valid_numerals_read
    (text : List Char) (exponentLimit mantissaLimit radix : Nat) :
    (isValid text exponentLimit mantissaLimit radix = true ↔
        WellFormed exponentLimit mantissaLimit radix text) ∧
      (radix = 10 → exponentLimit ≤ 4 → mantissaLimit ≤ 90000 →
        isValid text exponentLimit mantissaLimit radix = true →
        ∃ l, Derives text l ∧ Ratio.ofDecimal? text = some (.ofRat l.number)) := by
  refine ⟨isValid_iff, ?_⟩
  rintro rfl hexponent hmantissa hvalid
  obtain ⟨l, hl, hscale⟩ := (isValid_iff.mp hvalid).derives hexponent
  refine ⟨l, hl, Ratio.ofDecimal?_eq_some_iff.mpr ⟨l, hl, ?_, rfl⟩⟩
  unfold scaleLimit
  omega

-- `e` is a digit in radix sixteen, and in radix ten it marks an exponent with one sign at most
example :
    isValid ['1', 'e', '5'] 4 3 16 = true ∧
      isValid ['2', 'e', '+', '-', '3'] 4 3 10 = false := by
  decide

/-- The longest exponent that is read, on a mantissa that begins with its point. -/
theorem smallest_exponent_read :
    10 = 10 ∧ 4 ≤ 4 ∧ 32 ≤ 90000 ∧
      isValid ['-', '.', '5', '0', 'E', '-', '9', '9', '9', '9'] 4 32 10 = true ∧
      ∃ l, Derives ['-', '.', '5', '0', 'E', '-', '9', '9', '9', '9'] l ∧
        Ratio.ofDecimal? ['-', '.', '5', '0', 'E', '-', '9', '9', '9', '9'] =
          some (.ofRat l.number) := by
  have hvalid : isValid ['-', '.', '5', '0', 'E', '-', '9', '9', '9', '9'] 4 32 10 = true := by
    decide
  exact ⟨rfl, le_rfl, by decide, hvalid,
    (valid_numerals_read _ 4 32 10).2 rfl le_rfl (by decide) hvalid⟩

end Numeral
end DeskCalculator
