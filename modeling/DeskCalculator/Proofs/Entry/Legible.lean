import DeskCalculator.Proofs.Entry.Keystroke
import DeskCalculator.Proofs.Numeral.Validity

/-!
# A number being typed is always well formed

The keys that an entry accepts leave it legible: its digits are digits of the
radix, there are not more of them than the rules allow, and an exponent has at
most four decimal digits.  The text of a legible entry is a well-formed
numeral, so that an accepted number is never thrown away when typing ends.

**Results.**
* `Legible.accepted`: accepted keys keep an entry legible.
* `Legible.isValid_text`: the text of a legible entry is a numeral.
-/

namespace DeskCalculator

/-! ### Exponents -/

/-- An exponent as it is shown behind its mark. -/
def EntryExponent.shown (x : EntryExponent) : List Char :=
  (if x.negative then '-' else '+') :: if x.digits = [] then ['0'] else x.digits

/-- The sign and the digits of an exponent are shown, a zero if there are no digits yet. -/
theorem EntryExponent.exists_shown
    {x : EntryExponent} (hdigits : DigitsOf 10 x.digits)
    (hlen : x.digits.length ≤ Entry.maxExponentDigits) :
    ∃ sign shown, x.shown = sign ++ shown ∧ DecimalLiteral.SignText sign x.negative ∧
      1 ≤ shown.length ∧ shown.length ≤ Entry.maxExponentDigits ∧ DigitsOf 10 shown ∧
      natOf 10 shown = natOf 10 x.digits := by
  have hsign : DecimalLiteral.SignText [if x.negative then '-' else '+'] x.negative := by
    cases x.negative with
    | false => exact .plus
    | true => exact .minus
  refine ⟨_, if x.digits = [] then ['0'] else x.digits, rfl, hsign, ?_⟩
  split
  · rename_i hnil
    have hzero : natOf 10 ['0'] = natOf 10 [] := by decide
    exact ⟨le_rfl, by decide, .singleton_zero (by decide), hnil.symm ▸ hzero⟩
  · rename_i hne
    exact ⟨List.length_pos_iff.mpr hne, hlen, hdigits, rfl⟩

/-! ### Keys -/

/-- The keys with which an unsigned number is typed. -/
inductive EntryKey where
  | digit (d : Nat)
  | point
  | exponent
deriving DecidableEq, Repr

/-- The same key among all the keys of an entry. -/
def EntryKey.stroke (rules : EntryRules) : EntryKey → Keystroke
  | .digit d => .digit rules d
  | .point => .point
  | .exponent => .exponent

/-- Digits are typed under the rules, and exponents are opened in radix ten only. -/
def Keystroke.Under (rules : EntryRules) : Keystroke → Prop
  | .digit rules' _ => rules' = rules
  | .exponent => rules.radix = 10
  | .point | .sign _ | .backspace => True

theorem Keystroke.Under.inRadix
    {rules : EntryRules} {k : Keystroke} (h : k.Under rules) :
    k.InRadix rules.radix := by
  cases k with
  | digit => exact congrArg EntryRules.radix h
  | point => trivial
  | exponent => trivial
  | sign => trivial
  | backspace => trivial

namespace Entry

/-- The entry after a key, if the key is accepted; words have no point and no exponent. -/
def press? (rules : EntryRules) (e : Entry) : EntryKey → Option Entry
  | .digit d => e.typeDigit? rules d
  | .point => if rules.onWords then none else e.typePoint?
  | .exponent => if rules.onWords ∨ rules.radix ≠ 10 then none else e.openExponent?

/-- A key that is pressed and accepted is one of the accepted keys. -/
theorem accepted_of_press?
    {rules : EntryRules} {e e' : Entry} {k : EntryKey} (h : e.press? rules k = some e') :
    Accepted e (k.stroke rules) e' ∧ (k.stroke rules).Under rules := by
  cases k with
  | digit d => exact ⟨accepted_of_typeDigit? h, rfl⟩
  | point =>
      simp only [press?, Option.ite_none_left_eq_some] at h
      exact ⟨accepted_of_strike? (k := .point) h.2, trivial⟩
  | exponent =>
      simp only [press?, Option.ite_none_left_eq_some, not_or, not_not] at h
      exact ⟨accepted_of_strike? (k := .exponent) h.2, h.1.2⟩

/-! ### What is shown -/

/-- The digits shown before the point and those shown behind it. -/
def shownDigits (e : Entry) : List Char × List Char :=
  if e.digits = [] then (['0'], [])
  else
    match e.point with
    | none => (e.digits, [])
    | some index => (e.digits.take index, e.digits.drop index)

theorem shownDigits_append
    (e : Entry) :
    e.shownDigits.1 ++ e.shownDigits.2 = e.digitsOrZero := by
  unfold shownDigits digitsOrZero
  split
  · rfl
  · split
    · exact List.append_nil _
    · exact List.take_append_drop _ _

theorem digitsOrZero_ne_nil
    (e : Entry) :
    e.digitsOrZero ≠ [] := by
  unfold digitsOrZero
  split
  · exact List.cons_ne_nil _ _
  · assumption

/-- The digits are shown with the point between them. -/
theorem mantissaText_shownDigits
    (e : Entry) :
    DecimalLiteral.MantissaText (e.mantissaText ['.']) e.shownDigits.1 e.shownDigits.2 := by
  unfold mantissaText shownDigits
  split
  · exact .whole ['0']
  · cases e.point with
    | none => exact .whole e.digits
    | some index =>
        dsimp only
        rw [List.append_assoc, List.singleton_append]
        exact .pointed _ _

theorem digitsOf_shownDigits
    {radix : Nat} {e : Entry} (hpos : 0 < radix) (h : DigitsOf radix e.digits) :
    DigitsOf radix (e.shownDigits.1 ++ e.shownDigits.2) :=
  e.shownDigits_append ▸ digitsOf_digitsOrZero hpos h

/-! ### Entries within the rules -/

/-- An entry that holds nothing but digits, within the limits of the rules. -/
structure Legible (rules : EntryRules) (e : Entry) : Prop where
  digits : DigitsOf rules.radix e.digits
  count_le : e.digits.length ≤ rules.maxDigits
  exponent : ∀ x ∈ e.exponent,
    rules.radix = 10 ∧ DigitsOf 10 x.digits ∧ x.digits.length ≤ maxExponentDigits

namespace Legible

variable {rules : EntryRules} {e e' : Entry} {k : Keystroke}

theorem empty :
    Legible rules {} where
  digits := by simp [DigitsOf]
  count_le := by simp
  exponent := by simp

theorem digital
    (h : Legible rules e) :
    Digital rules.radix e where
  digits := h.digits
  exponent x hx := by
    obtain ⟨hten, hdigits, hlen⟩ := h.exponent x hx
    exact ⟨hten ▸ hdigits, hlen⟩

/-- A zero put before nothing is within the limit. -/
theorem length_digitsOrZero_le
    (h : Legible rules e) (hmax : 0 < rules.maxDigits) :
    e.digitsOrZero.length ≤ rules.maxDigits := by
  unfold digitsOrZero
  split
  · exact hmax
  · exact h.count_le

/-- An accepted key leaves no more digits than the rules allow. -/
theorem count_le_accepted
    (h : Legible rules e) (hmax : 0 < rules.maxDigits) (hk : k.Under rules)
    (haccepted : Accepted e k e') :
    e'.digits.length ≤ rules.maxDigits := by
  cases haccepted with
  | @mantissaDigit rules' _ _ _ hroom =>
      obtain rfl : rules' = rules := hk
      cases hzero : e.isLoneZero with
      | true => simpa using Nat.succ_le_of_lt hmax
      | false =>
          have hlimit : digitLimit rules' ≤ rules'.maxDigits := by
            unfold digitLimit
            split <;> omega
          have hlt := hroom.resolve_left (by simp [hzero])
          simp only [Bool.false_eq_true, if_false, List.length_append, List.length_singleton]
          omega
  | exponentDigit => exact h.count_le
  | point => exact h.length_digitsOrZero_le hmax
  | exponent => exact h.length_digitsOrZero_le hmax
  | sign => exact h.count_le
  | exponentSign => exact h.count_le
  | dropDigit => exact (List.dropLast_sublist _).length_le.trans h.count_le
  | dropPoint => exact h.count_le
  | dropExponentDigit => exact h.count_le
  | closeExponent => exact h.count_le

/-- Accepted keys keep an entry legible. -/
theorem accepted
    (h : Legible rules e) (hradix : 0 < rules.radix) (hmax : 0 < rules.maxDigits)
    (haccepted : Accepted e k e') (hk : k.Under rules) :
    Legible rules e' where
  digits := (h.digital.accepted hradix hk.inRadix haccepted).digits
  count_le := h.count_le_accepted hmax hk haccepted
  exponent y hy := by
    have hten : rules.radix = 10 := by
      by_contra hne
      have hx : e.exponent = none := by
        rw [Option.eq_none_iff_forall_not_mem]
        exact fun x hx => hne (h.exponent x hx).1
      have hexponent : k ≠ .exponent := by
        rintro rfl
        exact hne hk
      cases (haccepted.exponent_eq_none hx hexponent).symm.trans hy
    have hdigits := (h.digital.accepted hradix hk.inRadix haccepted).exponent y hy
    exact ⟨hten, hten ▸ hdigits⟩

/-! ### Text -/

/-- What is shown of the exponent is one within the limit. -/
theorem exponentPart
    (h : Legible rules e) :
    Numeral.ExponentPart maxExponentDigits rules.radix (exponentText e.exponent) := by
  cases hx : e.exponent with
  | none => exact .absent
  | some x =>
      obtain ⟨hten, hdigits, hlen⟩ := h.exponent x hx
      obtain ⟨sign, shown, htext, hsign, hone, hle, hshown, -⟩ := x.exists_shown hdigits hlen
      have hmarked : exponentText (some x) = 'e' :: (sign ++ shown) := congrArg ('e' :: ·) htext
      rw [hmarked]
      exact .marked hten (.inl rfl) hsign hone hle hshown

/-- The text of a legible entry is a numeral within the limits. -/
theorem isValid_text
    (h : Legible rules e) (hpos : 0 < rules.radix) (hradix : rules.radix ≤ 16)
    (hmax : 0 < rules.maxDigits) :
    Numeral.isValid (e.text ['.']) maxExponentDigits rules.maxDigits rules.radix = true := by
  have hreadable := (digitsOf_shownDigits hpos h.digits).readable hradix
  have hone : 1 ≤ (e.shownDigits.1 ++ e.shownDigits.2).length :=
    e.shownDigits_append ▸ List.length_pos_iff.mpr e.digitsOrZero_ne_nil
  have hle : (e.shownDigits.1 ++ e.shownDigits.2).length ≤ rules.maxDigits :=
    e.shownDigits_append ▸ h.length_digitsOrZero_le hmax
  rw [Numeral.isValid_iff, text, List.append_assoc]
  exact .numeral e.negative e.mantissaText_shownDigits hreadable hone hle h.exponentPart

end Legible
end Entry
end DeskCalculator
