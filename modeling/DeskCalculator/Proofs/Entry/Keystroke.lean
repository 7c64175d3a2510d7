import DeskCalculator.Entry
import DeskCalculator.Proofs.Numeral.Order

/-!
# Entries key by key

Every entry is made from the empty one by digit, point, exponent, sign and
backspace keys, in any order and under any rules; a key that is refused changes
nothing.  `Accepted` says what a key can do that is not refused, so that what
holds of all entries is shown one case at a time.

**Results.**
* `accepted_of_strike?`: an accepted key does one of ten things.
* `typed_invariant`: what every accepted key keeps holds of every entry typed.
* `typed_digital`: an entry holds nothing but digits of its radix.
* `typed_exponent_eq_none`: without the exponent key there is no exponent.
* `Accepted.point_le`: the point stays among the digits.
-/

namespace DeskCalculator

/-- The keys of an entry, with the rules of the mode where they matter. -/
inductive Keystroke where
  | digit (rules : EntryRules) (d : Nat)
  | point
  | exponent
  | sign (rules : EntryRules)
  | backspace
deriving Repr

/-- A digit key is one of the radix. -/
def Keystroke.InRadix (radix : Nat) : Keystroke → Prop
  | .digit rules _ => rules.radix = radix
  | .point | .exponent | .sign _ | .backspace => True

namespace Entry

/-- The entry after a key, if the key is accepted. -/
def strike? (e : Entry) : Keystroke → Option Entry
  | .digit rules d => e.typeDigit? rules d
  | .point => e.typePoint?
  | .exponent => e.openExponent?
  | .sign rules => e.toggleSign? rules
  | .backspace => e.backspace?

/-- The entry after a key; one that is refused leaves it as it was. -/
def strike (e : Entry) (k : Keystroke) : Entry := (e.strike? k).getD e

/-- The entry that keys make of an empty one. -/
def typed (keys : List Keystroke) : Entry := keys.foldl strike {}

variable {e e' : Entry} {k : Keystroke}

/-! ### What an accepted key does -/

/-- The ways in which a key changes an entry. -/
inductive Accepted (e : Entry) : Keystroke → Entry → Prop
  | mantissaDigit
      {rules : EntryRules} {d : Nat} (hd : d < rules.radix) (hx : e.exponent = none)
      (hroom : e.isLoneZero = true ∨ e.digits.length < digitLimit rules)
      (hfits : rules.onWords = true →
        fitsWord rules ((if e.isLoneZero then [] else e.digits) ++ [digitChar d]) = true) :
      Accepted e (.digit rules d)
        { e with digits := (if e.isLoneZero then [] else e.digits) ++ [digitChar d] }
  | exponentDigit
      {rules : EntryRules} {d : Nat} {x : EntryExponent} (hd : d < rules.radix)
      (hx : e.exponent = some x) (hroom : x.digits.length < maxExponentDigits) :
      Accepted e (.digit rules d)
        { e with
          exponent := some { x with
            digits := (if x.digits = ['0'] then [] else x.digits) ++ [digitChar d] } }
  | point
      (hx : e.exponent = none) (hpoint : e.point = none) :
      Accepted e .point
        { e with digits := e.digitsOrZero, point := some e.digitsOrZero.length }
  | exponent
      (hx : e.exponent = none) :
      Accepted e .exponent { e with digits := e.digitsOrZero, exponent := some {} }
  | sign
      {rules : EntryRules} (hx : e.exponent = none)
      (hfits : rules.onWords = true → fitsWord rules e.digits = true) :
      Accepted e (.sign rules) { e with negative := !e.negative }
  | exponentSign
      {rules : EntryRules} {x : EntryExponent} (hx : e.exponent = some x) :
      Accepted e (.sign rules)
        { e with exponent := some { x with negative := !x.negative } }
  | dropDigit
      (hx : e.exponent = none) (hpoint : e.point ≠ some e.digits.length)
      (hne : e.digits ≠ []) :
      Accepted e .backspace
        { e with
          digits := e.digits.dropLast
          negative := e.negative && e.digits.dropLast ≠ [] }
  | dropPoint
      (hx : e.exponent = none) (hpoint : e.point = some e.digits.length) :
      Accepted e .backspace { e with point := none }
  | dropExponentDigit
      {x : EntryExponent} (hx : e.exponent = some x) (hne : x.digits ≠ []) :
      Accepted e .backspace
        { e with exponent := some { x with digits := x.digits.dropLast } }
  | closeExponent
      {x : EntryExponent} (hx : e.exponent = some x) (hnil : x.digits = []) :
      Accepted e .backspace { e with exponent := none }

theorem accepted_of_typeDigit?
    {rules : EntryRules} {d : Nat} (h : e.typeDigit? rules d = some e') :
    Accepted e (.digit rules d) e' := by
  simp only [typeDigit?, Option.ite_none_left_eq_some, not_le] at h
  obtain ⟨hd, h⟩ := h
  split at h
  · rename_i x hx
    simp only [typeExponentDigit?, Option.map_eq_some_iff, Option.ite_none_left_eq_some,
      Option.some.injEq, not_le] at h
    obtain ⟨_, ⟨hroom, rfl⟩, rfl⟩ := h
    exact .exponentDigit hd hx hroom
  · rename_i hx
    simp only [typeMantissaDigit?, Option.ite_none_left_eq_some, Option.some.injEq] at h
    obtain ⟨hroom, hfits, rfl⟩ := h
    refine .mantissaDigit hd hx ?_ ?_
    · cases hzero : e.isLoneZero with
      | true => exact Or.inl rfl
      | false => exact Or.inr (by simpa [hzero] using hroom)
    · intro hwords
      simpa [hwords] using hfits

theorem accepted_of_backspace?
    (h : e.backspace? = some e') :
    Accepted e .backspace e' := by
  unfold backspace? at h
  split at h
  · rename_i x hx
    split at h
    · rename_i hnil
      cases h
      exact .closeExponent hx hnil
    · rename_i hne
      cases h
      exact .dropExponentDigit hx hne
  · rename_i hx
    split at h
    · rename_i hpoint
      cases h
      exact .dropPoint hx hpoint
    · rename_i hpoint
      split at h
      · cases h
      · rename_i hne
        cases h
        exact .dropDigit hx hpoint hne

/-- A key that is accepted does one of ten things. -/
theorem accepted_of_strike?
    (h : e.strike? k = some e') :
    Accepted e k e' := by
  cases k with
  | digit rules d => exact accepted_of_typeDigit? h
  | point =>
      simp only [strike?, typePoint?, Option.ite_none_left_eq_some, Option.some.injEq,
        Bool.or_eq_true, not_or, Bool.not_eq_true, Option.isSome_eq_false_iff,
        Option.isNone_iff_eq_none] at h
      obtain ⟨⟨hx, hpoint⟩, rfl⟩ := h
      exact .point hx hpoint
  | exponent =>
      simp only [strike?, openExponent?, Option.ite_none_left_eq_some, Option.some.injEq,
        Bool.not_eq_true, Option.isSome_eq_false_iff, Option.isNone_iff_eq_none] at h
      obtain ⟨hx, rfl⟩ := h
      exact .exponent hx
  | sign rules =>
      simp only [strike?, toggleSign?] at h
      split at h
      · rename_i x hx
        cases h
        exact .exponentSign hx
      · rename_i hx
        simp only [Option.ite_none_left_eq_some, Option.some.injEq] at h
        obtain ⟨hfits, rfl⟩ := h
        exact .sign hx fun hwords => by simpa [hwords] using hfits
  | backspace => exact accepted_of_backspace? h

/-- What every accepted key keeps holds of the entry that keys make. -/
theorem typed_invariant
    {P : Entry → Prop} {keys : List Keystroke} (hempty : P {})
    (hkey : ∀ e, P e → ∀ k ∈ keys, ∀ e', Accepted e k e' → P e') :
    P (typed keys) := by
  refine List.foldlRecOn keys strike hempty fun e he k hk => ?_
  cases hstrike : e.strike? k with
  | none => rwa [strike, hstrike]
  | some e' =>
      rw [strike, hstrike]
      exact hkey e he k hk e' (accepted_of_strike? hstrike)

/-! ### Digits -/

/-- Digits of the radix, and a few of them in the exponent. -/
structure Digital (radix : Nat) (e : Entry) : Prop where
  digits : DigitsOf radix e.digits
  exponent : ∀ x ∈ e.exponent,
    DigitsOf radix x.digits ∧ x.digits.length ≤ maxExponentDigits

theorem digitsOf_digitsOrZero
    {radix : Nat} (hpos : 0 < radix) (h : DigitsOf radix e.digits) :
    DigitsOf radix e.digitsOrZero := by
  unfold digitsOrZero
  split
  · exact DigitsOf.singleton_zero hpos
  · exact h

/-- A digit behind those that are kept. -/
theorem digitsOf_kept_concat
    {radix d : Nat} {cs : List Char} (h : DigitsOf radix cs) (hd : d < radix) (p : Prop)
    [Decidable p] :
    DigitsOf radix ((if p then [] else cs) ++ [digitChar d]) := by
  split
  · exact DigitsOf.concat (.nil radix) hd
  · exact h.concat hd

/-- An accepted key leaves nothing but digits. -/
theorem Digital.accepted
    {radix : Nat} (h : Digital radix e) (hpos : 0 < radix) (hk : k.InRadix radix)
    (haccepted : Accepted e k e') :
    Digital radix e' := by
  cases haccepted with
  | mantissaDigit hd hx =>
      exact ⟨digitsOf_kept_concat h.digits (hk ▸ hd) _, h.exponent⟩
  | exponentDigit hd hx hroom =>
      refine ⟨h.digits, ?_⟩
      rintro y ⟨⟩
      refine ⟨digitsOf_kept_concat (h.exponent _ hx).1 (hk ▸ hd) _, ?_⟩
      dsimp only
      split
      · exact Nat.succ_le_of_lt (Nat.succ_pos _)
      · simp only [List.length_append, List.length_singleton]
        omega
  | point hx => exact ⟨digitsOf_digitsOrZero hpos h.digits, h.exponent⟩
  | exponent hx =>
      refine ⟨digitsOf_digitsOrZero hpos h.digits, ?_⟩
      rintro y ⟨⟩
      exact ⟨.nil radix, by simp⟩
  | sign hx => exact ⟨h.digits, h.exponent⟩
  | exponentSign hx =>
      have hold := h.exponent _ hx
      refine ⟨h.digits, ?_⟩
      rintro y ⟨⟩
      exact hold
  | dropDigit hx => exact ⟨h.digits.dropLast, h.exponent⟩
  | dropPoint hx => exact ⟨h.digits, h.exponent⟩
  | dropExponentDigit hx =>
      refine ⟨h.digits, ?_⟩
      rintro y ⟨⟩
      have hlen := (h.exponent _ hx).2
      refine ⟨(h.exponent _ hx).1.dropLast, ?_⟩
      simp only [List.length_dropLast]
      omega
  | closeExponent hx => exact ⟨h.digits, by simp⟩

/-- Whatever is typed in a radix, an entry holds nothing but its digits. -/
theorem typed_digital
    {radix : Nat} (hpos : 0 < radix) {keys : List Keystroke}
    (hkeys : ∀ k ∈ keys, k.InRadix radix) :
    Digital radix (typed keys) :=
  typed_invariant ⟨.nil radix, by simp⟩ fun _ he k hk _ haccepted =>
    he.accepted hpos (hkeys k hk) haccepted

/-! ### The exponent and the point -/

/-- Only its own key opens an exponent. -/
theorem Accepted.exponent_eq_none
    (haccepted : Accepted e k e') (hx : e.exponent = none) (hk : k ≠ .exponent) :
    e'.exponent = none := by
  cases haccepted with
  | mantissaDigit => exact hx
  | exponentDigit _ hopen => cases hx.symm.trans hopen
  | point => exact hx
  | exponent => exact absurd rfl hk
  | sign => exact hx
  | exponentSign hopen => cases hx.symm.trans hopen
  | dropDigit => exact hx
  | dropPoint => exact hx
  | dropExponentDigit hopen => cases hx.symm.trans hopen
  | closeExponent => rfl

/-- Without the exponent key there is no exponent. -/
theorem typed_exponent_eq_none
    {keys : List Keystroke} (hkeys : ∀ k ∈ keys, k ≠ .exponent) :
    (typed keys).exponent = none :=
  typed_invariant (P := (·.exponent = none)) rfl fun _ he k hk _ haccepted =>
    haccepted.exponent_eq_none he (hkeys k hk)

/-- A zero put before nothing does not shorten the digits. -/
theorem length_le_digitsOrZero
    (e : Entry) :
    e.digits.length ≤ e.digitsOrZero.length := by
  unfold digitsOrZero
  split
  · rename_i h
    simp [h]
  · exact le_rfl

/-- A point among the digits stays among them. -/
theorem Accepted.point_le
    (haccepted : Accepted e k e') (h : ∀ index ∈ e.point, index ≤ e.digits.length) :
    ∀ index ∈ e'.point, index ≤ e'.digits.length := by
  cases haccepted with
  | mantissaDigit =>
      intro index hindex
      have hle := h index hindex
      -- a zero that is replaced has no point behind it
      have hzero : e.isLoneZero = false := by
        simp only [isLoneZero, Bool.and_eq_false_iff, Option.isNone_eq_false_iff]
        exact Or.inr (Option.isSome_of_mem hindex)
      simp only [hzero, Bool.false_eq_true, if_false, List.length_append]
      omega
  | exponentDigit => exact h
  | point =>
      rintro index ⟨⟩
      exact le_rfl
  | exponent => exact fun index hindex => (h index hindex).trans (length_le_digitsOrZero e)
  | sign => exact h
  | exponentSign => exact h
  | dropDigit _ hpoint =>
      -- a digit is taken away only if the point does not stand right behind it
      intro index hindex
      have hle := h index hindex
      have hne : index ≠ e.digits.length := by
        rintro rfl
        exact hpoint hindex
      simp only [List.length_dropLast]
      omega
  | dropPoint => simp
  | dropExponentDigit => exact h
  | closeExponent => exact h

end Entry
end DeskCalculator
