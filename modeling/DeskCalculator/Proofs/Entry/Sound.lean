import DeskCalculator.Proofs.Entry.Legible
import DeskCalculator.Proofs.Magnitude.Digits

/-!
# The point of a number being typed stays among its digits

A point is put behind the digits typed so far, and a key that takes digits away
takes the point first.  So the point of an entry never lies beyond its digits,
and the digits before and after it can be cut off.

**Results.**
* `Sound.accepted`: accepted keys keep an entry sound.
* `Sound.readable`: the digits of a sound entry can be read.
-/

namespace DeskCalculator
namespace Entry

/-- A legible entry with its point, if there is one, among its digits. -/
structure Sound (rules : EntryRules) (e : Entry) : Prop extends Legible rules e where
  point_le : ∀ index ∈ e.point, index ≤ e.digits.length

namespace Sound

variable {rules : EntryRules} {e e' : Entry} {k : Keystroke}

theorem empty :
    Sound rules {} where
  toLegible := .empty
  point_le := by simp

/-- Accepted keys keep an entry sound. -/
theorem accepted
    (h : Sound rules e) (hradix : 0 < rules.radix) (hmax : 0 < rules.maxDigits)
    (haccepted : Accepted e k e') (hk : k.Under rules) :
    Sound rules e' where
  toLegible := h.toLegible.accepted hradix hmax haccepted hk
  point_le := haccepted.point_le h.point_le

/-! ### Value -/

/-- The digits of a mantissa and those of an exponent can be read. -/
theorem readable
    (h : Sound rules e) (hpos : 0 < rules.radix) (hradix : rules.radix ≤ 16) :
    (∃ m, ScaledNumber.ofDigits? e.digits rules.radix = some m) ∧
      ∃ z, e.exponentValue? rules.radix = some z := by
  constructor
  · have hread := Magnitude.ofDigits?_eq hpos hradix (h.digits.readable hradix)
    exact ⟨_, congrArg (Option.map _) hread⟩
  · unfold exponentValue?
    split
    · exact ⟨0, rfl⟩
    · rename_i x hx
      obtain ⟨hten, hdigits, -⟩ := h.exponent x hx
      rw [← hten] at hdigits
      rw [Magnitude.ofDigits?_eq hpos hradix (hdigits.readable hradix)]
      exact ⟨_, rfl⟩

end Sound
end Entry
end DeskCalculator
