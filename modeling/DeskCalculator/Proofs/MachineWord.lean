import DeskCalculator.MachineWord
import Mathlib.Algebra.Order.Ring.Int

/-!
# Runs in words of one width

A computation that takes a rule for its words runs with exact integers, with
words that wrap around and with words that are checked.  As long as no check
fails, all numbers on the way fit, and every rule that keeps the numbers that
fit makes the same run.

So a computation is known in words once it is known on exact integers: a checked
run stops with an overflow, or it is the exact one, and then the wrapped run is
the exact one as well.

**Results.**
* `signedWord_of_fits`: what fits in a word is kept.
* `Follows.bind`: the run of a composed computation, from those of its parts.
* `guarded_of_follows`: the runs in words of a computation with an exact result.
-/

namespace DeskCalculator

/-! ### Words -/

/-- A number that fits in a word is the word with its low bits. -/
theorem signedWord_of_fits
    {bits : Nat} {n : Int} (hbits : 0 < bits) (h : FitsWord bits n) :
    signedWord bits n = n := by
  obtain ⟨hlow, hhigh⟩ := h
  obtain ⟨k, rfl⟩ : ∃ k, bits = k + 1 := ⟨bits - 1, by omega⟩
  simp only [Nat.add_sub_cancel] at hlow hhigh
  refine Int.bmod_eq_of_le_mul_two ?_ ?_ <;> push_cast [Int.pow_succ] <;> omega

/-- The low bits of a difference are those of the difference of the low bits. -/
theorem signedWord_sub
    (bits : Nat) (m n : Int) :
    signedWord bits (signedWord bits m - n) = signedWord bits (m - n) :=
  Int.bmod_sub_bmod

/-- A number beyond the words by one turn wraps around once. -/
theorem signedWord_of_fits_sub
    {bits : Nat} {n : Int} (hbits : 0 < bits) (h : FitsWord bits (n - 2 ^ bits)) :
    signedWord bits n = n - 2 ^ bits := by
  have hturn := Int.sub_bmod_right n (2 ^ bits)
  push_cast at hturn
  rw [← signedWord_of_fits hbits h, signedWord, signedWord, hturn]

/-- The word read from a count is not above it. -/
theorem signedWord_natCast_le
    (bits n : Nat) :
    signedWord bits n ≤ n := by
  have hmod : ((n % 2 ^ bits : Nat) : Int) ≤ n := by exact_mod_cast Nat.mod_le n _
  unfold signedWord Int.bmod
  push_cast at hmod ⊢
  split <;> omega

/-! ### Runs that agree until one stops -/

section

variable {α β : Type} {p q : Except WordFault α} {bits : Nat} {keep : WordRule}

/-- The first run stops with an overflow, or it is the second. -/
def Follows (p q : Except WordFault α) : Prop :=
  p = .error .overflow ∨ p = q

namespace Follows

theorem refl
    (p : Except WordFault α) :
    Follows p p :=
  .inr rfl

/-- The first overflow stops the whole run, so that later parts agree if earlier ones do. -/
theorem bind
    {f g : α → Except WordFault β} (h : Follows p q) (hrest : ∀ a, Follows (f a) (g a)) :
    Follows (p >>= f) (q >>= g) := by
  obtain rfl | rfl := h
  · exact .inl rfl
  · cases p with
    | error fault => exact .refl _
    | ok a => exact hrest a

theorem map
    (h : Follows p q) (f : α → β) :
    Follows (p.map f) (q.map f) := by
  obtain rfl | rfl := h
  · exact .inl rfl
  · exact .refl _

theorem ite
    {c : Prop} [Decidable c] {p' q' : Except WordFault α} (h : Follows p q)
    (h' : Follows p' q') :
    Follows (if c then p else p') (if c then q else q') := by
  split
  · exact h
  · exact h'

end Follows

/-- A run with a result does not stop. -/
theorem ne_overflow_of_eq_ok
    {a : α} (h : p = .ok a) :
    p ≠ .error .overflow := by
  rw [h]
  exact nofun

/-! ### Rules that keep what is in a range -/

/-- A rule that changes no number in a range. -/
def WordRule.Keeps (range : Int → Prop) (keep : WordRule) : Prop :=
  ∀ n, range n → keep n = .ok n

theorem keeps_exact
    (range : Int → Prop) :
    WordRule.exact.Keeps range :=
  fun _ _ => rfl

theorem keeps_wrapped
    (hbits : 0 < bits) :
    (WordRule.wrapped bits).Keeps (FitsWord bits) :=
  fun _ h => congrArg Except.ok (signedWord_of_fits hbits h)

theorem keeps_checked
    (bits : Nat) :
    (WordRule.checked bits).Keeps (FitsWord bits) :=
  fun _ h => if_pos h

/-- A check passes if the number fits, and every rule keeps it then. -/
theorem WordRule.Keeps.follows
    (hkeep : keep.Keeps (FitsWord bits)) (n : Int) :
    Follows (WordRule.checked bits n) (keep n) := by
  unfold WordRule.checked
  split
  · rename_i h
    exact .inr (hkeep n h).symm
  · exact .inl rfl

/-- A check fails if the number does not fit. -/
theorem checked_eq_overflow
    {n : Int} (h : ¬FitsWord bits n) :
    WordRule.checked bits n = .error .overflow :=
  if_neg h

/-! ### Runs with an exact result -/

/-- In words of `bits` bits the run that is checked and the one that wraps around give a result. -/
def Runs (bits : Nat) (run : WordRule → Except WordFault α) (a : α) : Prop :=
  run (.checked bits) = .ok a ∧ run (.wrapped bits) = .ok a

/-- In words of `bits` bits a check fails, or both runs give a result. -/
def Guarded (bits : Nat) (run : WordRule → Except WordFault α) (a : α) : Prop :=
  run (.checked bits) = .error .overflow ∨ Runs bits run a

/-- What every rule gives that keeps the words is given in words. -/
theorem runs_of_keeps
    {run : WordRule → Except WordFault α} {a : α} (hbits : 0 < bits)
    (h : ∀ keep : WordRule, keep.Keeps (FitsWord bits) → run keep = .ok a) :
    Runs bits run a :=
  ⟨h _ (keeps_checked bits), h _ (keeps_wrapped hbits)⟩

/-- A run that follows every rule is guarded by its exact result. -/
theorem guarded_of_follows
    {run : WordRule → Except WordFault α} {a : α} (hbits : 0 < bits)
    (hfollows : ∀ keep : WordRule, keep.Keeps (FitsWord bits) →
      Follows (run (.checked bits)) (run keep))
    (hexact : run .exact = .ok a) :
    Guarded bits run a := by
  obtain hstop | heq := hfollows .exact (keeps_exact _)
  · exact .inl hstop
  · have hok : run (.checked bits) = .ok a := heq.trans hexact
    refine .inr ⟨hok, ?_⟩
    obtain hstop | hwrapped := hfollows (.wrapped bits) (keeps_wrapped hbits)
    · rw [hok] at hstop
      cases hstop
    · rw [← hwrapped, hok]

/-- A run whose checks pass gives its result. -/
theorem Guarded.runs
    {run : WordRule → Except WordFault α} {a : α} (h : Guarded bits run a)
    (hno : run (.checked bits) ≠ .error .overflow) :
    Runs bits run a :=
  h.resolve_left hno

end

end DeskCalculator
