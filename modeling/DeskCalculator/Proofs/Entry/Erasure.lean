import DeskCalculator.Proofs.Entry.Registers

/-!
# Taking back what was typed

Every accepted backspace takes one stroke away: a digit of the exponent, the
exponent itself, a digit of the mantissa or the point.  A sign is no stroke; it
goes with the exponent, or with the last digit of the mantissa.  A sign that was
given to an entry without digits has nothing that it could go with, and stays.

**Results.**
* `Tidy.backspaced`: what one accepted backspace does.
* `Tidy.backspaces`: what as many backspaces do as there are strokes.
* `operated_backspaces`: where backspaces end, whatever was done before.
* `sampleSign_not_backspaced`: an entry that backspaces do not empty.
-/

namespace DeskCalculator
namespace Entry

variable {e e' : Entry}

/-- Number of strokes that backspaces can take away. -/
def strokes (e : Entry) : Nat :=
  e.digits.length + (if e.point.isSome then 1 else 0) +
    match e.exponent with
    | none => 0
    | some x => x.digits.length + 1

/-- The entry after a number of backspaces. -/
def backspaces (e : Entry) (n : Nat) : Entry := (fun e => e.strike .backspace)^[n] e

/-- What backspaces leave: a sign, if the mantissa has no digit that it goes with. -/
def remainder (e : Entry) : Entry := { negative := e.negative && e.digits.isEmpty }

theorem backspaces_succ
    (h : e.backspace? = some e') (n : Nat) :
    e.backspaces (n + 1) = e'.backspaces n := by
  rw [backspaces, Function.iterate_succ_apply, strike, strike?, h]
  rfl

/-- Without digits an entry is empty but for its sign. -/
theorem Tidy.eq_remainder
    (h : Tidy e) (hnil : e.digits = []) :
    e = e.remainder := by
  have hpoint : e.point = none := by
    refine Option.eq_none_iff_forall_not_mem.mpr fun index hindex => ?_
    have hbounds := h.point_bounds index hindex
    rw [hnil, List.length_nil] at hbounds
    omega
  have hexponent : e.exponent = none :=
    Option.eq_none_iff_forall_not_mem.mpr fun x hx => h.exponent_digits x hx hnil
  obtain ⟨digits, point, negative, exponent⟩ := e
  obtain rfl : digits = [] := hnil
  obtain rfl : point = none := hpoint
  obtain rfl : exponent = none := hexponent
  simp [remainder]

/-- Where a backspace is refused there is no digit. -/
theorem digits_eq_nil_of_backspace?
    (hrefused : e.backspace? = none) :
    e.digits = [] := by
  cases hx : e.exponent with
  | some x =>
      simp only [backspace?, hx] at hrefused
      split at hrefused <;> cases hrefused
  | none =>
      simp only [backspace?, hx] at hrefused
      split at hrefused
      · cases hrefused
      · split at hrefused
        · assumption
        · cases hrefused

/-- An accepted backspace takes one stroke, and backspaces leave the same after it. -/
theorem Accepted.backspaced
    (haccepted : Accepted e .backspace e') :
    e'.strokes + 1 = e.strokes ∧ e'.remainder = e.remainder := by
  cases haccepted with
  | dropDigit hx hpoint hne =>
      have hlength := List.length_pos_iff.mpr hne
      refine ⟨?_, ?_⟩
      · simp only [strokes, hx, List.length_dropLast]
        omega
      · -- a digit was there before, and with the last one the sign goes
        cases e.digits.dropLast <;> simp [remainder, hne]
  | dropPoint hx hpoint => simp [strokes, remainder, hx, hpoint]
  | dropExponentDigit hx hne =>
      have hlength := List.length_pos_iff.mpr hne
      refine ⟨?_, rfl⟩
      simp only [strokes, hx, List.length_dropLast]
      omega
  | closeExponent hx hnil => simp [strokes, remainder, hx, hnil]

/-- As many backspaces as there are strokes are accepted, and then no more. -/
theorem Tidy.backspaces
    (h : Tidy e) :
    (∀ i < e.strokes, (e.backspaces i).backspace?.isSome = true) ∧
      (e.backspaces e.strokes).backspace? = none ∧ e.backspaces e.strokes = e.remainder := by
  induction hn : e.strokes generalizing e with
  | zero =>
      cases hback : e.backspace? with
      | none => exact ⟨by simp, hback, h.eq_remainder (digits_eq_nil_of_backspace? hback)⟩
      | some e' =>
          have hstrokes := (accepted_of_backspace? hback).backspaced.1
          omega
  | succ n ih =>
      cases hback : e.backspace? with
      | none =>
          rw [h.eq_remainder (digits_eq_nil_of_backspace? hback)] at hn
          cases hn
      | some e' =>
          have haccepted := accepted_of_backspace? hback
          obtain ⟨hstrokes, hremainder⟩ := haccepted.backspaced
          obtain ⟨hfirst, hlast, hend⟩ := ih (h.accepted haccepted) (by omega)
          rw [backspaces_succ hback, ← hremainder]
          refine ⟨fun i hi => ?_, hlast, hend⟩
          cases i with
          | zero => exact Option.isSome_of_mem hback
          | succ i =>
              rw [backspaces_succ hback]
              exact hfirst i (by omega)

/-- Backspaces empty a tidy entry unless it is nothing but a sign. -/
theorem Tidy.remainder_eq_empty_iff
    (h : Tidy e) :
    e.remainder = {} ↔ e ≠ { negative := true } := by
  constructor
  · rintro hempty rfl
    cases hempty
  · intro hne
    cases hdigits : e.digits with
    | cons => simp [remainder, hdigits]
    | nil =>
        cases hsign : e.negative with
        | false => simp [remainder, hsign]
        | true =>
            refine absurd (h.eq_remainder hdigits) ?_
            rwa [remainder, hsign, hdigits]

/--
Whatever was done with an entry, a backspace is accepted once for each stroke
that it holds, and then refused.  What is left is the empty entry, unless the
entry was nothing but a sign, which no backspace takes back.
-/
theorem operated_backspaces
    (ops : List EntryOperation) :
    (∀ i < (operated ops).strokes, ((operated ops).backspaces i).backspace?.isSome = true) ∧
      ((operated ops).backspaces (operated ops).strokes).backspace? = none ∧
      ((operated ops).backspaces (operated ops).strokes = {} ↔
        operated ops ≠ { negative := true }) ∧
      (operated ops = { negative := true } → ∀ n, (operated ops).backspaces n = operated ops) := by
  have htidy := operated_tidy ops
  obtain ⟨hfirst, hlast, hend⟩ := htidy.backspaces
  refine ⟨hfirst, hlast, ?_, fun hsign n => ?_⟩
  · rw [hend, htidy.remainder_eq_empty_iff]
  · rw [hsign]
    exact Function.iterate_fixed rfl n

/-- A digit that is taken back, and a sign behind it. -/
def sampleSign : List EntryOperation :=
  [.key (.digit (plainRules 10) 5), .key .backspace, .key (.sign (plainRules 10))]

/-- Nothing is left to take back, but the entry is not the empty one: the next digit is negative. -/
theorem sampleSign_not_backspaced :
    (operated sampleSign).backspace? = none ∧ (∀ n, (operated sampleSign).backspaces n ≠ {}) ∧
      (operated (sampleSign ++ [.key .backspace, .key (.digit (plainRules 10) 7)])).text ['.'] =
        ['-', '7'] := by
  have hsign : operated sampleSign = { negative := true } := by decide
  refine ⟨by decide, fun n => ?_, by decide⟩
  rw [hsign, backspaces, Function.iterate_fixed rfl n]
  decide

end Entry
end DeskCalculator
