import DeskCalculator.Proofs.Magnitude.Digits
import DeskCalculator.Proofs.Magnitude.Division

/-!
# Checked operations on magnitudes

Some operations have a domain: a divisor must not be zero, and what is taken
away must not be above what it is taken from.  Outside of it the functions of
this library give some value; a *checked* function gives `none`, and so does
every checked function that uses its result.  That a checked function gives
`some` of the value of the plain one says that all operations on the way stayed
within their domains.

**Domains.**
* `checkedDivModLimb`, `checkedDivMod`: a divisor that is not zero.
* `checkedSub`: a minuend that is not below the subtrahend.

**Results.**
* `checkedGcd_eq`, `checkedToDigits_eq`: greatest common divisors and digit
  strings divide by nothing but what is not zero.
-/

namespace DeskCalculator
namespace Magnitude

/-! ### Domains -/

/-- Division by a limb, for a limb that is not zero. -/
def checkedDivModLimb (a : Magnitude) (d : UInt32) : Option (Magnitude × UInt32) :=
  if d = 0 then none else some (divModLimb a d)

/-- Division, for a divisor that is not zero. -/
def checkedDivMod (a b : Magnitude) : Option (Magnitude × Magnitude) :=
  if b = [] then none
  else if compare a b = .lt then some ([], a)
  else
    match b with
    | [d] => (checkedDivModLimb a d).map fun (q, r) => (q, push r [])
    | _ => some (longDiv a b)

/-- Difference, for a minuend that is not below the subtrahend. -/
def checkedSub (a b : Magnitude) : Option Magnitude :=
  if compare a b = .lt then none else some (sub a b)

variable {a b : Magnitude}

theorem checkedDivModLimb_eq
    (a : Magnitude) {d : UInt32} (hd : d ≠ 0) :
    checkedDivModLimb a d = some (divModLimb a d) :=
  if_neg hd

theorem checkedDivMod_eq
    (a : Magnitude) (hb : Normalized b) (hne : b ≠ []) :
    checkedDivMod a b = some (divMod a b) := by
  unfold checkedDivMod divMod
  rw [if_neg hne]
  by_cases hlt : compare a b = .lt
  · rw [if_pos hlt, if_pos (Or.inr hlt)]
  · rw [if_neg hlt, if_neg (not_or.mpr ⟨hne, hlt⟩)]
    rcases b with - | ⟨d, - | ⟨d', ds⟩⟩
    · exact absurd rfl hne
    · have hd : d ≠ 0 := (normalized_cons_iff.mp hb).2 rfl
      simp only [checkedDivModLimb_eq a hd, Option.map_some]
    · rfl

theorem checkedSub_eq
    (h : compare a b ≠ .lt) :
    checkedSub a b = some (sub a b) :=
  if_neg h

/-! ### Greatest common divisors -/

/-- The greatest common divisor, by checked divisions. -/
def checkedGcd (a b : Magnitude) : Option Magnitude :=
  if b = [] then some a
  else
    match checkedDivMod a b with
    | none => none
    | some (_, r) => if _h : compare r b = .lt then checkedGcd b r else some b
termination_by (b.length, b.toNat)
decreasing_by exact lex_lt_of_compare_eq_lt _h

/-- The successive remainders are divided by only as long as they are not zero. -/
theorem checkedGcd_eq
    (ha : Normalized a) (hb : Normalized b) :
    checkedGcd a b = some (gcd a b) := by
  induction a, b using gcd.induct with
  | case1 a =>
      rw [checkedGcd, gcd]
      simp
  | case2 a b hne r hlt ih =>
      have hrest : compare (divMod a b).2 b = .lt := hlt
      rw [checkedGcd, gcd, if_neg hne, if_neg hne, checkedDivMod_eq a hb hne]
      simp only [dif_pos hrest]
      exact ih hb (normalized_divMod_snd ha hb)
  | case3 a b hne r hlt =>
      have hrest : ¬compare (divMod a b).2 b = .lt := hlt
      rw [checkedGcd, gcd, if_neg hne, if_neg hne, checkedDivMod_eq a hb hne]
      simp only [dif_neg hrest]

/-! ### Digit strings -/

/-- The digits of a magnitude before `acc`, by checked divisions. -/
def checkedPrependDigits (radix : Nat) (a : Magnitude) (acc : List Char) :
    Option (List Char) :=
  if a = [] then some acc
  else
    match checkedDivModLimb a (UInt32.ofNat (radix ^ blockLength radix)) with
    | none => none
    | some (q, r) =>
        let acc' := prependBlock radix (!q.isEmpty) (blockLength radix) r.toNat acc
        if _h : compare q a = .lt then checkedPrependDigits radix q acc' else some acc'
termination_by (a.length, a.toNat)
decreasing_by exact lex_lt_of_compare_eq_lt _h

/-- The digits of a magnitude, by checked divisions. -/
def checkedToDigits (a : Magnitude) (radix : Nat) : Option (List Char) :=
  if a = [] then some ['0'] else checkedPrependDigits radix a []

variable {radix : Nat}

theorem checkedPrependDigits_eq
    (htwo : 2 ≤ radix) (hradix : radix ≤ 16) (a : Magnitude) (acc : List Char) :
    checkedPrependDigits radix a acc = some (prependDigits radix a acc) := by
  have hne := (blockDivisor_spec htwo hradix).2
  fun_induction prependDigits radix a acc with
  | case1 acc =>
      rw [checkedPrependDigits, if_pos rfl]
  | case2 a acc hnil q r hdiv acc' hlt ih =>
      rw [checkedPrependDigits, if_neg hnil, checkedDivModLimb_eq a hne]
      simp only [hdiv, dif_pos hlt]
      exact ih
  | case3 a acc hnil q r hdiv acc' hlt =>
      rw [checkedPrependDigits, if_neg hnil, checkedDivModLimb_eq a hne]
      simp only [hdiv, dif_neg hlt]
      rfl

/-- The blocks of a digit string are cut off by a divisor that is not zero. -/
theorem checkedToDigits_eq
    (htwo : 2 ≤ radix) (hradix : radix ≤ 16) (a : Magnitude) :
    checkedToDigits a radix = some (toDigits a radix) := by
  unfold checkedToDigits toDigits
  split
  · rfl
  · exact checkedPrependDigits_eq htwo hradix a []

end Magnitude
end DeskCalculator
