import DeskCalculator.Proofs.ScaledNumber.Arithmetic

/-!
# The ring of scaled numbers

A scaled number is only ever made from integers, digits or parts, changed in one
part, or computed from others.  Each of these ways gives the canonical form, so
that the fields of a number are determined by its value: equality of numbers is
equality of values, and they are added, multiplied and compared as values.

**Results.**
* `Built.canonical`: every number that can be made is canonical.
* `built_exact`: the operations on such numbers are those of the rational numbers.
-/

namespace DeskCalculator
namespace ScaledNumber

/-- The numbers that constructors, changes of one part and operations make. -/
inductive Built : ScaledNumber → Prop
  | ofInt (n : Int) : Built (ofInt n)
  | ofNat (n : Nat) : Built (ofNat n)
  | ofParts (negative : Bool) (e : Int) (m : Magnitude) : Built (ofParts negative e m)
  | ofDigits {digits : List Char} {radix : Nat} {x : ScaledNumber}
      (h : ofDigits? digits radix = some x) : Built x
  | withSign {x : ScaledNumber} (hx : Built x) (s : Sign) : Built (x.withSign s)
  | withExponent {x : ScaledNumber} (hx : Built x) (e : Int) : Built (x.withExponent e)
  | withMantissa {x : ScaledNumber} (hx : Built x) (m : Magnitude) : Built (x.withMantissa m)
  | add {x y : ScaledNumber} (hx : Built x) (hy : Built y) : Built (x + y)
  | sub {x y : ScaledNumber} (hx : Built x) (hy : Built y) : Built (x - y)
  | mul {x y : ScaledNumber} (hx : Built x) (hy : Built y) : Built (x * y)
  | pow {x : ScaledNumber} (hx : Built x) (n : Nat) : Built (x.pow n)
  | neg {x : ScaledNumber} (hx : Built x) : Built x.neg
  | abs {x : ScaledNumber} (hx : Built x) : Built x.abs

variable {x y : ScaledNumber}

/-! ### Changes of one part -/

/-- A sign that is not zero is given to a mantissa that is not zero only. -/
theorem Canonical.withSign
    (hx : Canonical x) (s : Sign) :
    Canonical (x.withSign s) := by
  unfold ScaledNumber.withSign
  split
  · exact hx
  · rename_i h
    rw [not_or] at h
    rcases hx with rfl | ⟨_, hrest⟩
    · exact absurd rfl h.1
    · exact Or.inr ⟨h.2, hrest⟩

/-- The canonical form does not depend on the exponent of a number that is not zero. -/
theorem Canonical.withExponent
    (hx : Canonical x) (e : Int) :
    Canonical (x.withExponent e) := by
  unfold ScaledNumber.withExponent
  split
  · exact hx
  · rename_i h
    rcases hx with rfl | hparts
    · exact absurd rfl h
    · exact Or.inr hparts

/-- Whatever way a number is made, it is canonical. -/
theorem Built.canonical
    (hx : Built x) :
    Canonical x := by
  induction hx with
  | ofInt n => exact canonical_ofInt n
  | ofNat n => exact canonical_ofNat n
  | ofParts negative e m => exact canonical_ofParts negative e m
  | ofDigits h =>
      obtain ⟨m, _, rfl⟩ := Option.map_eq_some_iff.mp h
      exact canonical_ofParts false 0 m
  | withSign _ s ih => exact ih.withSign s
  | withExponent _ e ih => exact ih.withExponent e
  | withMantissa _ m _ => exact canonical_ofParts _ _ m
  | add _ _ ihx ihy => exact ihx.add ihy
  | sub _ _ ihx ihy => exact ihx.sub ihy
  | mul _ _ ihx ihy => exact ihx.mul ihy
  | pow _ n ih => exact ih.pow n
  | neg _ ih => exact ih.neg
  | abs _ ih => exact ih.abs

/-! ### Operations as on values -/

/-- Structures are equal if their values are. -/
theorem Canonical.eq_iff
    (hx : Canonical x) (hy : Canonical y) :
    x = y ↔ x.toRat = y.toRat :=
  ⟨fun h => by rw [h], hx.eq_of_toRat_eq hy⟩

/-- Two canonical numbers, on which operations and order are those of their values. -/
structure ExactOn (x y : ScaledNumber) : Prop where
  canonical_left : Canonical x
  canonical_right : Canonical y
  add : (x + y).toRat = x.toRat + y.toRat
  sub : (x - y).toRat = x.toRat - y.toRat
  mul : (x * y).toRat = x.toRat * y.toRat
  pow : ∀ n, (x.pow n).toRat = x.toRat ^ n
  neg : x.neg.toRat = -x.toRat
  abs : x.abs.toRat = |x.toRat|
  eq_iff : x = y ↔ x.toRat = y.toRat
  compare : x.compare y = cmp x.toRat y.toRat

/--
Numbers that constructors, changes and operations have made are canonical; the
ring operations are exact, equality is that of the values, and so is the order.
-/
theorem built_exact
    (hx : Built x) (hy : Built y) :
    ExactOn x y := by
  have hcx := hx.canonical
  have hcy := hy.canonical
  constructor
  case canonical_left => exact hcx
  case canonical_right => exact hcy
  case add => exact toRat_add hcx hcy
  case sub => exact toRat_sub hcx hcy
  case mul => exact toRat_mul hcx hcy
  case pow => exact toRat_pow hcx
  case neg => exact toRat_neg x
  case abs => exact toRat_abs hcx
  case eq_iff => exact hcx.eq_iff hcy
  case compare => exact compare_eq hcx hcy

/-- The low limb cancels in a sum of two exponents, and the exponent of the sum rises. -/
theorem built_sum_cancelled :
    Built ((ofParts false 0 [0, 1, 7]).withExponent (-2)) ∧ Built (ofParts true (-2) [1]) ∧
      ExactOn ((ofParts false 0 [0, 1, 7]).withExponent (-2)) (ofParts true (-2) [1]) ∧
      (ofParts false 0 [0, 1, 7]).withExponent (-2) + ofParts true (-2) [1] =
        ⟨.positive, -1, [7]⟩ := by
  have hx : Built ((ofParts false 0 [0, 1, 7]).withExponent (-2)) :=
    .withExponent (.ofParts _ _ _) _
  have hy : Built (ofParts true (-2) [1]) := .ofParts _ _ _
  exact ⟨hx, hy, built_exact hx hy, by decide +kernel⟩

end ScaledNumber
end DeskCalculator
