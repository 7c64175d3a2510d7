/-!
# Numbers kept in machine words

Exponents, scales and counts are computed as exact integers.  A rule says what
becomes of such a number where it is kept in a word of some width: it is kept as
it is, its low bits are kept, or the computation stops if it does not fit.  An
operation that takes the rule as a parameter is one operation on exact integers,
on words that wrap around and on words that are checked.
-/

namespace DeskCalculator

-- The powers of the core library, whatever else is imported.
attribute [local instance (high)] instPowNat

/-- What a computation with numbers in words may stop with. -/
inductive WordFault where
  /-- A number that does not fit in its word. -/
  | overflow
  /-- A count of limbs below zero, which is none that can be had. -/
  | capacity
  /-- A divisor without an integer part. -/
  | zeroDivisor
deriving DecidableEq, Repr

/-- Whether an integer fits in a signed word. -/
def FitsWord (bits : Nat) (n : Int) : Prop :=
  -2 ^ (bits - 1) ≤ n ∧ n < 2 ^ (bits - 1)

instance (bits : Nat) (n : Int) : Decidable (FitsWord bits n) :=
  inferInstanceAs (Decidable (_ ∧ _))

/-- The signed word with the low bits of an integer. -/
def signedWord (bits : Nat) (n : Int) : Int := n.bmod (2 ^ bits)

/-- What becomes of an exact number that is kept in a word. -/
def WordRule := Int → Except WordFault Int

namespace WordRule

/-- The number itself, in a word as wide as it needs. -/
def exact : WordRule := .ok

/-- The low bits of the number. -/
def wrapped (bits : Nat) : WordRule := fun n => .ok (signedWord bits n)

/-- The number, if it fits. -/
def checked (bits : Nat) : WordRule := fun n =>
  if FitsWord bits n then .ok n else .error .overflow

end WordRule
end DeskCalculator
