import DeskCalculator.Magnitude.Division
import DeskCalculator.Power

/-!
# Digit strings

Magnitudes in a radix from 2 to 16, most significant digit first.  Digits from
ten on are the letters `A` to `F`; small letters are read as well.

**Writing.**  The magnitude is divided by the largest power of the radix that
is a limb.  Each remainder is one block of digits; blocks below the top one are
padded with zeros.

**Reading.**  One multiplication by the radix and one carry per digit.
-/

namespace DeskCalculator

-- The powers of the core library, whatever else is imported.
attribute [local instance (high)] instPowNat

/-- The digit of a value below sixteen. -/
def digitChar (d : Nat) : Char :=
  if d < 10 then Char.ofNat ('0'.toNat + d) else Char.ofNat ('A'.toNat + (d - 10))

/-- The value of a hexadecimal digit, in capitals or not. -/
def digitValue? (c : Char) : Option Nat :=
  if '0' ≤ c ∧ c ≤ '9' then some (c.toNat - '0'.toNat)
  else if 'a' ≤ c ∧ c ≤ 'f' then some (c.toNat - 'a'.toNat + 10)
  else if 'A' ≤ c ∧ c ≤ 'F' then some (c.toNat - 'A'.toNat + 10)
  else none

/-- The value of a digit of the given radix. -/
def radixDigit? (radix : Nat) (c : Char) : Option Nat :=
  (digitValue? c).filter (· < radix)

namespace Magnitude

/-- Number of digits of a block: the largest `k` with `radix ^ k` below `2 ^ 32`. -/
def blockLength (radix : Nat) : Nat :=
  ((List.range 33).filter fun k => radix ^ k < 2 ^ (32 : Nat)).getLastD 1

/--
Puts the digits of `r` before `acc`: exactly `k` of them if the block is padded,
otherwise as many as `r` has, up to `k`.
-/
def prependBlock (radix : Nat) (padded : Bool) : Nat → Nat → List Char → List Char
  | 0, _, acc => acc
  | k + 1, r, acc =>
      if r = 0 ∧ padded = false then acc
      else prependBlock radix padded k (r / radix) (digitChar (r % radix) :: acc)

/-- Puts the digits of `a` before `acc`, block by block; nothing for zero. -/
def prependDigits (radix : Nat) (a : Magnitude) (acc : List Char) : List Char :=
  if a = [] then acc
  else
    let (q, r) := divModLimb a (UInt32.ofNat (radix ^ blockLength radix))
    let acc' := prependBlock radix (!q.isEmpty) (blockLength radix) r.toNat acc
    if _h : compare q a = .lt then prependDigits radix q acc' else acc'
termination_by (a.length, a.toNat)
decreasing_by exact lex_lt_of_compare_eq_lt _h

/-- The digits of a magnitude, `0` for zero. -/
def toDigits (a : Magnitude) (radix : Nat) : List Char :=
  if a = [] then ['0'] else prependDigits radix a []

/-- Reads digits on from the magnitude `a`. -/
def readDigits? (radix : Nat) : Magnitude → List Char → Option Magnitude
  | a, [] => some a
  | a, c :: cs =>
      match radixDigit? radix c with
      | none => none
      | some d => readDigits? radix (mulLimbWithCarry (UInt64.ofNat radix) a (UInt64.ofNat d)) cs

/-- The magnitude of a digit string, if all its characters are digits of the radix. -/
def ofDigits? (digits : List Char) (radix : Nat) : Option Magnitude :=
  readDigits? radix [] digits

/-- The `n`-th power of a number that is a limb. -/
def radixPow (radix n : Nat) : Magnitude :=
  mulPow mul [1] (ofNat radix) n

end Magnitude
end DeskCalculator
