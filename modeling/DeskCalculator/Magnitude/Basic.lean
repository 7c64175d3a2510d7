/-!
# Magnitudes: natural numbers as lists of limbs

A magnitude is a list of 32-bit limbs, least significant limb first.  It is
normalized when its last limb is not zero, so that zero is the empty list and
every natural number has exactly one normalized magnitude.

**Operations.**  Sums, differences, products and shifts walk the limbs once per
row.  Every step computes in a 64-bit word that holds the limb written to the
result in its low half and the carry in its high half:

* a sum step adds two limbs and a carry of at most one;
* a difference step adds `2 ^ 32` first, so that nothing goes below zero, and
  a result below `2 ^ 32` means a borrow;
* a product step computes `x * y + a + c` from four numbers below `2 ^ 32`,
  which is at most `2 ^ 64 - 1`.

**View.**  `toNat` is the number a limb list denotes.  Division and digit
strings have modules of their own.
-/

namespace DeskCalculator

-- The powers of the core library, whatever else is imported.
attribute [local instance (high)] instPowNat

/-- A natural number in base `2 ^ 32`, least significant limb first. -/
abbrev Magnitude := List UInt32

namespace Magnitude

/-- Number of values of a limb, as a 64-bit word. -/
def limbBase : UInt64 := 0x100000000

/-- The number a limb list denotes. -/
def toNat : Magnitude → Nat
  | [] => 0
  | x :: xs => x.toNat + 2 ^ (32 : Nat) * toNat xs

/-- A limb list without a zero limb at its high end. -/
def Normalized (a : Magnitude) : Prop :=
  a.getLast? ≠ some 0

instance (a : Magnitude) : Decidable (Normalized a) :=
  inferInstanceAs (Decidable (a.getLast? ≠ some 0))

/-- Puts a limb below a normalized magnitude. -/
def push (x : UInt32) (xs : Magnitude) : Magnitude :=
  if x = 0 ∧ xs = [] then [] else x :: xs

/-- Removes the zero limbs at the high end, one limb after the other. -/
def trim : Magnitude → Magnitude
  | [] => []
  | x :: xs => push x (trim xs)

/-- The normalized magnitude of the same value. -/
def normalize (a : Magnitude) : Magnitude :=
  if Normalized a then a else trim a

/-- The normalized magnitude of a natural number. -/
def ofNat (n : Nat) : Magnitude :=
  if n = 0 then [] else UInt32.ofNat (n % 2 ^ (32 : Nat)) :: ofNat (n / 2 ^ (32 : Nat))
termination_by n
decreasing_by omega

/-- Whether a normalized magnitude is zero. -/
def isZero (a : Magnitude) : Bool :=
  a.isEmpty

/-- The 64 low bits. -/
def lowWord : Magnitude → UInt64
  | [] => 0
  | [x] => x.toUInt64
  | x :: y :: _ => x.toUInt64 + y.toUInt64 * limbBase

/-- The value of a normalized magnitude, if it fits in 64 bits. -/
def toWord? (a : Magnitude) : Option UInt64 :=
  if a.length ≤ 2 then some a.lowWord else none

/-- Number of bits of a limb, leading zeros not counted. -/
def limbBits (x : UInt32) : Nat :=
  if x = 0 then 0 else x.toNat.log2 + 1

/-- Number of bits of a normalized magnitude. -/
def bitLength (a : Magnitude) : Nat :=
  match a.getLast? with
  | none => 0
  | some high => 32 * (a.length - 1) + limbBits high

/-! ### Sums and differences -/

/-- Adds a carry to a magnitude. -/
def addCarry : Magnitude → UInt64 → Magnitude
  | [], c => if c = 0 then [] else [c.toUInt32]
  | x :: xs, c =>
      if c = 0 then x :: xs
      else
        let t := x.toUInt64 + c
        t.toUInt32 :: addCarry xs (t >>> 32)

/-- Adds two magnitudes and a carry. -/
def addWithCarry : Magnitude → Magnitude → UInt64 → Magnitude
  | [], ys, c => addCarry ys c
  | x :: xs, [], c => addCarry (x :: xs) c
  | x :: xs, y :: ys, c =>
      let t := x.toUInt64 + y.toUInt64 + c
      t.toUInt32 :: addWithCarry xs ys (t >>> 32)

/-- Sum of two magnitudes. -/
def add (a b : Magnitude) : Magnitude :=
  addWithCarry a b 0

/-- Sum of a magnitude and a limb. -/
def addLimb (a : Magnitude) (x : UInt32) : Magnitude :=
  addCarry a x.toUInt64

/-- Limbs of `a - b - borrow`, as many as `a` has. -/
def subWithBorrow : Magnitude → Magnitude → UInt64 → Magnitude
  | [], _, _ => []
  | x :: xs, ys, borrow =>
      let t := x.toUInt64 + limbBase - (ys.headD 0).toUInt64 - borrow
      t.toUInt32 :: subWithBorrow xs ys.tail (if t < limbBase then 1 else 0)

/-- Difference of two magnitudes, the first at least the second. -/
def sub (a b : Magnitude) : Magnitude :=
  normalize (subWithBorrow a b 0)

/-! ### Products -/

/-- Limbs of `m * a + c`, without a zero limb on top. -/
def mulLimbWithCarry (m : UInt64) : Magnitude → UInt64 → Magnitude
  | [], c => if c = 0 then [] else [c.toUInt32]
  | x :: xs, c =>
      let t := x.toUInt64 * m + c
      t.toUInt32 :: mulLimbWithCarry m xs (t >>> 32)

/-- Product of a magnitude and a limb. -/
def mulLimb (a : Magnitude) (m : UInt32) : Magnitude :=
  if m = 0 then [] else mulLimbWithCarry m.toUInt64 a 0

/-- Limbs of `m * b + acc + c`, one more than `b` and `acc` have. -/
def mulRow (m : UInt64) : Magnitude → Magnitude → UInt64 → Magnitude
  | y :: ys, a :: acc, c =>
      let t := m * y.toUInt64 + a.toUInt64 + c
      t.toUInt32 :: mulRow m ys acc (t >>> 32)
  | _, _, c => [c.toUInt32]

/--
Limbs of `a * b + acc`, where `acc` has as many limbs as `b`.  Each row settles
one limb of the result and hands the others on.
-/
def mulRows (b : Magnitude) : Magnitude → Magnitude → Magnitude
  | [], acc => acc
  | x :: xs, acc =>
      let row := mulRow x.toUInt64 b acc 0
      row.headD 0 :: mulRows b xs row.tail

/-- Product of two magnitudes, row by row. -/
def mul (a b : Magnitude) : Magnitude :=
  if a = [] ∨ b = [] then [] else normalize (mulRows b a (List.replicate b.length 0))

/-! ### Shifts -/

/-- Limbs of `a * 2 ^ s + c` for `s` below 32, one more than `a` has. -/
def shiftLeftBits (s : UInt64) : Magnitude → UInt64 → Magnitude
  | [], c => [c.toUInt32]
  | x :: xs, c =>
      let t := (x.toUInt64 <<< s) + c
      t.toUInt32 :: shiftLeftBits s xs (t >>> 32)

/-- Product with `2 ^ n`. -/
def shiftLeft (a : Magnitude) (n : Nat) : Magnitude :=
  if a = [] then []
  else
    normalize
      (List.replicate (n / 32) 0 ++ shiftLeftBits (UInt64.ofNat (n % 32)) a 0)

/-- Limbs of `a / 2 ^ s` for `s` below 32, as many as `a` has. -/
def shiftRightBits (s : UInt64) : Magnitude → Magnitude
  | [] => []
  | x :: xs =>
      ((x.toUInt64 + (xs.headD 0).toUInt64 * limbBase) >>> s).toUInt32 ::
        shiftRightBits s xs

/-- Quotient by `2 ^ n`. -/
def shiftRight (a : Magnitude) (n : Nat) : Magnitude :=
  normalize (shiftRightBits (UInt64.ofNat (n % 32)) (a.drop (n / 32)))

end Magnitude
end DeskCalculator
