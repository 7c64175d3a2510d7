import DeskCalculator.Ratio.Basic

/-!
# Ratios as 64-bit words

Bit operations work on the truncation of their operands, reduced modulo
`2 ^ 64`; a negative number stands for its two's complement.  A shift by 64 or
more leaves nothing.
-/

namespace DeskCalculator
namespace Ratio

/-- The truncation, if it is a 64-bit word. -/
def toWord (r : Ratio) : Except CalcError UInt64 :=
  let t := r.truncate
  if t.isNegative then .error .overflow
  else
    match t.num.integerMagnitude.toWord? with
    | none => .error .overflow
    | some w => .ok w

/-- The truncation modulo `2 ^ 64`. -/
def toWordMod (r : Ratio) : UInt64 :=
  let t := r.truncate
  let low := t.num.integerMagnitude.lowWord
  if t.isNegative then -low else low

/-- A word as a ratio. -/
def ofWord (w : UInt64) : Ratio := ofNat w.toNat

/-- Bits set in both operands. -/
def land (a b : Ratio) : Ratio := ofWord (a.toWordMod &&& b.toWordMod)

/-- Bits set in one of the operands or both. -/
def lor (a b : Ratio) : Ratio := ofWord (a.toWordMod ||| b.toWordMod)

/-- Bits set in exactly one of the operands. -/
def lxor (a b : Ratio) : Ratio := ofWord (a.toWordMod ^^^ b.toWordMod)

/-- Bits not set. -/
def lnot (a : Ratio) : Ratio := ofWord (~~~a.toWordMod)

/-- Bits moved up by `n` places. -/
def shiftLeft (a n : Ratio) : Ratio :=
  let count := n.toWordMod
  ofWord (if 64 ≤ count then 0 else a.toWordMod <<< count)

/-- Bits moved down by `n` places. -/
def shiftRight (a n : Ratio) : Ratio :=
  let count := n.toWordMod
  ofWord (if 64 ≤ count then 0 else a.toWordMod >>> count)

end Ratio
end DeskCalculator
