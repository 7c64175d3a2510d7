/-!
# Commands

Everything a user can ask of the calculator is one command.  Operators have a
precedence and a symbol for the expression line; functions have a name, which
depends on whether the inverse is armed.
-/

namespace DeskCalculator

/-- Operators with two operands. -/
inductive Operator where
  | add
  | sub
  | mul
  | div
  | mod
  | pow
  /-- The root of order `y` of `x`. -/
  | root
  | and
  | or
  | xor
  | shiftLeft
  | shiftRight
deriving DecidableEq, Repr, Inhabited

namespace Operator

/-- Sums bind less than products, products less than powers; bit operators have precedence zero. -/
def precedence : Operator → Nat
  | add | sub => 1
  | mul | div | mod => 2
  | pow | root => 3
  | and | or | xor | shiftLeft | shiftRight => 0

/-- The symbol on the expression line. -/
def symbol : Operator → String
  | add => "+"
  | sub => "-"
  | mul => "×"
  | div => "÷"
  | mod => "mod"
  | pow => "^"
  | root => "yroot"
  | and => "and"
  | or => "or"
  | xor => "xor"
  | shiftLeft => "<<"
  | shiftRight => ">>"

end Operator

/-- Functions of one operand. -/
inductive ScientificFunction where
  | sin
  | cos
  | tan
  | sinh
  | cosh
  | tanh
  | ln
  | log
  | tenPow
  | square
  | sqrt
  | cube
  | cbrt
  | reciprocal
  | factorial
  | not
deriving DecidableEq, Repr

namespace ScientificFunction

/-- The name on the expression line, with or without the inverse armed. -/
def name : ScientificFunction → Bool → String
  | sin, false => "sin"
  | sin, true => "asin"
  | cos, false => "cos"
  | cos, true => "acos"
  | tan, false => "tan"
  | tan, true => "atan"
  | sinh, false => "sinh"
  | sinh, true => "asinh"
  | cosh, false => "cosh"
  | cosh, true => "acosh"
  | tanh, false => "tanh"
  | tanh, true => "atanh"
  | ln, false => "ln"
  | ln, true => "exp"
  | log, false | tenPow, true => "log"
  | log, true | tenPow, false => "10^"
  | square, false | sqrt, true => "sqr"
  | square, true | sqrt, false => "√"
  | cube, false | cbrt, true => "cube"
  | cube, true | cbrt, false => "∛"
  | reciprocal, _ => "1/"
  | factorial, _ => "fact"
  | not, _ => "not"

/-- Whether the function has a meaning on machine words. -/
def admittedOnWords : ScientificFunction → Bool
  | not | square | cube | factorial => true
  | _ => false

end ScientificFunction

/-- Units of angles. -/
inductive AngleUnit where
  | degrees
  | radians
  | gradians
deriving DecidableEq, Repr, Inhabited

/-- Bases in which numbers are typed and shown. -/
inductive Base where
  | decimal
  | hexadecimal
  | octal
  | binary
deriving DecidableEq, Repr, Inhabited

/-- The radix of a base. -/
def Base.radix : Base → Nat
  | decimal => 10
  | hexadecimal => 16
  | octal => 8
  | binary => 2

/-- Widths of machine words. -/
inductive WordSize where
  | qword
  | dword
  | word
  | byte
deriving DecidableEq, Repr, Inhabited

/-- Number of bits of a word. -/
def WordSize.bits : WordSize → Nat
  | qword => 64
  | dword => 32
  | word => 16
  | byte => 8

/-- Ways of writing a number. -/
inductive NumberStyle where
  /-- Positional, except for extreme exponents. -/
  | floating
  | scientific
  /-- With an exponent that is a multiple of three. -/
  | engineering
deriving DecidableEq, Repr, Inhabited

/-- What can be done with the memory register. -/
inductive MemoryAction where
  | store
  | recall
  | clear
  | add
  | sub
deriving DecidableEq, Repr

/-- One request of the user. -/
inductive Command where
  /-- A digit, with its value. -/
  | digit (d : Nat)
  | point
  /-- The mark before a decimal exponent. -/
  | exponent
  | binary (op : Operator)
  | percent
  | equals
  | clear
  | clearEntry
  | backspace
  | negate
  | unary (f : ScientificFunction)
  /-- Arms or disarms the inverse of the next function. -/
  | inverse
  | memory (a : MemoryAction)
  | openParen
  | closeParen
  | angle (u : AngleUnit)
  | base (b : Base)
  | wordSize (w : WordSize)
  | style (s : NumberStyle)
deriving DecidableEq, Repr

/-- Whether the command is obeyed after an error. -/
def Command.isClearing : Command → Bool
  | clear | clearEntry => true
  | _ => false

end DeskCalculator
