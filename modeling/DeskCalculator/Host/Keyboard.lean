import DeskCalculator.Host.Session

/-!
# The keyboard

Characters typed and four named keys stand for commands.  Outside base sixteen
`e` opens the exponent and the other letters of hexadecimal digits are ignored;
the base counts that was in force when the frame began.
-/

namespace DeskCalculator

/-- Keys without a character, in the order in which one frame obeys them. -/
inductive NamedKey where
  | enter
  | backspace
  | escape
  | delete
deriving DecidableEq, Repr

namespace NamedKey

/-- All named keys, in the order in which one frame obeys them. -/
def all : List NamedKey := [enter, backspace, escape, delete]

/-- The command of a named key. -/
def command : NamedKey → Command
  | enter => .equals
  | backspace => .backspace
  | escape => .clearEntry
  | delete => .clear

end NamedKey

namespace Command

/-- The command of a character, with all hexadecimal digits. -/
def ofChar? (c : Char) : Option Command :=
  match digitValue? c with
  | some d => some (.digit d)
  | none =>
      match c with
      | '.' | ',' => some .point
      | '+' => some (.binary .add)
      | '-' => some (.binary .sub)
      | '*' => some (.binary .mul)
      | '/' => some (.binary .div)
      | '^' => some (.binary .pow)
      | '&' => some (.binary .and)
      | '|' => some (.binary .or)
      | '<' => some (.binary .shiftLeft)
      | '>' => some (.binary .shiftRight)
      | '%' => some .percent
      | '=' => some .equals
      | '(' => some .openParen
      | ')' => some .closeParen
      | _ => none

/-- The command of a character typed in a base. -/
def ofCharIn? (base : Base) (c : Char) : Option Command :=
  if base.radix = 16 then ofChar? c
  else if c = 'e' ∨ c = 'E' then some .exponent
  else if ((digitValue? c).getD 0) < 10 then ofChar? c
  else none

end Command

namespace Host

/-- One frame: the characters typed, then the named keys pressed. -/
def typeFrame (F : RealFunctions) (h : Host) (text : List Char) (keys : List NamedKey) : Host :=
  let commands := text.filterMap (Command.ofCharIn? h.session.engine.base)
  let pressed := NamedKey.all.filter fun k => k ∈ keys
  h.obeyAll F (commands ++ pressed.map (·.command))

/-- The number that digits typed into a field stand for. -/
def fieldValue? (digits : List Char) : Option Nat := decimalNat? digits

/--
Typing digits into the precision field and leaving it.  The keyboard sees the
digits first; another precision then starts a new session.
-/
def typePrecision (F : RealFunctions) (h : Host) (digits : List Char) : Host :=
  let h := h.typeFrame F digits []
  match fieldValue? digits with
  | none => h
  | some p =>
      let p := clampPrecision p
      if p = h.config.precision then h else h.configure { h.config with precision := p }

end Host
end DeskCalculator
