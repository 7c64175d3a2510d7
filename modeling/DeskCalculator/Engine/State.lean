import DeskCalculator.Chain
import DeskCalculator.Engine.Calculation
import DeskCalculator.Entry
import DeskCalculator.Numeral.Grouping
import DeskCalculator.Ratio.Text

/-!
# The state of the calculator

The engine holds the value at hand, the operations that wait for a right
operand, the groups that parentheses have opened, the number being typed, the
memory register, the modes, and the words of the expression line.

What it shows is an event: the primary line, the expression line, the operator
announced, and the lines of the history.
-/

namespace DeskCalculator

/-- What is fixed for a session. -/
structure Config where
  /-- Whether operators have precedences; otherwise they apply from left to right. -/
  precedence : Bool := true
  /-- Whether the calculator works on machine words. -/
  onWords : Bool := false
  /-- Significant digits shown. -/
  precision : Nat := 32
  /-- Whether the primary line shows digits in groups. -/
  grouping : Bool := false
deriving DecidableEq, Repr

/-- Texts and separators. -/
structure Settings where
  decimalSeparator : String := "."
  groupSeparator : String := ","
  /-- The sizes of digit groups, as in `3;2`. -/
  groupSizes : String := "3"
  texts : TextTable := []
deriving DecidableEq, Repr

/-- What the calculator shows or records. -/
inductive Event where
  | primary (text : String) (isError : Bool)
  | expression (text : String)
  | announce (text : String)
  | record (expression result : String)
  | clearHistory
deriving DecidableEq, Repr

/-- What waits outside an open parenthesis. -/
structure Group where
  pending : Chain Ratio
  tokens : List String
deriving DecidableEq, Repr

/-- The state of the calculator. -/
structure Engine where
  config : Config
  settings : Settings
  /-- The value at hand. -/
  current : Ratio := .zero
  /-- The right operand that a repeated `=` applies. -/
  held : Ratio := .zero
  /-- The operator that a repeated `=` applies. -/
  lastOperator : Option Operator := none
  memory : Option Ratio := none
  pending : Chain Ratio := []
  /-- The open groups, the innermost first. -/
  groups : List Group := []
  entry : Entry := {}
  /-- Whether a number is being typed. -/
  entering : Bool := false
  failed : Bool := false
  inverseArmed : Bool := false
  angle : AngleUnit := .degrees
  base : Base := .decimal
  wordSize : WordSize := .qword
  style : NumberStyle := .floating
  /-- The expression line of the innermost group, up to the last operator. -/
  tokens : List String := []
  /-- How the value at hand is written on the expression line, if not as a number. -/
  operandText : Option String := none
  /-- Whether the value at hand is the result of `=`. -/
  afterEquals : Bool := false
  /-- Whether the last key was an operator. -/
  afterOperator : Bool := false
deriving DecidableEq, Repr

namespace Engine

/-- The mode of calculation. -/
def mode (m : Engine) : CalculationMode := ⟨m.config.onWords, m.wordSize.bits⟩

/-- The largest number of digits of a word in any base. -/
def maxWordDigitCount : Nat := 64

/-- The rules for typing a number. -/
def entryRules (m : Engine) : EntryRules where
  radix := m.base.radix
  onWords := m.config.onWords
  maxWord := maxWordDigits m.wordSize.bits m.base.radix
  maxDigits := if m.config.onWords then maxWordDigitCount else m.config.precision

/-! ### Texts -/

/-- The text of a value in the modes in force, with a decimal point. -/
def plainText (m : Engine) (v : Ratio) : List Char :=
  if m.config.onWords then v.truncatedText m.base.radix
  else v.toText m.base.radix m.style m.config.precision

/-- A text with the separators in force instead of the point, in groups if wanted. -/
def localize (m : Engine) (text : List Char) (grouped : Bool) : String :=
  let (head, tail) := ((splitFirst? (· = '.') text).map fun (h, t) =>
    (h, m.settings.decimalSeparator.toList ++ t)).getD (text, [])
  let head :=
    if grouped then
      Numeral.group m.settings.groupSeparator.toList
        (Numeral.parseGroups m.settings.groupSizes.toList) head (head.head? = some '-')
    else head
  String.ofList (head ++ tail)

/-- The text of a value on the expression line and in the history. -/
def lineText (m : Engine) (v : Ratio) : String := m.localize (m.plainText v) false

/-- The text of a value on the primary line. -/
def displayText (m : Engine) (v : Ratio) : String :=
  m.localize (m.plainText v) m.config.grouping

/-- The text of the number being typed. -/
def entryText (m : Engine) : String :=
  m.localize (m.entry.text ['.']) m.config.grouping

/-- The words of the expression line, outer groups first. -/
def expressionTokens (m : Engine) : List String :=
  m.groups.reverse.flatMap (·.tokens) ++ m.tokens ++ m.operandText.toList

/-- Shows the value at hand. -/
def showCurrent (m : Engine) : Event := .primary (m.displayText m.current) false

/-- Shows the number being typed. -/
def showEntry (m : Engine) : Event := .primary m.entryText false

/-- Shows the expression line. -/
def showExpression (m : Engine) : Event := .expression (" ".intercalate m.expressionTokens)

/-- A new engine; at least one digit is shown. -/
def new (config : Config) (settings : Settings) : Engine where
  config := { config with precision := max config.precision 1 }
  settings := settings

/-- What a new engine shows. -/
def opening (m : Engine) : List Event := [m.showCurrent, .expression ""]

end Engine
end DeskCalculator
