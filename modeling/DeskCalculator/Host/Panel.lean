import DeskCalculator.Host.Session

/-!
# The panel

The panel has a widget for every command and for three of the settings.  A
widget is found by its label.  Modes of words and modes of ratios have rows of
their own, and buttons without a meaning in the mode at hand are disabled: a
click on them does nothing.
-/

namespace DeskCalculator

/-- What a click does. -/
inductive PanelAction where
  | command (c : Command)
  | togglePrecedence
  | toggleWords
  | toggleGrouping
deriving DecidableEq, Repr

/-- A widget of the panel. -/
structure Widget where
  label : String
  action : PanelAction
  enabled : Bool := true
deriving DecidableEq, Repr

namespace Widget

/-- A button for a command. -/
def button (label : String) (c : Command) (enabled : Bool) : Widget :=
  ⟨label, .command c, enabled⟩

end Widget

namespace Panel

/-- The check boxes of the settings. -/
def checkBoxes : List Widget :=
  [⟨"Priorités", .togglePrecedence, true⟩, ⟨"Programmeur", .toggleWords, true⟩,
    ⟨"Groupes", .toggleGrouping, true⟩]

/-- The choice of base and width, for words. -/
def wordModes : List Widget :=
  [.button "HEX" (.base .hexadecimal) true, .button "DEC" (.base .decimal) true,
    .button "OCT" (.base .octal) true, .button "BIN" (.base .binary) true,
    .button "QWORD" (.wordSize .qword) true, .button "DWORD" (.wordSize .dword) true,
    .button "WORD" (.wordSize .word) true, .button "BYTE" (.wordSize .byte) true]

/-- The choice of angle unit and style, for ratios. -/
def ratioModes : List Widget :=
  [.button "DEG" (.angle .degrees) true, .button "RAD" (.angle .radians) true,
    .button "GRAD" (.angle .gradians) true, .button "F-E" (.style .floating) true,
    .button "SCI" (.style .scientific) true, .button "ENG" (.style .engineering) true]

/-- The memory buttons. -/
def memoryButtons : List Widget :=
  [.button "MC" (.memory .clear) true, .button "MR" (.memory .recall) true,
    .button "MS" (.memory .store) true, .button "M+" (.memory .add) true,
    .button "M-" (.memory .sub) true]

/-- The functions in the order of their buttons. -/
def functions : List ScientificFunction :=
  [.sin, .cos, .tan, .sinh, .cosh, .tanh, .ln, .log, .tenPow, .square, .sqrt, .cube, .cbrt,
    .reciprocal, .factorial, .not]

/-- The button of the inverse and those of the functions, labelled as the inverse is armed. -/
def functionButtons (onWords inverse : Bool) : List Widget :=
  Widget.button "Inv" .inverse (!onWords) ::
    functions.map fun f =>
      Widget.button (f.name inverse) (.unary f) (if onWords then f.admittedOnWords else f ≠ .not)

/-- The operators for ratios and words alike that have a row of their own. -/
def generalOperators : List Operator := [.mod, .pow, .root]

/-- The operators on the bits of words. -/
def bitOperators : List Operator := [.and, .or, .xor, .shiftLeft, .shiftRight]

/-- The row of operators. -/
def operatorButtons (onWords : Bool) : List Widget :=
  (generalOperators.map fun op => .button op.symbol (.binary op) true) ++
    bitOperators.map fun op => .button op.symbol (.binary op) onWords

/-- Whether a button of the keypad is enabled. -/
def isEnabled (onWords : Bool) (radix : Nat) : Command → Bool
  | .digit d => d < radix
  | .point | .exponent => !onWords
  | _ => true

/-- The keypad, row by row. -/
def keypad : List (String × Command) :=
  [("7", .digit 7), ("8", .digit 8), ("9", .digit 9), ("÷", .binary .div),
    ("CE", .clearEntry), ("C", .clear),
    ("4", .digit 4), ("5", .digit 5), ("6", .digit 6), ("×", .binary .mul),
    ("(", .openParen), (")", .closeParen),
    ("1", .digit 1), ("2", .digit 2), ("3", .digit 3), ("-", .binary .sub),
    ("%", .percent), ("⌫", .backspace),
    ("±", .negate), ("0", .digit 0), (".", .point), ("+", .binary .add),
    ("Exp", .exponent), ("=", .equals)]

/-- The buttons of the keypad. -/
def keypadButtons (onWords : Bool) (radix : Nat) : List Widget :=
  keypad.map fun (label, c) => .button label c (isEnabled onWords radix c)

/-- The digits from ten to fifteen, for words. -/
def hexDigitButtons (radix : Nat) : List Widget :=
  (List.range 6).map fun i =>
    .button (digitChar (10 + i)).toString (.digit (10 + i)) (radix = 16)

/-- All widgets in the order in which they are drawn. -/
def widgets (h : Host) : List Widget :=
  let m := h.session.engine
  let onWords := h.config.onWords
  checkBoxes ++ (if onWords then wordModes else ratioModes) ++ memoryButtons ++
    functionButtons onWords m.inverseArmed ++ operatorButtons onWords ++
    keypadButtons onWords m.base.radix ++
    (if onWords then hexDigitButtons m.base.radix else [])

/-- The widget with a label; of two the one drawn later. -/
def find? (h : Host) (label : String) : Option Widget :=
  (widgets h).reverse.find? fun w => w.label = label

end Panel

namespace Host

/-- What a click does to the host. -/
def act (F : RealFunctions) (h : Host) : PanelAction → Host
  | .command c => h.obey F c
  | .togglePrecedence => h.configure { h.config with precedence := !h.config.precedence }
  | .toggleWords => h.configure { h.config with onWords := !h.config.onWords }
  | .toggleGrouping => h.configure { h.config with grouping := !h.config.grouping }

/-- A click on the widget with a label. -/
def click (F : RealFunctions) (h : Host) (label : String) : Host :=
  match Panel.find? h label with
  | some w => if w.enabled then h.act F w.action else h
  | none => h

end Host
end DeskCalculator
