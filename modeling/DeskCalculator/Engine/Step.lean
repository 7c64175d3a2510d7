import DeskCalculator.Engine.State

/-!
# Commands

`Engine.step` carries out one command.  A reaction is the new state with what
was shown on the way; it may also hold the error that stopped the command, and
then the state is the one reached at that moment.  After an error the engine
obeys only the clearing commands.
-/

namespace DeskCalculator

/-- The state that a command reaches, the events on the way, and an error if it failed. -/
structure Reaction where
  engine : Engine
  events : List Event := []
  error : Option CalcError := none

namespace Reaction

/-- Goes on after a reaction that did not fail. -/
def andThen (r : Reaction) (f : Engine → Reaction) : Reaction :=
  match r.error with
  | some _ => r
  | none =>
      let next := f r.engine
      { next with events := r.events ++ next.events }

end Reaction

namespace Engine

/-! ### Typing -/

/-- Leaves the state after `=`: what comes next starts a new calculation. -/
def leaveEquals (m : Engine) : Engine :=
  if m.afterEquals then { m with afterEquals := false, lastOperator := none, tokens := [] }
  else m

/-- Starts typing a number, unless one is being typed. -/
def startEntry (m : Engine) : Engine :=
  if m.entering then m
  else
    { m.leaveEquals with
      entry := {}, entering := true, operandText := none, afterOperator := false }

/-- Takes over a key that the entry accepts, and shows the entry. -/
def updateEntry (m : Engine) (edited : Option Entry) : Reaction :=
  match edited with
  | none => { engine := m }
  | some entry =>
      let m := { m with entry }
      { engine := m, events := [m.showEntry] }

/-- A digit key. -/
def digit (m : Engine) (d : Nat) : Reaction :=
  if m.base.radix ≤ d then { engine := m }
  else
    let s := m.startEntry
    s.updateEntry (s.entry.typeDigit? m.entryRules d)

/-- The point key; words have none. -/
def point (m : Engine) : Reaction :=
  if m.config.onWords then { engine := m }
  else
    let s := m.startEntry
    s.updateEntry s.entry.typePoint?

/-- The exponent key, for decimal numbers only. -/
def exponent (m : Engine) : Reaction :=
  if m.config.onWords ∨ m.base ≠ .decimal then { engine := m }
  else
    let s := m.startEntry
    s.updateEntry s.entry.openExponent?

/-- The number typed, if its text is a well-formed numeral, else zero. -/
def entryValue (m : Engine) : Ratio :=
  let rules := m.entryRules
  if Numeral.isValid (m.entry.text ['.']) Entry.maxExponentDigits rules.maxDigits rules.radix then
    m.entry.value rules.radix
  else .zero

/-- Ends the typing of a number, which becomes the value at hand. -/
def settle (m : Engine) : Engine :=
  if m.entering then
    { m with
      current := m.mode.adjust m.entryValue
      entry := {}, entering := false, operandText := none }
  else m

/-- How the value at hand is written on the expression line. -/
def operandLabel (m : Engine) : String := m.operandText.getD (m.lineText m.current)

/-- The backspace key. -/
def backspace (m : Engine) : Reaction :=
  if m.entering then m.updateEntry m.entry.backspace? else { engine := m }

/-- Makes `v`, written as `text`, the value at hand, and shows both lines. -/
def presentOperand (m : Engine) (v : Ratio) (text : String) : Reaction :=
  let m := { m with current := v, operandText := some text, afterOperator := false }
  { engine := m, events := [m.showCurrent, m.showExpression] }

/-- The sign key: of the number being typed, or else of the value at hand. -/
def negate (m : Engine) : Reaction :=
  if m.entering then m.updateEntry (m.entry.toggleSign? m.entryRules)
  else
    let m := m.leaveEquals
    m.presentOperand (m.mode.adjust m.current.neg) s!"negate({m.operandLabel})"

/-! ### Operators -/

/-- The operator meant: the armed inverse swaps powers and roots. -/
def effectiveOperator (m : Engine) (op : Operator) : Operator :=
  match op, m.inverseArmed with
  | .pow, true => .root
  | .root, true => .pow
  | op, _ => op

/-- The engine after the inverse has served a power or root. -/
def disarmFor (m : Engine) (op : Operator) : Engine :=
  if op = .pow ∨ op = .root then { m with inverseArmed := false } else m

/--
Takes the left operand of a new operator.  Right after another operator that
one is taken back, with its operand; otherwise it is the value at hand, which
goes to the expression line.
-/
def takeLeftOperand (m : Engine) : Engine × Ratio :=
  match (if m.afterOperator then m.pending.getLast? else none) with
  | some (v, _) => ({ m with pending := m.pending.dropLast, tokens := m.tokens.dropLast }, v)
  | none =>
      let m := m.leaveEquals.settle
      ({ m with tokens := m.tokens ++ [m.operandLabel], operandText := none }, m.current)

/-- The threshold of an operator; without precedences everything is folded. -/
def threshold (m : Engine) (op : Operator) : Option Nat :=
  if m.config.precedence then some op.precedence else none

/-- Folds the pending operations with a right operand. -/
def foldPending (F : RealFunctions) (m : Engine) (threshold : Option Nat) (right : Ratio) :
    Except CalcError (Ratio × Chain Ratio) :=
  (m.pending.fold (m.mode.binary F) threshold right).result

/-- An operator key. -/
def binary (F : RealFunctions) (m : Engine) (op : Operator) : Reaction :=
  let op := m.effectiveOperator op
  let (m, right) := (m.disarmFor op).takeLeftOperand
  match m.foldPending F (m.threshold op) right with
  | .error e => { engine := { m with pending := [] }, error := some e }
  | .ok (v, pending) =>
      match pending.push v op with
      | .error e => { engine := { m with current := v, pending }, error := some e }
      | .ok pending =>
          let m := { m with
            current := v, pending, tokens := m.tokens ++ [op.symbol]
            afterOperator := true, afterEquals := false }
          { engine := m
            events :=
              [.announce (m.settings.texts.text (.operator op)), m.showCurrent,
                m.showExpression] }

/-! ### Parentheses -/

/-- An opening parenthesis: what is pending waits outside. -/
def openGroup (m : Engine) : Reaction :=
  if Chain.capacity ≤ m.groups.length then { engine := m, error := some .overflow }
  else
    let m := m.leaveEquals
    let m := { m with
      groups := ⟨m.pending, m.tokens ++ ["("]⟩ :: m.groups
      pending := [], tokens := [], entry := {}, entering := false
      operandText := none, afterOperator := false }
    { engine := m, events := [m.showExpression] }

/-- A closing parenthesis: the group is folded and becomes an operand outside. -/
def closeGroup (F : RealFunctions) (m : Engine) : Reaction :=
  match m.groups with
  | [] => { engine := m }
  | group :: groups =>
      let m := m.settle
      let label := m.operandLabel
      match m.foldPending F none m.current with
      | .error e => { engine := { m with pending := [], operandText := none }, error := some e }
      | .ok (v, _) =>
          let inner := " ".intercalate (m.tokens ++ [label])
          { m with groups, pending := group.pending, tokens := group.tokens.dropLast
            }.presentOperand v s!"({inner})"

/-- Closes as many groups as given, from the innermost one. -/
def closeGroups (F : RealFunctions) : Nat → Engine → Reaction
  | 0, m => { engine := m }
  | n + 1, m => (m.closeGroup F).andThen (closeGroups F n)

/-! ### Equals -/

/-- Completes the calculation when no group is open. -/
def complete (F : RealFunctions) (m : Engine) : Reaction :=
  let m := m.settle
  let label := m.operandLabel
  let m := { m with
    operandText := none, lastOperator := m.pending.lastOperator?, held := m.current }
  match m.foldPending F none m.held with
  | .error e => { engine := { m with pending := [] }, error := some e }
  | .ok (v, pending) =>
      let m := { m with
        current := v, pending, tokens := m.tokens ++ [label, "="]
        afterEquals := true, afterOperator := false }
      let line := " ".intercalate m.tokens
      { engine := m
        events := [.record line (m.lineText v), .expression line, m.showCurrent] }

/-- A repeated `=`: the last operator once more, with the same right operand. -/
def repeatEquals (F : RealFunctions) (m : Engine) : Reaction :=
  match m.lastOperator with
  | none => { engine := m, events := [m.showCurrent] }
  | some op =>
      let m := m.settle
      match m.mode.binary F op m.current m.held with
      | .error e => { engine := m, error := some e }
      | .ok v =>
          let line := s!"{m.lineText m.current} {op.symbol} {m.lineText m.held} ="
          let m := { m with current := v, tokens := [line] }
          { engine := m
            events := [.record line (m.lineText v), .expression line, m.showCurrent] }

/-- The equals key: closes what is open, completes the calculation, or repeats it. -/
def equals (F : RealFunctions) (m : Engine) : Reaction :=
  if m.afterEquals then m.repeatEquals F
  else (closeGroups F m.groups.length m).andThen (complete F)

/-! ### Functions -/

/-- A percentage: of the left operand of a pending sum, otherwise of one. -/
def percentOf (m : Engine) (x : Ratio) : Except CalcError Ratio :=
  match m.pending.getLast? with
  | some (left, .add) | some (left, .sub) => (left * x).div (.ofInt 100)
  | _ => x.div (.ofInt 100)

/-- The percent key. -/
def percent (m : Engine) : Reaction :=
  let m := m.leaveEquals.settle
  match m.percentOf m.current with
  | .error e => { engine := m, error := some e }
  | .ok r =>
      let v := m.mode.adjust r
      m.presentOperand v (m.lineText v)

/-- A function key; on words most functions are ignored. -/
def unary (F : RealFunctions) (m : Engine) (f : ScientificFunction) : Reaction :=
  if m.config.onWords ∧ !f.admittedOnWords then { engine := m }
  else
    let inverse := m.inverseArmed
    let m := { m.leaveEquals.settle with inverseArmed := false }
    match m.mode.unary F f m.current inverse m.angle with
    | .error e => { engine := m, error := some e }
    | .ok v =>
        let text := s!"{f.name inverse}({m.operandLabel})"
        let shown := m.presentOperand v text
        { shown with events := .record text (m.lineText v) :: shown.events }

/-! ### Memory, clearing and modes -/

/-- The memory keys. -/
def memoryKey (m : Engine) (a : MemoryAction) : Reaction :=
  match a with
  | .store =>
      let m := m.settle
      { engine := { m with memory := some m.current } }
  | .recall =>
      match m.memory with
      | none => { engine := m }
      | some v =>
          let m := { m.leaveEquals with
            entering := false, current := m.mode.adjust v, operandText := none
            afterOperator := false }
          { engine := m, events := [m.showCurrent] }
  | .clear => { engine := { m with memory := none } }
  | .add =>
      let m := m.settle
      { engine := { m with memory := some (m.mode.adjust (m.memory.getD .zero + m.current)) } }
  | .sub =>
      let m := m.settle
      { engine := { m with memory := some (m.mode.adjust (m.memory.getD .zero - m.current)) } }

/-- Clears everything but the memory and the modes. -/
def clear (m : Engine) : Reaction :=
  let m := { m with
    current := .zero, held := .zero, lastOperator := none, pending := [], groups := []
    entry := {}, entering := false, failed := false, inverseArmed := false, tokens := []
    operandText := none, afterEquals := false, afterOperator := false }
  { engine := m, events := [.clearHistory, .expression "", m.showCurrent] }

/-- Clears the value at hand, or everything after an error. -/
def clearEntry (m : Engine) : Reaction :=
  if m.failed then m.clear
  else
    let m := { m with
      entry := {}, entering := false, current := .zero, operandText := none
      afterOperator := false }
    { engine := m, events := [m.showCurrent] }

/-- Changes the base in which numbers are typed and shown. -/
def setBase (m : Engine) (b : Base) : Reaction :=
  let m := { m.settle with base := b }
  { engine := m, events := [m.showCurrent] }

/-- Changes the style in which numbers are shown. -/
def setStyle (m : Engine) (s : NumberStyle) : Reaction :=
  let m := { m.settle with style := s }
  { engine := m, events := [m.showCurrent] }

/-- Every value that the engine holds, adjusted to the mode. -/
def adjustValues (m : Engine) : Engine :=
  let f := m.mode.adjust
  { m with
    current := f m.current
    held := f m.held
    memory := m.memory.map f
    pending := m.pending.mapOperands f
    groups := m.groups.map fun g => { g with pending := g.pending.mapOperands f } }

/-- Changes the width of words; on words every value held is chopped to it. -/
def setWordSize (m : Engine) (w : WordSize) : Reaction :=
  let m := { m.settle with wordSize := w }
  let m := if m.config.onWords then m.adjustValues else m
  { engine := m, events := [m.showCurrent] }

/-! ### All commands -/

/-- Carries out a command in a state without error. -/
def execute (F : RealFunctions) (m : Engine) : Command → Reaction
  | .digit d => m.digit d
  | .point => m.point
  | .exponent => m.exponent
  | .binary op => m.binary F op
  | .percent => m.percent
  | .equals => m.equals F
  | .clear => m.clear
  | .clearEntry => m.clearEntry
  | .backspace => m.backspace
  | .negate => m.negate
  | .unary f => m.unary F f
  | .inverse => { engine := { m with inverseArmed := !m.inverseArmed } }
  | .memory a => m.memoryKey a
  | .openParen => m.openGroup
  | .closeParen => m.closeGroup F
  | .angle u => { engine := { m with angle := u } }
  | .base b => m.setBase b
  | .wordSize w => m.setWordSize w
  | .style s => m.setStyle s

/-- Enters the state after an error, and shows its text. -/
def fail (m : Engine) (e : CalcError) : Engine × Event :=
  ({ m with failed := true, entering := false },
    .primary (m.settings.texts.text e.textId) true)

/-- Obeys a command: the new state and what is shown on the way. -/
def step (F : RealFunctions) (m : Engine) (c : Command) : Engine × List Event :=
  if m.failed ∧ !c.isClearing then (m, [])
  else
    let r := m.execute F c
    match r.error with
    | none => (r.engine, r.events)
    | some e =>
        let (failed, event) := r.engine.fail e
        (failed, r.events ++ [event])

/-- Takes over new settings and shows everything again, unless an error is shown. -/
def applySettings (m : Engine) (settings : Settings) : Engine × List Event :=
  let m := { m with settings }
  (m, if m.failed then []
    else [if m.entering then m.showEntry else m.showCurrent, m.showExpression])

end Engine
end DeskCalculator
