import DeskCalculator.Proofs.Checked.Calculation
import DeskCalculator.Proofs.Checked.Entry
import DeskCalculator.Proofs.Engine.Typing
import DeskCalculator.Proofs.Engine.Values

/-!
# The checked engine

The engine with all its arithmetic and all its cuts of typed digits checked.
It also refuses to end the typing of a number whose text is no numeral, where
the engine would go on with zero.

**Domains.**
* `checkedEntryValue`: a number being typed whose text is a numeral.

**Results.**
* `checkedSettle_eq`: a number being typed has a value when its typing ends.
* `Safe.step`: values stay in lowest terms and a number being typed stays sound.
* `checkedNegate_eq`, `checkedBinary_eq`: in such a state nothing is refused.
-/

namespace DeskCalculator

namespace Reaction

/-- Goes on after a checked reaction that did not fail. -/
def checkedAndThen (r : Option Reaction) (f : Engine → Option Reaction) : Option Reaction := do
  let r ← r
  match r.error with
  | some _ => return r
  | none =>
      let next ← f r.engine
      return { next with events := r.events ++ next.events }

theorem checkedAndThen_eq
    {r : Reaction} {f : Engine → Option Reaction} {g : Engine → Reaction}
    (h : r.error = none → f r.engine = some (g r.engine)) :
    checkedAndThen (some r) f = some (r.andThen g) := by
  unfold checkedAndThen andThen
  cases herror : r.error with
  | some e => simp [herror]
  | none => simp [herror, h herror]

end Reaction

namespace Engine

open Ratio

/-! ### Texts -/

/-- Checked rules for typing a number. -/
def checkedEntryRules (m : Engine) : Option EntryRules :=
  (checkedMaxWordDigits m.wordSize.bits m.base.radix).map fun maxWord =>
    { radix := m.base.radix
      onWords := m.config.onWords
      maxWord := maxWord
      maxDigits := if m.config.onWords then maxWordDigitCount else m.config.precision }

/-- Checked text of a value. -/
def checkedPlainText (m : Engine) (v : Ratio) : Option (List Char) :=
  if m.config.onWords then v.checkedTruncatedText m.base.radix
  else v.checkedToText m.base.radix m.style m.config.precision

/-- Checked text of a value on the expression line. -/
def checkedLineText (m : Engine) (v : Ratio) : Option String :=
  (m.checkedPlainText v).map fun text => m.localize text false

/-- What shows the value at hand, checked. -/
def checkedShowCurrent (m : Engine) : Option Event :=
  (m.checkedPlainText m.current).map fun text =>
    .primary (m.localize text m.config.grouping) false

/-- What shows the number being typed, checked. -/
def checkedShowEntry (m : Engine) : Option Event :=
  (m.entry.checkedText ['.']).map fun text =>
    .primary (m.localize text m.config.grouping) false

/-- What a new engine shows, checked. -/
def checkedOpening (m : Engine) : Option (List Event) :=
  m.checkedShowCurrent.map fun shown => [shown, .expression ""]

/-- How the value at hand is written on the expression line, checked. -/
def checkedOperandLabel (m : Engine) : Option String :=
  match m.operandText with
  | some text => some text
  | none => m.checkedLineText m.current

variable {F : RealFunctions} {m : Engine} {v : Ratio}

theorem checkedEntryRules_eq
    (m : Engine) :
    m.checkedEntryRules = some m.entryRules := by
  obtain ⟨htwo, hradix⟩ := m.base.radix_bounds
  rw [checkedEntryRules, checkedMaxWordDigits_eq htwo hradix]
  rfl

theorem checkedPlainText_eq
    (m : Engine) (hv : LowestTerms v) :
    m.checkedPlainText v = some (m.plainText v) := by
  obtain ⟨htwo, hradix⟩ := m.base.radix_bounds
  unfold checkedPlainText plainText
  split
  · exact checkedTruncatedText_eq hv htwo hradix
  · exact checkedToText_eq hv htwo hradix _ _

theorem checkedLineText_eq
    (m : Engine) (hv : LowestTerms v) :
    m.checkedLineText v = some (m.lineText v) := by
  rw [checkedLineText, checkedPlainText_eq m hv]
  rfl

theorem checkedShowCurrent_eq
    (h : LowestTerms m.current) :
    m.checkedShowCurrent = some m.showCurrent := by
  rw [checkedShowCurrent, checkedPlainText_eq m h]
  rfl

theorem checkedOperandLabel_eq
    (h : LowestTerms m.current) :
    m.checkedOperandLabel = some m.operandLabel := by
  unfold checkedOperandLabel operandLabel
  cases m.operandText with
  | some text => rfl
  | none => exact checkedLineText_eq m h

/-! ### Typing -/

/-- Takes over a key that the entry accepts, checked. -/
def checkedUpdateEntry (m : Engine) (edited : Option Entry) : Option Reaction :=
  match edited with
  | none => some { engine := m }
  | some entry =>
      let m := { m with entry }
      m.checkedShowEntry.map fun shown => { engine := m, events := [shown] }

/-- A digit key, checked. -/
def checkedDigit (m : Engine) (d : Nat) : Option Reaction :=
  if m.base.radix ≤ d then some { engine := m }
  else do
    let rules ← m.checkedEntryRules
    let s := m.startEntry
    s.checkedUpdateEntry (s.entry.typeDigit? rules d)

/-- The point key, checked. -/
def checkedPoint (m : Engine) : Option Reaction :=
  if m.config.onWords then some { engine := m }
  else
    let s := m.startEntry
    s.checkedUpdateEntry s.entry.typePoint?

/-- The exponent key, checked. -/
def checkedExponent (m : Engine) : Option Reaction :=
  if m.config.onWords ∨ m.base ≠ .decimal then some { engine := m }
  else
    let s := m.startEntry
    s.checkedUpdateEntry s.entry.openExponent?

/-- The backspace key, checked. -/
def checkedBackspace (m : Engine) : Option Reaction :=
  if m.entering then m.checkedUpdateEntry m.entry.backspace? else some { engine := m }

/-- The number typed, if its text is a well-formed numeral. -/
def checkedEntryValue (m : Engine) : Option Ratio := do
  let rules ← m.checkedEntryRules
  let text ← m.entry.checkedText ['.']
  if Numeral.isValid text Entry.maxExponentDigits rules.maxDigits rules.radix then
    m.entry.checkedValue rules.radix
  else none

/-- Ends the typing of a number, checked. -/
def checkedSettle (m : Engine) : Option Engine :=
  if m.entering then do
    let v ← m.mode.checkedAdjust (← m.checkedEntryValue)
    return { m with current := v, entry := {}, entering := false, operandText := none }
  else some m

theorem checkedUpdateEntry_eq
    {edited : Option Entry} {rules : EntryRules} (hedited : ∀ e ∈ edited, e.Sound rules) :
    m.checkedUpdateEntry edited = some (m.updateEntry edited) := by
  cases edited with
  | none => rfl
  | some entry =>
      simp only [checkedUpdateEntry, checkedShowEntry, (hedited entry rfl).checkedText_eq]
      rfl

theorem checkedEntryValue_eq
    (h : SoundEntry m) (hprecision : 0 < m.config.precision) (hentering : m.entering = true) :
    m.checkedEntryValue = some m.entryValue := by
  have hsound := h hentering
  have hvalid := h.isValid_text hprecision hentering
  simp only [checkedEntryValue, entryValue, checkedEntryRules_eq, hsound.checkedText_eq,
    Option.bind_eq_bind, Option.bind_some, hvalid, if_true]
  exact hsound.checkedValue_eq (radix_bounds m).1 (radix_bounds m).2

/-- A number that is typed is never replaced by zero when its typing ends. -/
theorem checkedSettle_eq
    (h : SoundEntry m) (hprecision : 0 < m.config.precision) :
    m.checkedSettle = some m.settle := by
  unfold checkedSettle settle
  split
  · rename_i hentering
    rw [checkedEntryValue_eq h hprecision hentering]
    simp only [Option.bind_eq_bind, Option.bind_some]
    rw [CalculationMode.checkedAdjust_eq _ m.entryValue_lowestTerms]
    rfl
  · rfl

/-! ### Safe states -/

/-- Values in lowest terms, at least one digit shown, and a sound entry. -/
structure Safe (m : Engine) : Prop extends Holds LowestTerms m where
  precision : 0 < m.config.precision
  entry : SoundEntry m

namespace Safe

theorem holdsIn
    (h : Safe m) :
    HoldsIn m.mode LowestTerms m :=
  ⟨h.toHolds, rfl⟩

theorem settlesIn
    (_ : Safe m) :
    SettlesIn m.mode LowestTerms m :=
  settlesIn_of_closed (CalculationMode.closed_lowestTerms _) m

theorem kept
    (h : Safe m) :
    Entry.Kept Entry.Sound m.entryRules :=
  kept_sound h.precision

theorem leaveEquals
    (h : Safe m) :
    Safe m.leaveEquals where
  toHolds := h.holdsIn.leaveEquals.toHolds
  precision := by
    rw [leaveEquals_config]
    exact h.precision
  entry := h.entry.leaveEquals

theorem settle
    (h : Safe m) :
    Safe m.settle where
  toHolds := (h.holdsIn.settle h.settlesIn).toHolds
  precision := by
    rw [settle_config]
    exact h.precision
  entry := .settle m

theorem disarmFor
    (h : Safe m) (op : Operator) :
    Safe (m.disarmFor op) where
  toHolds := (h.holdsIn.disarmFor op).toHolds
  precision := by
    rw [disarmFor_config]
    exact h.precision
  entry := h.entry.disarmFor op

theorem execute
    (h : Safe m) (k : Command) :
    Safe (m.execute F k).engine where
  toHolds := h.toHolds.execute_lowestTerms k
  precision := by
    rw [execute_config]
    exact h.precision
  entry := h.entry.execute h.kept k

theorem step
    (h : Safe m) (k : Command) :
    Safe (m.step F k).1 :=
  step_engine F h (h.execute k) fun _ hm => { hm with entry := .of_settled rfl }

theorem new
    (config : Config) (settings : Settings) :
    Safe (Engine.new config settings) where
  toHolds := holds_new lowestTerms_zero config settings
  precision := by
    show 0 < max config.precision 1
    omega
  entry := .of_settled rfl

end Safe

/-! ### Operands -/

/-- Makes `v`, written as `text`, the value at hand, checked. -/
def checkedPresentOperand (m : Engine) (v : Ratio) (text : String) : Option Reaction :=
  let m := { m with current := v, operandText := some text, afterOperator := false }
  m.checkedShowCurrent.map fun shown => { engine := m, events := [shown, m.showExpression] }

/-- The sign key, checked. -/
def checkedNegate (m : Engine) : Option Reaction :=
  if m.entering then do m.checkedUpdateEntry (m.entry.toggleSign? (← m.checkedEntryRules))
  else do
    let m := m.leaveEquals
    let v ← m.mode.checkedAdjust m.current.neg
    let label ← m.checkedOperandLabel
    m.checkedPresentOperand v s!"negate({label})"

/-- Takes the left operand of a new operator, checked. -/
def checkedTakeLeftOperand (m : Engine) : Option (Engine × Ratio) :=
  match (if m.afterOperator then m.pending.getLast? else none) with
  | some (v, _) =>
      some ({ m with pending := m.pending.dropLast, tokens := m.tokens.dropLast }, v)
  | none => do
      let m ← m.leaveEquals.checkedSettle
      let label ← m.checkedOperandLabel
      return ({ m with tokens := m.tokens ++ [label], operandText := none }, m.current)

/-- Folds the pending operations with a right operand, checked. -/
def checkedFoldPending (F : RealFunctions) (m : Engine) (threshold : Option Nat)
    (right : Ratio) : Option (Except CalcError (Ratio × Chain Ratio)) :=
  m.pending.checkedFold (m.mode.checkedBinary F) threshold right

/-- An operator key, checked. -/
def checkedBinary (F : RealFunctions) (m : Engine) (op : Operator) : Option Reaction := do
  let op := m.effectiveOperator op
  let (m, right) ← (m.disarmFor op).checkedTakeLeftOperand
  match ← m.checkedFoldPending F (m.threshold op) right with
  | .error e => return { engine := { m with pending := [] }, error := some e }
  | .ok (v, pending) =>
      match pending.push v op with
      | .error e => return { engine := { m with current := v, pending }, error := some e }
      | .ok pending =>
          let m := { m with
            current := v, pending, tokens := m.tokens ++ [op.symbol]
            afterOperator := true, afterEquals := false }
          let shown ← m.checkedShowCurrent
          return {
            engine := m
            events :=
              [.announce (m.settings.texts.text (.operator op)), shown, m.showExpression] }

theorem checkedPresentOperand_eq
    (m : Engine) (hv : LowestTerms v) (text : String) :
    m.checkedPresentOperand v text = some (m.presentOperand v text) := by
  unfold checkedPresentOperand presentOperand
  dsimp only
  rw [checkedShowCurrent_eq hv]
  rfl

theorem checkedNegate_eq
    (h : Safe m) :
    m.checkedNegate = some m.negate := by
  unfold checkedNegate negate
  split
  · rename_i hentering
    rw [checkedEntryRules_eq]
    exact checkedUpdateEntry_eq (h.entry.toggleSign h.kept hentering)
  · have hneg := h.leaveEquals.current.neg
    dsimp only
    rw [CalculationMode.checkedAdjust_eq _ hneg, checkedOperandLabel_eq h.leaveEquals.current]
    exact checkedPresentOperand_eq _
      ((CalculationMode.closed_lowestTerms _).adjust hneg) _

theorem checkedTakeLeftOperand_eq
    (h : Safe m) :
    m.checkedTakeLeftOperand = some m.takeLeftOperand := by
  unfold checkedTakeLeftOperand takeLeftOperand
  cases (if m.afterOperator then m.pending.getLast? else none) with
  | some last => rfl
  | none =>
      dsimp only
      rw [checkedSettle_eq h.leaveEquals.entry h.leaveEquals.precision]
      simp only [Option.bind_eq_bind, Option.bind_some]
      rw [checkedOperandLabel_eq h.leaveEquals.settle.current]
      rfl

/-- Folding applies operators to values in lowest terms only. -/
theorem checkedFoldPending_eq
    (hpending : m.pending.AllOperands LowestTerms) {right : Ratio} (hright : LowestTerms right)
    (threshold : Option Nat) :
    m.checkedFoldPending F threshold right = some (m.foldPending F threshold right) :=
  hpending.checkedFold_eq (CalculationMode.closed_lowestTerms m.mode).binary
    (fun op _ _ ha hb => CalculationMode.checkedBinary_eq F m.mode op ha hb) threshold hright

theorem checkedBinary_eq
    (h : Safe m) (op : Operator) :
    m.checkedBinary F op = some (m.binary F op) := by
  have hdisarm := h.disarmFor (m.effectiveOperator op)
  obtain ⟨htake, hright⟩ := hdisarm.holdsIn.takeLeftOperand hdisarm.settlesIn
  unfold checkedBinary binary
  dsimp only
  rw [checkedTakeLeftOperand_eq hdisarm]
  simp only [Option.bind_eq_bind, Option.bind_some]
  rw [checkedFoldPending_eq htake.pending hright]
  simp only [Option.bind_some]
  cases hfold : foldPending F (m.disarmFor (m.effectiveOperator op)).takeLeftOperand.1
      ((m.disarmFor (m.effectiveOperator op)).takeLeftOperand.1.threshold (m.effectiveOperator op))
      (m.disarmFor (m.effectiveOperator op)).takeLeftOperand.2 with
  | error e => rfl
  | ok folded =>
      obtain ⟨v, pending⟩ := folded
      have hv := (htake.foldPending (CalculationMode.closed_lowestTerms _).keeps hright hfold).1
      dsimp only
      cases pending.push v (m.effectiveOperator op) with
      | error e => rfl
      | ok pending =>
          dsimp only
          rw [checkedShowCurrent_eq hv]
          rfl

end Engine
end DeskCalculator
