import DeskCalculator.Proofs.Checked.Engine

/-!
# Nothing a command does leaves its domain

The remaining commands of the checked engine, and with them the step and the
run.  What they need of a state is that it is safe: its values are in lowest
terms and the number being typed is sound.  Every step keeps that.

**Results.**
* `Safe.checkedExecute_eq`, `Safe.checkedStep_eq`: nothing is refused in a safe
  state.
* `Safe.checkedRun_eq`: nothing on any way from a safe state.
* `run_within_domains`: so from a new engine, however it is configured and
  whatever the functions on binary64 numbers give.
-/

namespace DeskCalculator
namespace Engine

open Ratio

variable {F : RealFunctions} {m : Engine}

/-! ### Parentheses -/

/-- A closing parenthesis, checked. -/
def checkedCloseGroup (F : RealFunctions) (m : Engine) : Option Reaction :=
  match m.groups with
  | [] => some { engine := m }
  | group :: groups => do
      let m ← m.checkedSettle
      let label ← m.checkedOperandLabel
      match ← m.checkedFoldPending F none m.current with
      | .error e =>
          return { engine := { m with pending := [], operandText := none }, error := some e }
      | .ok (v, _) =>
          let inner := " ".intercalate (m.tokens ++ [label])
          { m with groups, pending := group.pending, tokens := group.tokens.dropLast
            }.checkedPresentOperand v s!"({inner})"

/-- Closes as many groups as given, checked. -/
def checkedCloseGroups (F : RealFunctions) : Nat → Engine → Option Reaction
  | 0, m => some { engine := m }
  | n + 1, m => Reaction.checkedAndThen (m.checkedCloseGroup F) (checkedCloseGroups F n)

theorem Safe.closeGroup
    (h : Safe m) :
    Safe (m.closeGroup F).engine where
  toHolds := (h.holdsIn.closeGroup (CalculationMode.closed_lowestTerms _).keeps h.settlesIn).toHolds
  precision := by
    rw [closeGroup_config]
    exact h.precision
  entry := h.entry.closeGroup

theorem Safe.closeGroups
    (h : Safe m) (n : Nat) :
    Safe (closeGroups F n m).engine where
  toHolds :=
    (h.holdsIn.closeGroups (CalculationMode.closed_lowestTerms _).keeps h.settlesIn n).toHolds
  precision := by
    rw [closeGroups_config]
    exact h.precision
  entry := h.entry.closeGroups n

theorem Safe.checkedCloseGroup_eq
    (h : Safe m) :
    m.checkedCloseGroup F = some (m.closeGroup F) := by
  have hs := h.settle
  unfold checkedCloseGroup Engine.closeGroup
  cases m.groups with
  | nil => rfl
  | cons group groups =>
      dsimp only
      rw [checkedSettle_eq h.entry h.precision]
      simp only [Option.bind_eq_bind, Option.bind_some]
      rw [checkedOperandLabel_eq hs.current, checkedFoldPending_eq hs.pending hs.current]
      simp only [Option.bind_some]
      cases hfold : foldPending F m.settle none m.settle.current with
      | error e => rfl
      | ok folded =>
          have hv := (hs.holdsIn.foldPending (CalculationMode.closed_lowestTerms _).keeps hs.current
            hfold).1
          exact checkedPresentOperand_eq _ hv _

theorem Safe.checkedCloseGroups_eq
    (h : Safe m) (n : Nat) :
    checkedCloseGroups F n m = some (Engine.closeGroups F n m) := by
  induction n generalizing m with
  | zero => rfl
  | succ n ih =>
      rw [checkedCloseGroups, h.checkedCloseGroup_eq]
      exact Reaction.checkedAndThen_eq fun _ => ih h.closeGroup

/-! ### Equals -/

/-- Completes the calculation, checked. -/
def checkedComplete (F : RealFunctions) (m : Engine) : Option Reaction := do
  let m ← m.checkedSettle
  let label ← m.checkedOperandLabel
  let m := { m with
    operandText := none, lastOperator := m.pending.lastOperator?, held := m.current }
  match ← m.checkedFoldPending F none m.held with
  | .error e => return { engine := { m with pending := [] }, error := some e }
  | .ok (v, pending) =>
      let m := { m with
        current := v, pending, tokens := m.tokens ++ [label, "="]
        afterEquals := true, afterOperator := false }
      let line := " ".intercalate m.tokens
      let result ← m.checkedLineText v
      let shown ← m.checkedShowCurrent
      return { engine := m, events := [.record line result, .expression line, shown] }

/-- A repeated `=`, checked. -/
def checkedRepeatEquals (F : RealFunctions) (m : Engine) : Option Reaction :=
  match m.lastOperator with
  | none => m.checkedShowCurrent.map fun shown => { engine := m, events := [shown] }
  | some op => do
      let m ← m.checkedSettle
      match ← m.mode.checkedBinary F op m.current m.held with
      | .error e => return { engine := m, error := some e }
      | .ok v =>
          let left ← m.checkedLineText m.current
          let right ← m.checkedLineText m.held
          let line := s!"{left} {op.symbol} {right} ="
          let m := { m with current := v, tokens := [line] }
          let result ← m.checkedLineText v
          let shown ← m.checkedShowCurrent
          return { engine := m, events := [.record line result, .expression line, shown] }

/-- The equals key, checked. -/
def checkedEquals (F : RealFunctions) (m : Engine) : Option Reaction :=
  if m.afterEquals then m.checkedRepeatEquals F
  else Reaction.checkedAndThen (checkedCloseGroups F m.groups.length m) (checkedComplete F)

theorem Safe.checkedComplete_eq
    (h : Safe m) :
    checkedComplete F m = some (complete F m) := by
  have hs := h.settle
  unfold checkedComplete complete
  rw [checkedSettle_eq h.entry h.precision]
  simp only [Option.bind_eq_bind, Option.bind_some]
  rw [checkedOperandLabel_eq hs.current]
  simp only [Option.bind_some]
  -- neither the words nor the held operand take part in the fold
  have hpending : Chain.AllOperands LowestTerms { m.settle with
      operandText := none, lastOperator := m.settle.pending.lastOperator?,
      held := m.settle.current }.pending := hs.pending
  rw [checkedFoldPending_eq hpending hs.current]
  simp only [Option.bind_some]
  cases hfold : foldPending F { m.settle with
      operandText := none, lastOperator := m.settle.pending.lastOperator?,
      held := m.settle.current } none m.settle.current with
  | error e => rfl
  | ok folded =>
      obtain ⟨v, pending⟩ := folded
      have hv := (hs.holdsIn.foldPending (CalculationMode.closed_lowestTerms _).keeps hs.current
        hfold).1
      dsimp only
      rw [checkedLineText_eq _ hv, checkedShowCurrent_eq hv]
      rfl

theorem Safe.checkedRepeatEquals_eq
    (h : Safe m) :
    m.checkedRepeatEquals F = some (m.repeatEquals F) := by
  have hs := h.settle
  unfold checkedRepeatEquals repeatEquals
  cases m.lastOperator with
  | none =>
      dsimp only
      rw [checkedShowCurrent_eq h.current]
      rfl
  | some op =>
      dsimp only
      rw [checkedSettle_eq h.entry h.precision]
      simp only [Option.bind_eq_bind, Option.bind_some]
      rw [CalculationMode.checkedBinary_eq F _ op hs.current hs.held]
      simp only [Option.bind_some]
      cases hbinary : m.settle.mode.binary F op m.settle.current m.settle.held with
      | error e => rfl
      | ok v =>
          have hv := (CalculationMode.closed_lowestTerms _).binary hs.current hs.held hbinary
          dsimp only
          rw [checkedLineText_eq _ hs.current, checkedLineText_eq _ hs.held]
          simp only [Option.bind_some]
          rw [checkedLineText_eq _ hv, checkedShowCurrent_eq hv]
          rfl

theorem Safe.checkedEquals_eq
    (h : Safe m) :
    m.checkedEquals F = some (m.equals F) := by
  unfold checkedEquals equals
  split
  · exact h.checkedRepeatEquals_eq
  · rw [h.checkedCloseGroups_eq]
    exact Reaction.checkedAndThen_eq fun _ => (h.closeGroups _).checkedComplete_eq

/-! ### Functions -/

/-- A percentage, checked. -/
def checkedPercentOf (m : Engine) (x : Ratio) : Option (Except CalcError Ratio) :=
  match m.pending.getLast? with
  | some (left, .add) | some (left, .sub) => do (← left.checkedMul x).checkedDiv (.ofInt 100)
  | _ => x.checkedDiv (.ofInt 100)

/-- The percent key, checked. -/
def checkedPercent (m : Engine) : Option Reaction := do
  let m ← m.leaveEquals.checkedSettle
  match ← m.checkedPercentOf m.current with
  | .error e => return { engine := m, error := some e }
  | .ok r =>
      let v ← m.mode.checkedAdjust r
      m.checkedPresentOperand v (← m.checkedLineText v)

/-- A function key, checked. -/
def checkedUnary (F : RealFunctions) (m : Engine) (f : ScientificFunction) : Option Reaction :=
  if m.config.onWords ∧ !f.admittedOnWords then some { engine := m }
  else do
    let inverse := m.inverseArmed
    let m := { ← m.leaveEquals.checkedSettle with inverseArmed := false }
    match ← m.mode.checkedUnary F f m.current inverse m.angle with
    | .error e => return { engine := m, error := some e }
    | .ok v =>
        let label ← m.checkedOperandLabel
        let text := s!"{f.name inverse}({label})"
        let shown ← m.checkedPresentOperand v text
        let result ← m.checkedLineText v
        return { shown with events := .record text result :: shown.events }

theorem Safe.checkedPercentOf_eq
    (h : Safe m) {x : Ratio} (hx : LowestTerms x) :
    m.checkedPercentOf x = some (m.percentOf x) := by
  have hhundred := (lowestTerms_ofInt 100).wellFormed
  have hpart : ∀ left op, m.pending.getLast? = some (left, op) →
      (do (← left.checkedMul x).checkedDiv (.ofInt 100)) =
        some ((left * x).div (.ofInt 100)) := by
    intro left op hlast
    have hleft := h.pending _ (List.mem_of_getLast? hlast)
    rw [checkedMul_eq hleft.wellFormed hx.wellFormed]
    exact checkedDiv_eq (hleft.mul hx).wellFormed hhundred
  have hwhole := checkedDiv_eq hx.wellFormed hhundred
  unfold checkedPercentOf percentOf
  cases hlast : m.pending.getLast? with
  | none => exact hwhole
  | some last =>
      obtain ⟨left, op⟩ := last
      cases op with
      | add | sub => exact hpart left _ hlast
      | _ => exact hwhole

theorem Safe.checkedPercent_eq
    (h : Safe m) :
    m.checkedPercent = some m.percent := by
  have hl := h.leaveEquals
  have hs := hl.settle
  unfold checkedPercent percent
  rw [checkedSettle_eq hl.entry hl.precision]
  simp only [Option.bind_eq_bind, Option.bind_some]
  rw [hs.checkedPercentOf_eq hs.current]
  simp only [Option.bind_some]
  cases hr : m.leaveEquals.settle.percentOf m.leaveEquals.settle.current with
  | error e => rfl
  | ok r =>
      have hlowest := hs.holdsIn.percentOf_lowestTerms (CalculationMode.closed_lowestTerms _)
        hs.current hr
      have hv := (CalculationMode.closed_lowestTerms m.leaveEquals.settle.mode).adjust hlowest
      dsimp only
      rw [CalculationMode.checkedAdjust_eq _ hlowest]
      simp only [Option.bind_some]
      rw [checkedLineText_eq _ hv]
      exact checkedPresentOperand_eq _ hv _

theorem Safe.checkedUnary_eq
    (h : Safe m) (f : ScientificFunction) :
    m.checkedUnary F f = some (m.unary F f) := by
  have hl := h.leaveEquals
  have hs := hl.settle
  unfold checkedUnary unary
  split
  · rfl
  · rw [checkedSettle_eq hl.entry hl.precision]
    simp only [Option.bind_eq_bind, Option.bind_some]
    rw [CalculationMode.checkedUnary_eq F _ f hs.current]
    simp only [Option.bind_some]
    cases hvalue : CalculationMode.unary F
        ({ m.leaveEquals.settle with inverseArmed := false } : Engine).mode f
        m.leaveEquals.settle.current m.inverseArmed m.leaveEquals.settle.angle with
    | error e => rfl
    | ok v =>
        have hv : LowestTerms v := (CalculationMode.closed_lowestTerms _).unary hs.current hvalue
        have hlabel := checkedOperandLabel_eq
          (m := { m.leaveEquals.settle with inverseArmed := false }) hs.current
        dsimp only
        rw [hlabel]
        simp only [Option.bind_some]
        rw [checkedPresentOperand_eq _ hv, checkedLineText_eq _ hv]
        rfl

/-! ### Memory, clearing and modes -/

/-- The memory keys, checked. -/
def checkedMemoryKey (m : Engine) (a : MemoryAction) : Option Reaction :=
  match a with
  | .store => do
      let m ← m.checkedSettle
      return { engine := { m with memory := some m.current } }
  | .recall =>
      match m.memory with
      | none => some { engine := m }
      | some v => do
          let current ← m.mode.checkedAdjust v
          let m := { m.leaveEquals with
            entering := false, current, operandText := none, afterOperator := false }
          return { engine := m, events := [← m.checkedShowCurrent] }
  | .clear => some { engine := { m with memory := none } }
  | .add => do
      let m ← m.checkedSettle
      let sum ← (m.memory.getD .zero).checkedAdd m.current
      return { engine := { m with memory := some (← m.mode.checkedAdjust sum) } }
  | .sub => do
      let m ← m.checkedSettle
      let difference ← (m.memory.getD .zero).checkedSub m.current
      return { engine := { m with memory := some (← m.mode.checkedAdjust difference) } }

/-- Clears everything but the memory and the modes, checked. -/
def checkedClear (m : Engine) : Option Reaction := do
  let m : Engine :=
    { config := m.config, settings := m.settings, memory := m.memory, angle := m.angle
      base := m.base, wordSize := m.wordSize, style := m.style }
  return { engine := m, events := [.clearHistory, .expression "", ← m.checkedShowCurrent] }

/-- Clears the value at hand, or everything after an error, checked. -/
def checkedClearEntry (m : Engine) : Option Reaction :=
  if m.failed then m.checkedClear
  else do
    let m := { m with
      entry := {}, entering := false, current := .zero, operandText := none
      afterOperator := false }
    return { engine := m, events := [← m.checkedShowCurrent] }

/-- Ends the typing, changes a mode and shows the value at hand, checked. -/
def checkedSetMode (m : Engine) (change : Engine → Option Engine) : Option Reaction := do
  let m ← change (← m.checkedSettle)
  return { engine := m, events := [← m.checkedShowCurrent] }

/-- Every value that the engine holds, adjusted to the mode, checked. -/
def checkedAdjustValues (m : Engine) : Option Engine := do
  let f := m.mode.checkedAdjust
  let current ← f m.current
  let held ← f m.held
  let memory ← m.memory.mapM f
  let pending ← m.pending.checkedMapOperands f
  let groups ← m.groups.mapM fun g =>
    (g.pending.checkedMapOperands f).map fun pending => { g with pending }
  return { m with current, held, memory, pending, groups }

theorem Safe.checkedMemoryKey_eq
    (h : Safe m) (a : MemoryAction) :
    m.checkedMemoryKey a = some (m.memoryKey a) := by
  have hs := h.settle
  have hsettle := checkedSettle_eq h.entry h.precision
  obtain ⟨hmemory, hcurrent⟩ :=
    hs.holdsIn.memory_current_lowestTerms (CalculationMode.closed_lowestTerms _)
  cases a with
  | store =>
      simp only [checkedMemoryKey, hsettle]
      rfl
  | «recall» =>
      simp only [checkedMemoryKey, memoryKey]
      cases hm : m.memory with
      | none => rfl
      | some v =>
          have hv := h.memory v hm
          dsimp only
          rw [CalculationMode.checkedAdjust_eq _ hv]
          simp only [Option.bind_eq_bind, Option.bind_some]
          rw [checkedShowCurrent_eq ((CalculationMode.closed_lowestTerms _).adjust hv)]
          rfl
  | clear => rfl
  | add =>
      simp only [checkedMemoryKey, hsettle, Option.bind_eq_bind, Option.bind_some]
      rw [checkedAdd_eq hmemory.wellFormed hcurrent.wellFormed]
      simp only [Option.bind_some]
      rw [CalculationMode.checkedAdjust_eq _ (hmemory.add hcurrent)]
      rfl
  | sub =>
      simp only [checkedMemoryKey, hsettle, Option.bind_eq_bind, Option.bind_some]
      rw [checkedSub_eq hmemory.wellFormed hcurrent.wellFormed]
      simp only [Option.bind_some]
      rw [CalculationMode.checkedAdjust_eq _ (hmemory.sub hcurrent)]
      rfl

/-- The value at hand after clearing is zero. -/
theorem checkedClear_eq
    (m : Engine) :
    m.checkedClear = some m.clear := by
  unfold checkedClear clear
  dsimp only
  rw [checkedShowCurrent_eq lowestTerms_zero]
  rfl

theorem checkedClearEntry_eq
    (m : Engine) :
    m.checkedClearEntry = some m.clearEntry := by
  unfold checkedClearEntry clearEntry
  split
  · exact checkedClear_eq m
  · dsimp only
    rw [checkedShowCurrent_eq lowestTerms_zero]
    rfl

theorem Safe.checkedAdjustValues_eq
    (h : Holds LowestTerms m) :
    m.checkedAdjustValues = some m.adjustValues := by
  have hadjust : ∀ {v}, LowestTerms v → m.mode.checkedAdjust v = some (m.mode.adjust v) :=
    fun hv => CalculationMode.checkedAdjust_eq m.mode hv
  have hmemory : m.memory.mapM m.mode.checkedAdjust = some (m.memory.map m.mode.adjust) := by
    cases hm : m.memory with
    | none => rfl
    | some v => simp [hadjust (h.memory v hm)]
  have hgroups : (m.groups.mapM fun g =>
      (g.pending.checkedMapOperands m.mode.checkedAdjust).map fun pending =>
        { g with pending }) =
      some (m.groups.map fun g => { g with pending := g.pending.mapOperands m.mode.adjust }) := by
    refine Checked.mapM_eq fun g hg => ?_
    rw [(h.groups g hg).checkedMapOperands_eq hadjust]
    rfl
  unfold checkedAdjustValues
  dsimp only
  rw [hadjust h.current, hadjust h.held, hmemory, h.pending.checkedMapOperands_eq hadjust, hgroups]
  rfl

theorem Safe.checkedSetMode_eq
    (h : Safe m) {change : Engine → Option Engine} {next : Engine}
    (hchange : change m.settle = some next) (hnext : LowestTerms next.current) :
    m.checkedSetMode change = some { engine := next, events := [next.showCurrent] } := by
  rw [checkedSetMode, checkedSettle_eq h.entry h.precision]
  simp only [Option.bind_eq_bind, Option.bind_some, hchange]
  rw [checkedShowCurrent_eq hnext]
  rfl

/-! ### All commands -/

/-- Changes the width of words; on words every value held is chopped to it, checked. -/
def checkedChangeWidth (w : WordSize) (m : Engine) : Option Engine :=
  let m := { m with wordSize := w }
  if m.config.onWords then m.checkedAdjustValues else some m

/-- Carries out a command in a state without error, checked. -/
def checkedExecute (F : RealFunctions) (m : Engine) : Command → Option Reaction
  | .digit d => m.checkedDigit d
  | .point => m.checkedPoint
  | .exponent => m.checkedExponent
  | .binary op => m.checkedBinary F op
  | .percent => m.checkedPercent
  | .equals => m.checkedEquals F
  | .clear => m.checkedClear
  | .clearEntry => m.checkedClearEntry
  | .backspace => m.checkedBackspace
  | .negate => m.checkedNegate
  | .unary f => m.checkedUnary F f
  | .inverse => some { engine := { m with inverseArmed := !m.inverseArmed } }
  | .memory a => m.checkedMemoryKey a
  | .openParen => some m.openGroup
  | .closeParen => m.checkedCloseGroup F
  | .angle u => some { engine := { m with angle := u } }
  | .base b => m.checkedSetMode fun m => some { m with base := b }
  | .wordSize w => m.checkedSetMode (checkedChangeWidth w)
  | .style s => m.checkedSetMode fun m => some { m with style := s }

/-- Obeys a command, checked. -/
def checkedStep (F : RealFunctions) (m : Engine) (c : Command) :
    Option (Engine × List Event) :=
  if m.failed ∧ !c.isClearing then some (m, [])
  else do
    let r ← m.checkedExecute F c
    match r.error with
    | none => return (r.engine, r.events)
    | some e =>
        let (failed, event) := r.engine.fail e
        return (failed, r.events ++ [event])

/-- Obeys commands in their order, checked. -/
def checkedRun (F : RealFunctions) (m : Engine) : List Command → Option Engine
  | [] => some m
  | c :: cs => do
      let (next, _) ← m.checkedStep F c
      checkedRun F next cs

theorem Safe.checkedSetWordSize_eq
    (h : Safe m) (w : WordSize) :
    m.checkedSetMode (checkedChangeWidth w) = some (m.setWordSize w) := by
  have hm := h.toHolds.settle_withWordSize w
  have hnext := (h.toHolds.setWordSize_lowestTerms w).current
  unfold setWordSize at hnext ⊢
  dsimp only at hnext ⊢
  refine h.checkedSetMode_eq ?_ hnext
  unfold checkedChangeWidth
  dsimp only
  split
  · exact checkedAdjustValues_eq hm
  · rfl

/-- In a safe state no command leaves the domain of an operation. -/
theorem Safe.checkedExecute_eq
    (h : Safe m) (k : Command) :
    m.checkedExecute F k = some (m.execute F k) := by
  cases k with
  | digit d =>
      simp only [checkedExecute, Engine.execute, checkedDigit, digit]
      split
      · rfl
      · rw [checkedEntryRules_eq]
        exact checkedUpdateEntry_eq (h.entry.press h.kept (.digit d))
  | point =>
      simp only [checkedExecute, Engine.execute, checkedPoint, point]
      split
      · rfl
      · exact checkedUpdateEntry_eq (h.entry.typePoint h.kept ‹_›)
  | exponent =>
      simp only [checkedExecute, Engine.execute, checkedExponent, exponent]
      split
      · rfl
      · exact checkedUpdateEntry_eq (h.entry.openExponent h.kept ‹_›)
  | backspace =>
      simp only [checkedExecute, Engine.execute, checkedBackspace, backspace]
      split
      · exact checkedUpdateEntry_eq (h.entry.backspace h.kept ‹_›)
      · rfl
  | binary op => exact checkedBinary_eq h op
  | percent => exact h.checkedPercent_eq
  | equals => exact h.checkedEquals_eq
  | clear => exact checkedClear_eq m
  | clearEntry => exact checkedClearEntry_eq m
  | negate => exact checkedNegate_eq h
  | unary f => exact h.checkedUnary_eq f
  | inverse | angle _ | openParen => rfl
  | memory a => exact h.checkedMemoryKey_eq a
  | closeParen => exact h.checkedCloseGroup_eq
  | base b => exact h.checkedSetMode_eq rfl h.settle.current
  | style s => exact h.checkedSetMode_eq rfl h.settle.current
  | wordSize w => exact h.checkedSetWordSize_eq w

theorem Safe.checkedStep_eq
    (h : Safe m) (k : Command) :
    m.checkedStep F k = some (m.step F k) := by
  unfold checkedStep Engine.step
  split
  · rfl
  · rw [h.checkedExecute_eq]
    simp only [Option.bind_eq_bind, Option.bind_some]
    cases (m.execute F k).error <;> rfl

/-- A run that starts safe stays safe, and nothing on the way is refused. -/
theorem Safe.checkedRun_eq
    (h : Safe m) (cs : List Command) :
    Safe (m.run F cs) ∧ m.checkedRun F cs = some (m.run F cs) := by
  induction cs generalizing m with
  | nil => exact ⟨h, rfl⟩
  | cons c cs ih =>
      rw [run_cons, checkedRun, h.checkedStep_eq]
      exact ih (h.step c)

/--
Whatever the configuration, the commands and the functions on binary64 numbers
are: from a new engine no magnitude is divided by zero, no difference goes below
zero, no root is taken of a negative number, no number being typed is cut beyond
its digits or replaced by zero; all values are in lowest terms, and what is being
typed is a numeral within the limits.
-/
theorem run_within_domains
    (F : RealFunctions) (config : Config) (settings : Settings) (cs : List Command) :
    (Engine.new config settings).checkedOpening = some (Engine.new config settings).opening ∧
      (Engine.new config settings).checkedRun F cs =
        some ((Engine.new config settings).run F cs) ∧
      Holds LowestTerms ((Engine.new config settings).run F cs) ∧
      (((Engine.new config settings).run F cs).entering = true →
        Numeral.isValid (((Engine.new config settings).run F cs).entry.text ['.'])
          Entry.maxExponentDigits
          ((Engine.new config settings).run F cs).entryRules.maxDigits
          ((Engine.new config settings).run F cs).entryRules.radix = true) := by
  have hnew := Safe.new config settings
  obtain ⟨hsafe, hrun⟩ := hnew.checkedRun_eq (F := F) cs
  refine ⟨?_, hrun, hsafe.toHolds, hsafe.entry.isValid_text hsafe.precision⟩
  rw [checkedOpening, checkedShowCurrent_eq hnew.current]
  rfl

/-- A decimal with an exponent, after a product. -/
def sampleTyping : List Command :=
  [.digit 2, .binary .mul, .digit 1, .point, .digit 5, .exponent, .negate, .digit 3]

/-- The number that the sample types is accepted. -/
theorem sampleTyping_within_domains :
    ((Engine.new {} {}).run .native sampleTyping).entering = true ∧
      Numeral.isValid (((Engine.new {} {}).run .native sampleTyping).entry.text ['.'])
        Entry.maxExponentDigits
        ((Engine.new {} {}).run .native sampleTyping).entryRules.maxDigits
        ((Engine.new {} {}).run .native sampleTyping).entryRules.radix = true := by
  have hentering : ((Engine.new {} {}).run .native sampleTyping).entering = true := by
    rfl
  exact ⟨hentering, (run_within_domains .native {} {} sampleTyping).2.2.2 hentering⟩

end Engine
end DeskCalculator
