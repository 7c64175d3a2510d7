import DeskCalculator.Engine.Step
import Mathlib.Tactic

/-!
# Reachable states

A state is reachable if a new engine comes to it by obeying commands.  What
every command keeps holds in every reachable state.

**Results.**
* `step_config`: no command changes the configuration.
* `Reachable.precision_pos`: at least one digit is shown.
* `run_of_failed`: after an error nothing but a clearing command has an effect.
-/

namespace DeskCalculator

/-- Every base is a radix from two to sixteen. -/
theorem Base.radix_bounds
    (b : Base) :
    2 ≤ b.radix ∧ b.radix ≤ 16 := by
  cases b <;> decide

/-- A property of engines that a reaction passes on. -/
theorem Reaction.andThen_engine
    {P : Engine → Prop} {r : Reaction} {f : Engine → Reaction}
    (hr : P r.engine) (hf : P r.engine → P (f r.engine).engine) :
    P (r.andThen f).engine := by
  unfold Reaction.andThen
  split
  · exact hr
  · exact hf hr

namespace Engine

variable (F : RealFunctions)

/-- Obeys commands in their order. -/
def run (m : Engine) (cs : List Command) : Engine :=
  cs.foldl (fun m c => (m.step F c).1) m

@[simp] theorem run_nil
    (m : Engine) :
    m.run F [] = m := by
  rfl

@[simp] theorem run_cons
    (m : Engine) (c : Command) (cs : List Command) :
    m.run F (c :: cs) = (m.step F c).1.run F cs := by
  rfl

theorem run_append
    (m : Engine) (cs ds : List Command) :
    m.run F (cs ++ ds) = (m.run F cs).run F ds :=
  List.foldl_append

/-- The states that commands lead to. -/
inductive Reachable : Engine → Prop
  | new (config : Config) (settings : Settings) : Reachable (Engine.new config settings)
  | step {m : Engine} (h : Reachable m) (c : Command) : Reachable (m.step F c).1

theorem Reachable.run
    {m : Engine} (h : Reachable F m) (cs : List Command) :
    Reachable F (m.run F cs) := by
  induction cs generalizing m with
  | nil =>
      exact h
  | cons c cs ih =>
      rw [run_cons]
      exact ih (h.step c)

/-! ### Errors -/

/-- After an error only the clearing commands are obeyed. -/
theorem step_of_failed
    {m : Engine} (hm : m.failed = true) {c : Command} (hc : c.isClearing = false) :
    m.step F c = (m, []) := by
  simp [step, hm, hc]

theorem run_of_failed
    {m : Engine} (hm : m.failed = true) {cs : List Command}
    (hcs : ∀ c ∈ cs, c.isClearing = false) :
    m.run F cs = m := by
  induction cs with
  | nil =>
      rfl
  | cons c cs ih =>
      rw [run_cons, step_of_failed F hm (hcs c (by simp))]
      exact ih fun d hd => hcs d (by simp [hd])

/-- The clearing command is obeyed in every state. -/
theorem step_clear
    (m : Engine) :
    m.step F .clear = (m.clear.engine, m.clear.events) := by
  simp only [step, Command.isClearing, Bool.not_true, Bool.false_eq_true, and_false, if_false]
  rfl

/-- After an error clearing the entry clears everything. -/
theorem step_clearEntry_of_failed
    {m : Engine} (hm : m.failed = true) :
    m.step F .clearEntry = (m.clear.engine, m.clear.events) := by
  simp only [step, Command.isClearing, Bool.not_true, Bool.false_eq_true, and_false, if_false,
    execute, clearEntry, hm, if_true]
  rfl

/-- Without an error before, a command is carried out. -/
theorem step_eq
    {m : Engine} (hm : m.failed = false) (c : Command) :
    (m.step F c).1 =
      match (m.execute F c).error with
      | none => (m.execute F c).engine
      | some _ => { (m.execute F c).engine with failed := true, entering := false } := by
  unfold step
  simp only [hm, Bool.false_eq_true, false_and, if_false]
  cases (m.execute F c).error <;> rfl

/-- What carrying out a command keeps and what failing keeps, a step keeps. -/
theorem step_engine
    {P : Engine → Prop} {m : Engine} {c : Command} (hm : P m)
    (hexecute : P (m.execute F c).engine)
    (hfail : ∀ m, P m → P { m with failed := true, entering := false }) :
    P (m.step F c).1 := by
  unfold step
  split
  · exact hm
  · dsimp only
    split
    · exact hexecute
    · exact hfail _ hexecute

/-- A key of the entry does not fail, whether the entry accepts it or not. -/
theorem updateEntry_error
    (m : Engine) (edited : Option Entry) :
    (m.updateEntry edited).error = none := by
  cases edited <;> rfl

/-- After settling no number is being typed. -/
theorem settle_entering
    (m : Engine) :
    m.settle.entering = false := by
  unfold settle
  split
  · rfl
  · simp_all

/-! ### Configuration -/

@[simp] theorem leaveEquals_config
    (m : Engine) :
    m.leaveEquals.config = m.config := by
  unfold leaveEquals
  split <;> rfl

@[simp] theorem settle_config
    (m : Engine) :
    m.settle.config = m.config := by
  unfold settle
  split <;> rfl

@[simp] theorem startEntry_config
    (m : Engine) :
    m.startEntry.config = m.config := by
  unfold startEntry
  split <;> simp

@[simp] theorem updateEntry_config
    (m : Engine) (edited : Option Entry) :
    (m.updateEntry edited).engine.config = m.config := by
  cases edited <;> rfl

@[simp] theorem disarmFor_config
    (m : Engine) (op : Operator) :
    (m.disarmFor op).config = m.config := by
  unfold disarmFor
  split <;> rfl

@[simp] theorem takeLeftOperand_config
    (m : Engine) :
    m.takeLeftOperand.1.config = m.config := by
  unfold takeLeftOperand
  split <;> simp

theorem binary_config
    (m : Engine) (op : Operator) :
    (m.binary F op).engine.config = m.config := by
  unfold binary
  dsimp only
  split
  · simp
  · split <;> simp

theorem closeGroup_config
    (m : Engine) :
    (m.closeGroup F).engine.config = m.config := by
  unfold closeGroup
  dsimp only
  split
  · rfl
  · split <;> simp [presentOperand]

/-- What closing one group keeps, closing groups one after the other keeps. -/
theorem closeGroups_engine
    {P : Engine → Prop} (hclose : ∀ m, P m → P (m.closeGroup F).engine) (n : Nat) {m : Engine}
    (hm : P m) :
    P (closeGroups F n m).engine := by
  induction n generalizing m with
  | zero => exact hm
  | succ n ih => exact Reaction.andThen_engine (hclose m hm) fun h => ih h

theorem closeGroups_config
    (n : Nat) (m : Engine) :
    (closeGroups F n m).engine.config = m.config :=
  closeGroups_engine F (P := fun m' => m'.config = m.config)
    (fun m' h => (closeGroup_config F m').trans h) n rfl

theorem complete_config
    (m : Engine) :
    (complete F m).engine.config = m.config := by
  unfold complete
  dsimp only
  split <;> simp

theorem repeatEquals_config
    (m : Engine) :
    (m.repeatEquals F).engine.config = m.config := by
  unfold repeatEquals
  split
  · rfl
  · dsimp only
    split <;> simp

theorem equals_config
    (m : Engine) :
    (m.equals F).engine.config = m.config := by
  unfold equals
  split
  · exact repeatEquals_config F m
  · exact Reaction.andThen_engine (P := fun m' => m'.config = m.config)
      (closeGroups_config F _ m) fun h => (complete_config F _).trans h

theorem unary_config
    (m : Engine) (f : ScientificFunction) :
    (m.unary F f).engine.config = m.config := by
  unfold unary
  dsimp only
  split
  · rfl
  · split <;> simp [presentOperand]

theorem memoryKey_config
    (m : Engine) (a : MemoryAction) :
    (m.memoryKey a).engine.config = m.config := by
  cases a with
  | «recall» =>
      simp only [memoryKey]
      split <;> simp
  | _ => simp [memoryKey]

/-- No command changes the configuration. -/
theorem execute_config
    (m : Engine) (c : Command) :
    (m.execute F c).engine.config = m.config := by
  cases c with
  | digit d =>
      simp only [execute, digit]
      split <;> simp
  | point =>
      simp only [execute, point]
      split <;> simp
  | exponent =>
      simp only [execute, exponent]
      split <;> simp
  | binary op => exact binary_config F m op
  | percent =>
      simp only [execute, percent]
      split <;> simp [presentOperand]
  | equals => exact equals_config F m
  | clearEntry =>
      simp only [execute, clearEntry]
      split <;> simp [clear]
  | backspace =>
      simp only [execute, backspace]
      split <;> simp
  | negate =>
      simp only [execute, negate]
      split <;> simp [presentOperand]
  | unary f => exact unary_config F m f
  | memory a => exact memoryKey_config m a
  | openParen =>
      simp only [execute, openGroup]
      split <;> simp
  | closeParen => exact closeGroup_config F m
  | wordSize w =>
      simp only [execute, setWordSize]
      split <;> simp [adjustValues]
  | _ => simp [execute, clear, setBase, setStyle]

theorem step_config
    (m : Engine) (c : Command) :
    (m.step F c).1.config = m.config :=
  step_engine F (P := fun m' => m'.config = m.config) rfl (execute_config F m c)
    fun _ hm => hm

theorem run_config
    (m : Engine) (cs : List Command) :
    (m.run F cs).config = m.config := by
  induction cs generalizing m with
  | nil =>
      rfl
  | cons c cs ih =>
      rw [run_cons, ih, step_config]

/-! ### Bounds -/

/-- If at least one digit is shown, at least one may be typed. -/
theorem maxDigits_pos
    {m : Engine} (hprecision : 0 < m.config.precision) :
    0 < m.entryRules.maxDigits := by
  simp only [entryRules, maxWordDigitCount]
  split <;> omega

theorem radix_bounds
    (m : Engine) :
    0 < m.entryRules.radix ∧ m.entryRules.radix ≤ 16 := by
  have h := m.base.radix_bounds
  exact ⟨by simp only [entryRules]; omega, h.2⟩

/-- A new engine shows at least one digit, and the configuration stays. -/
theorem Reachable.precision_pos
    {m : Engine} (h : Reachable F m) :
    0 < m.config.precision := by
  induction h with
  | new config settings =>
      show 0 < max config.precision 1
      omega
  | step h c ih =>
      rw [step_config]
      exact ih

/-- A reachable engine lets at least one digit be typed. -/
theorem Reachable.maxDigits_pos
    {m : Engine} (h : Reachable F m) :
    0 < m.entryRules.maxDigits :=
  Engine.maxDigits_pos (h.precision_pos F)

end Engine
end DeskCalculator
