import DeskCalculator.Proofs.Engine.Reachable

/-!
# Recovery from errors

A command that fails may leave the state half written: the chain is lost, the
inverse may be spent, words may have been put on the expression line.  After it
nothing has an effect but clearing, and clearing makes of any state the state of
a new engine, apart from what it keeps: the configuration, the settings, the
memory and the modes.  A failing command changes nothing of these.

A session is a sequence of commands with changes of the settings between them.

**Results.**
* `step_renewed`: clearing renews the engine.
* `failing_renewed`: a command that fails leaves what clearing keeps.
* `Session.recovery`: both, with what is shown.
-/

namespace DeskCalculator

/-- The commands that may fail: those that calculate, and an opening parenthesis. -/
def Command.mayFail : Command → Bool
  | binary _ | percent | equals | unary _ | openParen | closeParen => true
  | _ => false

namespace Engine

variable (F : RealFunctions) {m : Engine}

/-- What the commands show, one after the other. -/
def trace (m : Engine) : List Command → List (List Event)
  | [] => []
  | c :: cs => (m.step F c).2 :: trace (m.step F c).1 cs

/-- A new engine with the memory, the modes and the settings of `m`. -/
def renewed (m : Engine) : Engine :=
  { Engine.new m.config m.settings with
    memory := m.memory, angle := m.angle, base := m.base, wordSize := m.wordSize
    style := m.style }

/-- The states that commands and changes of the settings lead to. -/
inductive Session : Engine → Prop
  | new (config : Config) (settings : Settings) : Session (Engine.new config settings)
  | step {m : Engine} (h : Session m) (c : Command) : Session (m.step F c).1
  | settings {m : Engine} (h : Session m) (settings : Settings) :
      Session (m.applySettings settings).1

variable {F}

/-- Commands alone make a session. -/
theorem Reachable.session
    (h : Reachable F m) :
    Session F m := by
  induction h with
  | new config settings => exact .new config settings
  | step h c ih => exact ih.step c

/-- In a session, too, at least one digit is shown. -/
theorem Session.precision_pos
    (h : Session F m) :
    0 < m.config.precision := by
  induction h with
  | new config settings => exact (Reachable.new (F := F) config settings).precision_pos
  | step h c ih =>
      rw [step_config]
      exact ih
  | settings h settings ih => exact ih

/-! ### Clearing -/

/-- As the configuration shows at least one digit, it is that of a new engine. -/
theorem clear_eq_renewed
    (hprecision : 0 < m.config.precision) :
    m.clear.engine = m.renewed := by
  have hmax : max m.config.precision 1 = m.config.precision := by omega
  simp only [clear, renewed, Engine.new, hmax]

/-- The command clears everything: the clear key, or after an error the key that clears the entry. -/
def ClearsAll (m : Engine) (c : Command) : Prop := c = .clear ∨ c = .clearEntry ∧ m.failed = true

theorem step_of_clearsAll
    {c : Command} (hc : m.ClearsAll c) :
    m.step F c = (m.clear.engine, m.clear.events) := by
  rcases hc with rfl | ⟨rfl, hfailed⟩
  · exact step_clear F m
  · exact step_clearEntry_of_failed F hfailed

theorem step_renewed
    (hprecision : 0 < m.config.precision) {c : Command} (hc : m.ClearsAll c) :
    m.step F c = (m.renewed, [.clearHistory, .expression "", m.renewed.showCurrent]) := by
  rw [← clear_eq_renewed hprecision]
  exact step_of_clearsAll hc

/-- After an error commands that do not clear show nothing. -/
theorem trace_of_failed
    (hm : m.failed = true) {cs : List Command} (hcs : ∀ c ∈ cs, c.isClearing = false) :
    m.trace F cs = List.replicate cs.length [] := by
  induction cs with
  | nil =>
      rfl
  | cons c cs ih =>
      rw [trace, step_of_failed F hm (hcs c List.mem_cons_self),
        ih fun d hd => hcs d (List.mem_cons_of_mem _ hd)]
      rfl

/-! ### What clearing keeps -/

@[simp] theorem leaveEquals_renewed
    (m : Engine) :
    m.leaveEquals.renewed = m.renewed := by
  unfold leaveEquals
  split <;> rfl

@[simp] theorem settle_renewed
    (m : Engine) :
    m.settle.renewed = m.renewed := by
  unfold settle
  split <;> rfl

@[simp] theorem disarmFor_renewed
    (m : Engine) (op : Operator) :
    (m.disarmFor op).renewed = m.renewed := by
  unfold disarmFor
  split <;> rfl

@[simp] theorem takeLeftOperand_renewed
    (m : Engine) :
    m.takeLeftOperand.1.renewed = m.renewed := by
  unfold takeLeftOperand
  split
  · rfl
  · show m.leaveEquals.settle.renewed = m.renewed
    simp

theorem binary_renewed
    (m : Engine) (op : Operator) :
    (m.binary F op).engine.renewed = m.renewed := by
  have htake : ∀ op, (m.disarmFor op).takeLeftOperand.1.renewed = m.renewed := by simp
  unfold binary
  dsimp only
  split
  · exact htake _
  · split <;> exact htake _

theorem openGroup_renewed
    (m : Engine) :
    m.openGroup.engine.renewed = m.renewed := by
  unfold openGroup
  split
  · rfl
  · exact leaveEquals_renewed m

theorem closeGroup_renewed
    (m : Engine) :
    (m.closeGroup F).engine.renewed = m.renewed := by
  unfold closeGroup
  dsimp only
  split
  · rfl
  · split <;> exact settle_renewed m

theorem closeGroups_renewed
    (n : Nat) (m : Engine) :
    (closeGroups F n m).engine.renewed = m.renewed :=
  closeGroups_engine F (P := fun m' => m'.renewed = m.renewed)
    (fun m' h => (closeGroup_renewed m').trans h) n rfl

theorem complete_renewed
    (m : Engine) :
    (complete F m).engine.renewed = m.renewed := by
  unfold complete
  dsimp only
  split <;> exact settle_renewed m

theorem repeatEquals_renewed
    (m : Engine) :
    (m.repeatEquals F).engine.renewed = m.renewed := by
  unfold repeatEquals
  split
  · rfl
  · dsimp only
    split <;> exact settle_renewed m

theorem equals_renewed
    (m : Engine) :
    (m.equals F).engine.renewed = m.renewed := by
  unfold equals
  split
  · exact repeatEquals_renewed m
  · exact Reaction.andThen_engine (P := fun m' => m'.renewed = m.renewed)
      (closeGroups_renewed _ m) fun h => (complete_renewed _).trans h

theorem percent_renewed
    (m : Engine) :
    m.percent.engine.renewed = m.renewed := by
  have hsettled : m.leaveEquals.settle.renewed = m.renewed := by simp
  unfold percent
  dsimp only
  split <;> exact hsettled

theorem unary_renewed
    (m : Engine) (f : ScientificFunction) :
    (m.unary F f).engine.renewed = m.renewed := by
  have hsettled : m.leaveEquals.settle.renewed = m.renewed := by simp
  unfold unary
  dsimp only
  split
  · rfl
  · split <;> exact hsettled

/-! ### Commands that fail -/

theorem execute_error_eq_none
    (m : Engine) {c : Command} (hc : c.mayFail = false) :
    (m.execute F c).error = none := by
  cases c with
  | digit d =>
      simp only [execute, digit]
      split
      · rfl
      · exact updateEntry_error _ _
  | point =>
      simp only [execute, point]
      split
      · rfl
      · exact updateEntry_error _ _
  | exponent =>
      simp only [execute, exponent]
      split
      · rfl
      · exact updateEntry_error _ _
  | backspace =>
      simp only [execute, backspace]
      split
      · exact updateEntry_error _ _
      · rfl
  | negate =>
      simp only [execute, negate]
      split
      · exact updateEntry_error _ _
      · rfl
  | clearEntry =>
      simp only [execute, clearEntry]
      split <;> rfl
  | memory a =>
      cases a with
      | «recall» =>
          simp only [execute, memoryKey]
          split <;> rfl
      | _ => rfl
  | clear | inverse | angle u | base b | wordSize w | style s => rfl
  | binary op | percent | equals | unary f | openParen | closeParen => cases hc

/-- A command that fails leaves what clearing keeps. -/
theorem failing_renewed
    (m : Engine) (c : Command) (herror : (m.execute F c).error ≠ none) :
    (m.execute F c).engine.renewed = m.renewed := by
  cases c with
  | binary op => exact binary_renewed m op
  | percent => exact percent_renewed m
  | equals => exact equals_renewed m
  | unary f => exact unary_renewed m f
  | openParen => exact openGroup_renewed m
  | closeParen => exact closeGroup_renewed m
  | _ => exact absurd (execute_error_eq_none m rfl) herror

/-- The step then enters the state after an error, and leaves it as well. -/
theorem step_failing_renewed
    (hm : m.failed = false) {c : Command} {e : CalcError}
    (herror : (m.execute F c).error = some e) :
    (m.step F c).1.failed = true ∧ (m.step F c).1.renewed = m.renewed := by
  have hkeeps := failing_renewed m c (by rw [herror]; exact Option.some_ne_none e)
  rw [step_eq F hm, herror]
  exact ⟨rfl, hkeeps⟩

/--
In every session:
after an error commands that do not clear leave the state and show nothing;
clearing, or clearing the entry after an error, leads to the state of a new
engine with the memory, the modes and the settings kept, so that all that comes
later is as it is there; and these are what they were before the command that
failed.
-/
theorem Session.recovery
    (h : Session F m) :
    (m.failed = true → ∀ cs : List Command, (∀ c ∈ cs, c.isClearing = false) →
        m.run F cs = m ∧ m.trace F cs = List.replicate cs.length []) ∧
      (∀ c : Command, c = .clear ∨ c = .clearEntry ∧ m.failed = true →
        m.step F c = (m.renewed, [.clearHistory, .expression "", m.renewed.showCurrent]) ∧
          ∀ cs : List Command,
            m.run F (c :: cs) = m.renewed.run F cs ∧
              m.trace F (c :: cs) = (m.step F c).2 :: m.renewed.trace F cs) ∧
      ∀ (c : Command) (e : CalcError), m.failed = false → (m.execute F c).error = some e →
        (m.step F c).1.failed = true ∧ (m.step F c).1.renewed = m.renewed := by
  refine ⟨fun hm cs hcs => ⟨run_of_failed F hm hcs, trace_of_failed hm hcs⟩, ?_,
    fun c e hm herror => step_failing_renewed hm herror⟩
  intro c hc
  have hstep := step_renewed (F := F) h.precision_pos hc
  refine ⟨hstep, fun cs => ?_⟩
  rw [run_cons, trace, hstep]
  exact ⟨rfl, rfl⟩

/-- A quotient by zero, with a number in memory. -/
def sampleQuotient : Engine :=
  (Engine.new {} {}).run .native
    [.digit 1, .memory .store, .binary .div, .digit 0, .equals]

/-- After the quotient digits have no effect, and clearing the entry renews the engine. -/
theorem sampleQuotient_recovery :
    Session .native sampleQuotient ∧ sampleQuotient.failed = true ∧
      sampleQuotient.run .native [.digit 7, .equals] = sampleQuotient ∧
      sampleQuotient.run .native [.digit 7, .clearEntry] = sampleQuotient.renewed := by
  have hsession : Session .native sampleQuotient :=
    Reachable.session ((Reachable.new _ _).run _ _)
  have hfailed : sampleQuotient.failed = true := rfl
  obtain ⟨hignored, hcleared, -⟩ := hsession.recovery
  have hdigit := (hignored hfailed [.digit 7] (by decide)).1
  have hclear := (hcleared .clearEntry (.inr ⟨rfl, hfailed⟩)).1
  refine ⟨hsession, hfailed, (hignored hfailed [.digit 7, .equals] (by decide)).1, ?_⟩
  rw [run_cons, run_nil] at hdigit
  rw [run_cons, run_cons, run_nil, hdigit, hclear]

end Engine
end DeskCalculator
