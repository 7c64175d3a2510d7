import DeskCalculator.Proofs.Engine.Recovery

/-!
# Presentation never influences values

Separators, texts, the grouping of digits and the style of numbers decide what
is shown, and what stands on the expression line and in the history.  They live
in the same state as the values, and most commands write both.

A state without all of this is called bare.  Every command makes of a bare
state, up to presentation, what it makes of the full one, and it fails in the
one exactly if it fails in the other.  So two engines that differ in their
presentation alone, and go on to be presented differently, hold the same values
for ever.

**Results.**
* `bare_execute`: a command reads nothing of the presentation.
* `obeyAll_bare`: two runs that correspond lead to the same bare state.
* `presentation_never_influences_values`: all that they agree on.
-/

namespace DeskCalculator

/-- What waits outside an open parenthesis, without its words. -/
def Group.bare (g : Group) : Group := { g with tokens := [] }

@[simp] theorem Group.bare_bare
    (g : Group) :
    g.bare.bare = g.bare := by
  rfl

/-- Two commands that differ in the style of numbers at most. -/
inductive Command.SameButStyle : Command → Command → Prop
  | same (c : Command) : SameButStyle c c
  | style (s t : NumberStyle) : SameButStyle (.style s) (.style t)

/-- What an engine is asked for: a command, or to take over new settings. -/
inductive Request where
  | command (c : Command)
  | settings (s : Settings)
deriving DecidableEq, Repr

/-- The command, if the request is one. -/
def Request.command? : Request → Option Command
  | command c => some c
  | settings _ => none

namespace Engine

/-- The state with nothing in it that only presents values. -/
def bare (m : Engine) : Engine :=
  { m with
    config := { m.config with grouping := false }
    settings := {}, style := .floating, tokens := [], operandText := none
    groups := m.groups.map Group.bare }

end Engine

/-- The bare state that a reaction leads to, and the error that stopped it. -/
def Reaction.bare (r : Reaction) : Engine × Option CalcError := (r.engine.bare, r.error)

namespace Engine

variable (F : RealFunctions) {m m' : Engine}

@[simp] theorem bare_bare
    (m : Engine) :
    m.bare.bare = m.bare := by
  simp [bare]

/-! ### What calculations read -/

@[simp] theorem bare_mode
    (m : Engine) :
    m.bare.mode = m.mode := by
  rfl

@[simp] theorem bare_entryRules
    (m : Engine) :
    m.bare.entryRules = m.entryRules := by
  rfl

@[simp] theorem bare_threshold
    (m : Engine) (op : Operator) :
    m.bare.threshold op = m.threshold op := by
  rfl

@[simp] theorem bare_foldPending
    (m : Engine) (threshold : Option Nat) (right : Ratio) :
    m.bare.foldPending F threshold right = m.foldPending F threshold right := by
  rfl

@[simp] theorem bare_effectiveOperator
    (m : Engine) (op : Operator) :
    m.bare.effectiveOperator op = m.effectiveOperator op := by
  rfl

@[simp] theorem bare_percentOf
    (m : Engine) (x : Ratio) :
    m.bare.percentOf x = m.percentOf x := by
  rfl

@[simp] theorem bare_base
    (m : Engine) :
    m.bare.base = m.base := by
  rfl

@[simp] theorem bare_onWords
    (m : Engine) :
    m.bare.config.onWords = m.config.onWords := by
  rfl

@[simp] theorem bare_entering
    (m : Engine) :
    m.bare.entering = m.entering := by
  rfl

@[simp] theorem bare_afterOperator
    (m : Engine) :
    m.bare.afterOperator = m.afterOperator := by
  rfl

@[simp] theorem bare_pending
    (m : Engine) :
    m.bare.pending = m.pending := by
  rfl

@[simp] theorem bare_afterEquals
    (m : Engine) :
    m.bare.afterEquals = m.afterEquals := by
  rfl

@[simp] theorem bare_lastOperator
    (m : Engine) :
    m.bare.lastOperator = m.lastOperator := by
  rfl

@[simp] theorem bare_memory
    (m : Engine) :
    m.bare.memory = m.memory := by
  rfl

@[simp] theorem bare_current
    (m : Engine) :
    m.bare.current = m.current := by
  rfl

@[simp] theorem bare_held
    (m : Engine) :
    m.bare.held = m.held := by
  rfl

@[simp] theorem bare_failed
    (m : Engine) :
    m.bare.failed = m.failed := by
  rfl

/-! ### Typing -/

theorem bare_leaveEquals
    (m : Engine) :
    m.bare.leaveEquals = m.leaveEquals.bare := by
  unfold leaveEquals
  rw [apply_ite bare]
  rfl

theorem bare_settle
    (m : Engine) :
    m.bare.settle = m.settle.bare := by
  unfold settle
  rw [apply_ite bare]
  rfl

theorem bare_startEntry
    (m : Engine) :
    m.bare.startEntry = m.startEntry.bare := by
  unfold startEntry
  rw [bare_leaveEquals, apply_ite bare]
  rfl

theorem bare_updateEntry
    (m : Engine) (edited : Option Entry) :
    (m.bare.updateEntry edited).bare = (m.updateEntry edited).bare := by
  cases edited with
  | none => simp [updateEntry, Reaction.bare]
  | some entry => simp [updateEntry, Reaction.bare, bare]

/-- Whatever a value is written as, it is the same value. -/
theorem bare_presentOperand
    (m : Engine) (v : Ratio) (text text' : String) :
    (m.bare.presentOperand v text).bare = (m.presentOperand v text').bare := by
  simp [presentOperand, Reaction.bare, bare]

/-- A state that is left as it is. -/
theorem bare_unchanged
    (m : Engine) :
    ({ engine := m.bare } : Reaction).bare = ({ engine := m } : Reaction).bare := by
  simp [Reaction.bare]

theorem bare_digit
    (m : Engine) (d : Nat) :
    (m.bare.digit d).bare = (m.digit d).bare := by
  simp only [digit, bare_startEntry, bare_base, bare_entryRules]
  split
  · exact bare_unchanged m
  · exact bare_updateEntry _ _

theorem bare_point
    (m : Engine) :
    m.bare.point.bare = m.point.bare := by
  simp only [point, bare_startEntry, bare_onWords]
  split
  · exact bare_unchanged m
  · exact bare_updateEntry _ _

theorem bare_exponent
    (m : Engine) :
    m.bare.exponent.bare = m.exponent.bare := by
  simp only [exponent, bare_startEntry, bare_onWords, bare_base]
  split
  · exact bare_unchanged m
  · exact bare_updateEntry _ _

theorem bare_backspace
    (m : Engine) :
    m.bare.backspace.bare = m.backspace.bare := by
  simp only [backspace, bare_entering]
  split
  · exact bare_updateEntry _ _
  · exact bare_unchanged m

theorem bare_negate
    (m : Engine) :
    m.bare.negate.bare = m.negate.bare := by
  simp only [negate, bare_entering, bare_leaveEquals]
  split
  · exact bare_updateEntry _ _
  · exact bare_presentOperand _ _ _ _

/-! ### Calculations -/

theorem bare_disarmFor
    (m : Engine) (op : Operator) :
    m.bare.disarmFor op = (m.disarmFor op).bare := by
  unfold disarmFor
  rw [apply_ite bare]
  rfl

theorem bare_takeLeftOperand
    (m : Engine) :
    m.bare.takeLeftOperand.1.bare = m.takeLeftOperand.1.bare ∧
      m.bare.takeLeftOperand.2 = m.takeLeftOperand.2 := by
  simp only [takeLeftOperand, bare_afterOperator, bare_pending, bare_leaveEquals, bare_settle]
  split
  · simp [bare]
  · simp [bare]

/-- Folding depends on the bare state alone. -/
theorem foldPending_congr
    (h : m.bare = m'.bare) (threshold : Option Nat) (right : Ratio) :
    m.foldPending F threshold right = m'.foldPending F threshold right := by
  rw [← bare_foldPending, h, bare_foldPending]

theorem threshold_congr
    (h : m.bare = m'.bare) (op : Operator) :
    m.threshold op = m'.threshold op := by
  rw [← bare_threshold, h, bare_threshold]

theorem bare_binary
    (m : Engine) (op : Operator) :
    (m.bare.binary F op).bare = (m.binary F op).bare := by
  unfold binary
  dsimp only
  rw [bare_effectiveOperator, bare_disarmFor]
  obtain ⟨hleft, hright⟩ := bare_takeLeftOperand (m.disarmFor (m.effectiveOperator op))
  generalize (m.disarmFor (m.effectiveOperator op)).bare.takeLeftOperand = taken at hleft hright
  rw [foldPending_congr F hleft, threshold_congr hleft, hright]
  generalize (m.disarmFor (m.effectiveOperator op)).takeLeftOperand = taken' at hleft ⊢
  split
  · rename_i e hfold
    show ({ taken.1.bare with pending := [] }, some e) =
      ({ taken'.1.bare with pending := [] }, some e)
    rw [hleft]
  · rename_i v rest hfold
    split
    · rename_i e hpush
      show ({ taken.1.bare with current := v, pending := rest }, some e) =
        ({ taken'.1.bare with current := v, pending := rest }, some e)
      rw [hleft]
    · rename_i pending hpush
      show ({ taken.1.bare with
          current := v, pending := pending, afterOperator := true, afterEquals := false }, none) =
        ({ taken'.1.bare with
          current := v, pending := pending, afterOperator := true, afterEquals := false }, none)
      rw [hleft]

theorem bare_openGroup
    (m : Engine) :
    m.bare.openGroup.bare = m.openGroup.bare := by
  simp only [openGroup, bare_leaveEquals]
  have hlength : m.bare.groups.length = m.groups.length := List.length_map _
  rw [hlength]
  split
  · simp [Reaction.bare]
  · simp [Reaction.bare, bare, Group.bare]

theorem bare_closeGroup
    (m : Engine) :
    (m.bare.closeGroup F).bare = (m.closeGroup F).bare := by
  unfold closeGroup
  cases hgroups : m.groups with
  | nil =>
      have hbare : m.bare.groups = [] := by rw [bare, hgroups]; rfl
      simp only [hbare]
      exact bare_unchanged m
  | cons group groups =>
      have hbare : m.bare.groups = group.bare :: groups.map Group.bare := by rw [bare, hgroups]; rfl
      simp only [hbare, bare_settle, bare_foldPending]
      have hcurrent : m.settle.bare.current = m.settle.current := rfl
      rw [hcurrent]
      split
      · simp [Reaction.bare, bare]
      · simp [Reaction.bare, bare, presentOperand, Group.bare]

theorem bare_andThen
    {r r' : Reaction} {f g : Engine → Reaction} (hr : r.bare = r'.bare)
    (hf : ∀ m m' : Engine, m.bare = m'.bare → (f m).bare = (g m').bare) :
    (r.andThen f).bare = (r'.andThen g).bare := by
  obtain ⟨hengine, herror⟩ := Prod.mk.inj hr
  unfold Reaction.andThen
  rw [herror]
  cases r'.error with
  | some e => exact hr
  | none => exact hf _ _ hengine

/-- What commutes with baring depends on the bare state alone. -/
theorem congr_of_bare
    {f : Engine → Reaction} (hf : ∀ m : Engine, (f m.bare).bare = (f m).bare)
    (h : m.bare = m'.bare) :
    (f m).bare = (f m').bare := by
  rw [← hf m, h, hf m']

theorem bare_closeGroups
    (n : Nat) (m : Engine) :
    (closeGroups F n m.bare).bare = (closeGroups F n m).bare := by
  induction n generalizing m with
  | zero => exact bare_unchanged m
  | succ n ih => exact bare_andThen (bare_closeGroup F m) fun _ _ h => congr_of_bare ih h

theorem bare_complete
    (m : Engine) :
    (complete F m.bare).bare = (complete F m).bare := by
  unfold complete
  rw [bare_settle]
  generalize m.settle = s
  have hfold : ∀ threshold, foldPending F { s.bare with
      operandText := none, lastOperator := s.bare.pending.lastOperator?
      held := s.bare.current } threshold s.bare.current =
      foldPending F { s with
        operandText := none, lastOperator := s.pending.lastOperator?
        held := s.current } threshold s.current := fun _ => rfl
  dsimp only
  rw [hfold]
  split
  · simp [Reaction.bare, bare]
  · simp [Reaction.bare, bare]

theorem bare_repeatEquals
    (m : Engine) :
    (m.bare.repeatEquals F).bare = (m.repeatEquals F).bare := by
  unfold repeatEquals
  rw [bare_lastOperator, bare_settle]
  split
  · simp [Reaction.bare]
  · dsimp only
    rw [bare_mode, bare_current, bare_held]
    split
    · simp [Reaction.bare]
    · simp [Reaction.bare, bare]

theorem bare_equals
    (m : Engine) :
    (m.bare.equals F).bare = (m.equals F).bare := by
  have hlength : m.bare.groups.length = m.groups.length := List.length_map _
  unfold equals
  rw [bare_afterEquals, hlength]
  split
  · exact bare_repeatEquals F m
  · exact bare_andThen (bare_closeGroups F _ m) fun _ _ h => congr_of_bare (bare_complete F) h

theorem bare_percent
    (m : Engine) :
    m.bare.percent.bare = m.percent.bare := by
  unfold percent
  dsimp only
  rw [bare_leaveEquals, bare_settle, bare_percentOf, bare_current, bare_mode]
  split
  · simp [Reaction.bare]
  · exact bare_presentOperand _ _ _ _

theorem bare_unary
    (m : Engine) (f : ScientificFunction) :
    (m.bare.unary F f).bare = (m.unary F f).bare := by
  unfold unary
  rw [bare_onWords, bare_leaveEquals, bare_settle]
  split
  · exact bare_unchanged m
  · generalize m.leaveEquals.settle = s
    have hvalue : CalculationMode.unary F
        ({ s.bare with inverseArmed := false } : Engine).mode f s.bare.current
        m.bare.inverseArmed s.bare.angle =
        CalculationMode.unary F
          ({ s with inverseArmed := false } : Engine).mode f s.current m.inverseArmed s.angle :=
      rfl
    dsimp only
    rw [hvalue]
    split
    · simp [Reaction.bare, bare]
    · simp [Reaction.bare, bare, presentOperand]

/-! ### Memory, clearing and modes -/

theorem bare_memoryKey
    (m : Engine) (a : MemoryAction) :
    (m.bare.memoryKey a).bare = (m.memoryKey a).bare := by
  cases a with
  | «recall» =>
      simp only [memoryKey, bare_memory, bare_leaveEquals]
      split
      · exact bare_unchanged m
      · simp [Reaction.bare, bare]
        rfl
  | clear => simp [memoryKey, Reaction.bare, bare]
  | store | add | sub =>
      simp only [memoryKey, bare_settle, bare_mode, bare_current]
      simp [Reaction.bare, bare]

theorem bare_clear
    (m : Engine) :
    m.bare.clear.bare = m.clear.bare := by
  rfl

theorem bare_clearEntry
    (m : Engine) :
    m.bare.clearEntry.bare = m.clearEntry.bare := by
  simp only [clearEntry, bare_failed]
  split
  · exact bare_clear m
  · simp [Reaction.bare, bare]

theorem bare_setBase
    (m : Engine) (b : Base) :
    (m.bare.setBase b).bare = (m.setBase b).bare := by
  rw [setBase, setBase, bare_settle]
  simp [Reaction.bare, bare]

/-- The style does not appear in a bare state. -/
theorem bare_setStyle
    (m : Engine) (s t : NumberStyle) :
    (m.bare.setStyle s).bare = (m.setStyle t).bare := by
  rw [setStyle, setStyle, bare_settle]
  simp [Reaction.bare, bare]

theorem bare_adjustValues
    (m : Engine) :
    m.bare.adjustValues = m.adjustValues.bare := by
  unfold adjustValues
  rw [bare_mode]
  generalize m.mode.adjust = f
  simp [bare, Group.bare]

theorem bare_setWordSize
    (m : Engine) (w : WordSize) :
    (m.bare.setWordSize w).bare = (m.setWordSize w).bare := by
  have hsettled : ({ m.bare.settle with wordSize := w } : Engine) =
      ({ m.settle with wordSize := w } : Engine).bare := by
    rw [bare_settle]
    rfl
  unfold setWordSize
  rw [hsettled]
  generalize ({ m.settle with wordSize := w } : Engine) = s
  dsimp only
  rw [bare_onWords, bare_adjustValues]
  split
  · simp [Reaction.bare]
  · simp [Reaction.bare]

/-! ### All commands -/

/-- A command makes of a bare state what it makes of the full one, up to presentation. -/
theorem bare_execute
    (m : Engine) (c : Command) :
    (m.bare.execute F c).bare = (m.execute F c).bare := by
  cases c with
  | digit d => exact bare_digit m d
  | point => exact bare_point m
  | exponent => exact bare_exponent m
  | binary op => exact bare_binary F m op
  | percent => exact bare_percent m
  | equals => exact bare_equals F m
  | clear => exact bare_clear m
  | clearEntry => exact bare_clearEntry m
  | backspace => exact bare_backspace m
  | negate => exact bare_negate m
  | unary f => exact bare_unary F m f
  | memory a => exact bare_memoryKey m a
  | openParen => exact bare_openGroup m
  | closeParen => exact bare_closeGroup F m
  | base b => exact bare_setBase m b
  | wordSize w => exact bare_setWordSize m w
  | style s => exact bare_setStyle m s s
  | inverse | angle u => simp [execute, Reaction.bare, bare]

theorem execute_congr
    (h : m.bare = m'.bare) {c d : Command} (hcd : c.SameButStyle d) :
    (m.execute F c).bare = (m'.execute F d).bare := by
  cases hcd with
  | same c =>
      rw [← bare_execute F m, h, bare_execute F m']
  | style s t =>
      calc
        (m.setStyle s).bare = (m.bare.setStyle t).bare := (bare_setStyle m t s).symm
        _ = (m'.bare.setStyle t).bare := by rw [h]
        _ = (m'.setStyle t).bare := bare_setStyle m' t t

theorem step_congr
    (h : m.bare = m'.bare) {c d : Command} (hcd : c.SameButStyle d) :
    (m.step F c).1.bare = (m'.step F d).1.bare := by
  have hfailed : m.bare.failed = m'.bare.failed := congrArg Engine.failed h
  rw [bare_failed, bare_failed] at hfailed
  have hclearing : c.isClearing = d.isClearing := by
    cases hcd <;> rfl
  obtain ⟨hengine, herror⟩ := Prod.mk.inj (execute_congr F h hcd)
  unfold step
  rw [hfailed, hclearing]
  split
  · exact h
  · dsimp only
    rw [herror]
    split
    · exact hengine
    · exact congrArg (fun m : Engine => { m with failed := true, entering := false }) hengine

/-! ### Runs -/

theorem run_congr
    (h : m.bare = m'.bare) {cs ds : List Command} (hcs : List.Forall₂ Command.SameButStyle cs ds) :
    (m.run F cs).bare = (m'.run F ds).bare := by
  induction hcs generalizing m m' with
  | nil => exact h
  | cons hcd _ ih => exact ih (step_congr F h hcd)

/-- The state after a request. -/
def obey (m : Engine) : Request → Engine
  | .command c => (m.step F c).1
  | .settings s => (m.applySettings s).1

/-- Obeys requests in their order. -/
def obeyAll (m : Engine) (rs : List Request) : Engine := rs.foldl (obey F) m

/-- Settings that are taken over between the commands do not matter. -/
theorem obeyAll_bare
    (m : Engine) (rs : List Request) :
    (m.obeyAll F rs).bare = (m.run F (rs.filterMap Request.command?)).bare := by
  induction rs generalizing m with
  | nil => rfl
  | cons r rs ih =>
      cases r with
      | command c => exact ih (m.step F c).1
      | settings s =>
          have hbare : (m.applySettings s).1.bare = m.bare := rfl
          exact (ih _).trans (run_congr F hbare (List.forall₂_same.mpr fun c _ => .same c))

/-- Two states hold the same values and are in the same modes. -/
structure SameValues (m m' : Engine) : Prop where
  failed : m.failed = m'.failed
  current : m.current = m'.current
  held : m.held = m'.held
  lastOperator : m.lastOperator = m'.lastOperator
  memory : m.memory = m'.memory
  pending : m.pending = m'.pending
  /-- The chains outside the open groups. -/
  groups : m.groups.map (·.pending) = m'.groups.map (·.pending)
  entry : m.entry = m'.entry
  entering : m.entering = m'.entering
  inverseArmed : m.inverseArmed = m'.inverseArmed
  angle : m.angle = m'.angle
  base : m.base = m'.base
  wordSize : m.wordSize = m'.wordSize
  afterEquals : m.afterEquals = m'.afterEquals
  afterOperator : m.afterOperator = m'.afterOperator

theorem sameValues_of_bare
    (h : m.bare = m'.bare) :
    SameValues m m' := by
  have hgroups : (m.groups.map Group.bare).map (·.pending) =
      (m'.groups.map Group.bare).map (·.pending) :=
    congrArg (fun m : Engine => m.groups.map (·.pending)) h
  rw [List.map_map, List.map_map] at hgroups
  injection h
  constructor
  case groups => exact hgroups
  all_goals assumption

end Engine

variable (F : RealFunctions)

/--
Two engines with configurations that differ in the grouping of digits at most,
with any settings, obey commands that differ in the style of numbers at most,
and take over any other settings in between, each at its own times.  Then they
hold the same values after every command.
-/
theorem presentation_never_influences_values
    (config : Config) (grouping grouping' : Bool) (settings settings' : Settings)
    {rs rs' : List Request}
    (h : List.Forall₂ Command.SameButStyle
      (rs.filterMap Request.command?) (rs'.filterMap Request.command?)) :
    Engine.SameValues
      ((Engine.new { config with grouping := grouping } settings).obeyAll F rs)
      ((Engine.new { config with grouping := grouping' } settings').obeyAll F rs') := by
  apply Engine.sameValues_of_bare
  rw [Engine.obeyAll_bare, Engine.obeyAll_bare]
  have hnew : (Engine.new { config with grouping := grouping } settings).bare =
      (Engine.new { config with grouping := grouping' } settings').bare := rfl
  exact Engine.run_congr F hnew h

/-- A sum that is typed with points and shown in full. -/
def sampleRequests : List Request :=
  [.command (.style .floating), .command (.digit 1), .command .point, .command (.digit 5),
    .command (.binary .add), .command (.digit 2), .command .equals]

/-- The same sum, shown with commas and an exponent; the settings change while it is typed. -/
def sampleRequestsAbroad : List Request :=
  [.settings { decimalSeparator := "," }, .command (.style .scientific), .command (.digit 1),
    .command .point, .settings { decimalSeparator := ",", groupSeparator := "." },
    .command (.digit 5), .command (.binary .add), .command (.digit 2),
    .settings { groupSizes := "3;2" }, .command .equals]

/-- Both ways the sum is the same. -/
theorem sampleRequests_sameValues :
    List.Forall₂ Command.SameButStyle (sampleRequests.filterMap Request.command?)
        (sampleRequestsAbroad.filterMap Request.command?) ∧
      Engine.SameValues ((Engine.new {} {}).obeyAll .native sampleRequests)
        ((Engine.new { grouping := true } { decimalSeparator := "·" }).obeyAll .native
          sampleRequestsAbroad) := by
  have hcommands : List.Forall₂ Command.SameButStyle
      (sampleRequests.filterMap Request.command?)
      (sampleRequestsAbroad.filterMap Request.command?) :=
    .cons (.style _ _) (List.forall₂_same.mpr fun c _ => .same c)
  exact ⟨hcommands,
    presentation_never_influences_values .native {} false true {} { decimalSeparator := "·" }
      hcommands⟩

end DeskCalculator
