import DeskCalculator.Proofs.Expression.Evaluation

/-!
# Coherent states

The engine keeps four flags, the pending chain, the open groups and the words
of the expression line side by side, and many commands write only some of them.
In a state without error they fit together: precedences rise along every chain,
right after an operator its operand is the value at hand and its symbol the last
word, after `=` nothing is pending, and a number being typed has no other text.

After an error nothing of this needs to hold, so the invariant is about commands
that do not fail.

**Results.**
* `Coherent.execute`: a command that does not fail keeps a state coherent.
* `Reachable.coherent`: every reachable state without error is coherent.
* `Reachable.state_coherence`: what this says about the chains, the flags and
  the words, among it that no operation is ever refused for want of room.
-/

namespace DeskCalculator

/-- If a reaction that goes on does not fail, no part of it does. -/
theorem Reaction.andThen_of_error_eq_none
    {r : Reaction} {f : Engine → Reaction} (h : (r.andThen f).error = none) :
    r.error = none ∧ (f r.engine).error = none ∧
      (r.andThen f).engine = (f r.engine).engine := by
  unfold Reaction.andThen at h ⊢
  cases hr : r.error with
  | some e =>
      simp [hr] at h
  | none =>
      simp only [hr] at h
      exact ⟨rfl, h, rfl⟩

namespace Chain

variable {α : Type} {precedence : Bool} {c : Chain α}

/--
With precedences these rise along the chain, which has three operations at most,
and an operator of precedence zero stands alone; without precedences there is
one operation at most.
-/
structure Ordered (precedence : Bool) (c : Chain α) : Prop where
  rising : precedence = true → c.Pairwise fun s t => s.2.precedence < t.2.precedence
  length_le : precedence = true → c.length ≤ 3
  alone : precedence = true → ∀ t ∈ c, t.2.precedence = 0 → c = [t]
  single : precedence = false → c.length ≤ 1

/-- In a chain in which every operator waits for the later ones, none has precedence zero but alone. -/
theorem Waiting.alone
    (h : Waiting precedence c) {t : α × Operator} (ht : t ∈ c) (hzero : t.2.precedence = 0) :
    c = [t] := by
  obtain ⟨before, after, rfl⟩ := List.append_of_mem ht
  obtain ⟨-, htail, hcross⟩ := List.pairwise_append.mp h
  have hbefore : before = [] := by
    refine List.eq_nil_iff_forall_not_mem.mpr fun s hs => ?_
    have hlt := (hcross s hs t List.mem_cons_self).2.2
    omega
  have hafter : after = [] := by
    refine List.eq_nil_iff_forall_not_mem.mpr fun s hs => ?_
    have hpos := (List.rel_of_pairwise_cons htail hs).2.1
    omega
  rw [hbefore, hafter, List.nil_append]

/-- Without precedences nothing waits for a later operator. -/
theorem Waiting.length_le_one
    {c : Chain α} (h : Waiting false c) :
    c.length ≤ 1 := by
  match c, h with
  | [], _ | [_], _ => simp
  | s :: t :: _, h =>
      have hwait := List.rel_of_pairwise_cons h (List.mem_cons_self (a := t))
      exact absurd hwait.1 Bool.false_ne_true

theorem Waiting.ordered
    (h : Waiting precedence c) :
    Ordered precedence c where
  rising _ := h.imp fun hwait => hwait.2.2
  length_le _ := h.length_le
  alone _ _ ht hzero := h.alone ht hzero
  single hoff := by
    subst hoff
    exact h.length_le_one

/-- The order of a chain does not depend on its operands. -/
theorem Waiting.mapOperands
    (h : Waiting precedence c) (f : α → α) :
    Waiting precedence (c.mapOperands f) :=
  List.pairwise_map.mpr h

end Chain

namespace Engine

/-- The state right after the operator `op`. -/
structure FollowsOperator (m : Engine) (op : Operator) : Prop where
  pending : m.pending.getLast? = some (m.current, op)
  tokens : m.tokens.getLast? = some op.symbol
  entering : m.entering = false
  afterEquals : m.afterEquals = false
  operandText : m.operandText = none

/-- The parts of a state without error fit together. -/
structure Coherent (m : Engine) : Prop where
  pending : Chain.Waiting m.config.precedence m.pending
  groups : ∀ g ∈ m.groups,
    Chain.Waiting m.config.precedence g.pending ∧ g.tokens.getLast? = some "("
  afterOperator : m.afterOperator = true → ∃ op, m.FollowsOperator op
  afterEquals : m.afterEquals = true → m.pending = [] ∧ m.groups = [] ∧ m.entering = false
  entering : m.entering = true → m.operandText = none

variable {F : RealFunctions} {m : Engine}

theorem coherent_new
    (config : Config) (settings : Settings) :
    Coherent (Engine.new config settings) where
  pending := Chain.waiting_nil _
  groups := by simp [Engine.new]
  afterOperator := by simp [Engine.new]
  afterEquals := by simp [Engine.new]
  entering := by simp [Engine.new]

theorem Coherent.clear
    (m : Engine) :
    Coherent m.clear.engine where
  pending := Chain.waiting_nil _
  groups := by simp [Engine.clear]
  afterOperator := by simp [Engine.clear]
  afterEquals := by simp [Engine.clear]
  entering := by simp [Engine.clear]

/-! ### Typing -/

@[simp] theorem leaveEquals_afterEquals
    (m : Engine) :
    m.leaveEquals.afterEquals = false := by
  unfold leaveEquals
  split
  · rfl
  · simp_all

@[simp] theorem leaveEquals_entering
    (m : Engine) :
    m.leaveEquals.entering = m.entering := by
  unfold leaveEquals
  split <;> rfl

@[simp] theorem settle_groups
    (m : Engine) :
    m.settle.groups = m.groups := by
  unfold settle
  split <;> rfl

theorem Coherent.leaveEquals
    (h : Coherent m) :
    Coherent m.leaveEquals := by
  unfold Engine.leaveEquals
  split
  · rename_i hequals
    refine { h with afterOperator := fun hop => ?_, afterEquals := nofun }
    obtain ⟨op, hfollows⟩ := h.afterOperator hop
    exact absurd hequals (by simp [hfollows.afterEquals])
  · exact h

/-- While a number is typed the last key was neither an operator nor `=`. -/
theorem Coherent.flags_of_entering
    (h : Coherent m) (hentering : m.entering = true) :
    m.afterOperator = false ∧ m.afterEquals = false := by
  constructor
  · by_contra hop
    obtain ⟨op, hfollows⟩ := h.afterOperator (Bool.eq_true_of_not_eq_false hop)
    exact absurd hentering (by simp [hfollows.entering])
  · by_contra hequals
    have hdone := h.afterEquals (Bool.eq_true_of_not_eq_false hequals)
    exact absurd hentering (by simp [hdone.2.2])

theorem Coherent.settle
    (h : Coherent m) :
    Coherent m.settle := by
  unfold Engine.settle
  split
  · rename_i hentering
    obtain ⟨hop, hequals⟩ := h.flags_of_entering hentering
    exact { h with
      afterOperator := fun hop' => absurd hop' (by simp [hop])
      afterEquals := fun hequals' => absurd hequals' (by simp [hequals])
      entering := nofun }
  · exact h

theorem Coherent.startEntry
    (h : Coherent m) :
    Coherent m.startEntry := by
  unfold Engine.startEntry
  split
  · exact h
  · exact { h.leaveEquals with
      afterOperator := nofun
      afterEquals := fun hequals => absurd hequals (by simp)
      entering := fun _ => rfl }

/-- The entry is changed only while a number is typed. -/
theorem Coherent.updateEntry
    (h : Coherent m) (hentering : m.entering = true) (edited : Option Entry) :
    Coherent (m.updateEntry edited).engine := by
  obtain ⟨hop, -⟩ := h.flags_of_entering hentering
  cases edited with
  | none => exact h
  | some entry =>
      exact { h with
        afterOperator := fun hop' => absurd hop' (by simp [Engine.updateEntry, hop]) }

theorem startEntry_entering
    (m : Engine) :
    m.startEntry.entering = true := by
  unfold startEntry
  split
  · assumption
  · rfl

/-- A key of the entry. -/
theorem Coherent.startEntry_updateEntry
    (h : Coherent m) (edited : Option Entry) :
    Coherent (m.startEntry.updateEntry edited).engine :=
  h.startEntry.updateEntry (startEntry_entering m) edited

theorem Coherent.presentOperand
    (h : Coherent m) (hentering : m.entering = false) (v : Ratio) (text : String) :
    Coherent (m.presentOperand v text).engine :=
  { h with
    afterOperator := nofun
    entering := fun hentering' => absurd hentering' (by simp [Engine.presentOperand, hentering]) }

theorem Coherent.negate
    (h : Coherent m) :
    Coherent m.negate.engine := by
  unfold Engine.negate
  split
  · rename_i hentering
    exact h.updateEntry hentering _
  · rename_i hentering
    exact h.leaveEquals.presentOperand (by simpa using hentering) _ _

/-! ### Operators -/

/-- The state in which an operator folds the chain. -/
structure OperandTaken (m : Engine) : Prop where
  pending : Chain.Waiting m.config.precedence m.pending
  groups : ∀ g ∈ m.groups,
    Chain.Waiting m.config.precedence g.pending ∧ g.tokens.getLast? = some "("
  entering : m.entering = false
  operandText : m.operandText = none

theorem Coherent.disarmFor
    (h : Coherent m) (op : Operator) :
    Coherent (m.disarmFor op) := by
  unfold Engine.disarmFor
  split
  · refine { h with afterOperator := fun hop => ?_ }
    obtain ⟨last, hfollows⟩ := h.afterOperator hop
    exact ⟨last, { hfollows with }⟩
  · exact h

/-- Right after an operator its operand, the value at hand, is taken back with its symbol. -/
theorem FollowsOperator.takeLeftOperand
    {op : Operator} (h : m.FollowsOperator op) (hop : m.afterOperator = true) :
    m.takeLeftOperand =
      ({ m with pending := m.pending.dropLast, tokens := m.tokens.dropLast }, m.current) := by
  unfold Engine.takeLeftOperand
  rw [if_pos hop, h.pending]

/-- Otherwise it is the value at hand once the typing has ended. -/
theorem takeLeftOperand_of_not_afterOperator
    (hop : m.afterOperator = false) :
    m.takeLeftOperand =
      ({ m.leaveEquals.settle with
          tokens := m.leaveEquals.settle.tokens ++ [m.leaveEquals.settle.operandLabel]
          operandText := none },
        m.leaveEquals.settle.current) := by
  unfold Engine.takeLeftOperand
  rw [if_neg (by simp [hop])]

theorem Coherent.takeLeftOperand
    (h : Coherent m) :
    OperandTaken m.takeLeftOperand.1 := by
  cases hop : m.afterOperator with
  | true =>
      obtain ⟨op, hfollows⟩ := h.afterOperator hop
      rw [hfollows.takeLeftOperand hop]
      exact {
        pending := h.pending.sublist (List.dropLast_sublist _)
        groups := h.groups
        entering := hfollows.entering
        operandText := hfollows.operandText }
  | false =>
      rw [takeLeftOperand_of_not_afterOperator hop]
      have hsettled := h.leaveEquals.settle
      exact {
        pending := hsettled.pending
        groups := hsettled.groups
        entering := settle_entering _
        operandText := rfl }

/-- What is left of a folded chain has room for the next operation. -/
theorem OperandTaken.push
    (h : OperandTaken m) {op : Operator} {right v : Ratio} {rest : Chain Ratio}
    (hfold : m.foldPending F (m.threshold op) right = .ok (v, rest)) :
    rest.push v op = .ok (rest ++ [(v, op)]) :=
  h.pending.push_folded hfold op

theorem Coherent.binary
    (h : Coherent m) (op : Operator) (herror : (m.binary F op).error = none) :
    Coherent (m.binary F op).engine := by
  unfold Engine.binary at herror ⊢
  dsimp only at herror ⊢
  have htaken := (h.disarmFor (m.effectiveOperator op)).takeLeftOperand
  split at herror
  · cases herror
  · rename_i v rest hfold
    simp only [htaken.push hfold]
    exact {
      pending := waiting_folded htaken.pending hfold
      groups := htaken.groups
      afterOperator := fun _ => ⟨m.effectiveOperator op, {
        pending := List.getLast?_concat
        tokens := List.getLast?_concat
        entering := htaken.entering
        afterEquals := rfl
        operandText := htaken.operandText }⟩
      afterEquals := nofun
      entering := fun _ => htaken.operandText }

/-! ### Parentheses -/

theorem Coherent.openGroup
    (h : Coherent m) (herror : m.openGroup.error = none) :
    Coherent m.openGroup.engine := by
  unfold Engine.openGroup at herror ⊢
  split at herror
  · cases herror
  · rename_i hroom
    rw [if_neg hroom]
    have hm := h.leaveEquals
    refine {
      pending := Chain.waiting_nil _
      groups := fun g hg => ?_
      afterOperator := nofun
      afterEquals := fun hequals => absurd hequals (by simp)
      entering := nofun }
    rcases List.mem_cons.mp hg with rfl | hg
    · exact ⟨hm.pending, List.getLast?_concat⟩
    · exact hm.groups g hg

/-- Closing a group that does not fail leaves the groups outside. -/
theorem Coherent.closeGroup
    (h : Coherent m) (herror : (m.closeGroup F).error = none) :
    Coherent (m.closeGroup F).engine ∧ (m.closeGroup F).engine.groups = m.groups.tail := by
  unfold Engine.closeGroup at herror ⊢
  cases hgroups : m.groups with
  | nil =>
      exact ⟨h, by simpa using hgroups⟩
  | cons group groups =>
      simp only [hgroups] at herror ⊢
      have hm := h.settle
      have hmem := h.groups
      rw [hgroups] at hmem
      -- an open group is not compatible with a result of `=`
      have hequals : m.settle.afterEquals = false := by
        by_contra hequals
        have hdone := (hm.afterEquals (Bool.eq_true_of_not_eq_false hequals)).2.1
        rw [settle_groups, hgroups] at hdone
        cases hdone
      split at herror
      · cases herror
      · refine ⟨?_, rfl⟩
        exact {
          pending := by
            have hgroup := (hmem group List.mem_cons_self).1
            simpa [Engine.presentOperand] using hgroup
          groups := by
            intro g hg
            have hg' := hmem g (List.mem_cons_of_mem _ hg)
            simpa [Engine.presentOperand] using hg'
          afterOperator := nofun
          afterEquals := fun hequals' => absurd hequals' (by simp [Engine.presentOperand, hequals])
          entering := fun hentering => absurd hentering
            (by simp [Engine.presentOperand, settle_entering]) }

/-- Closing groups one after the other leaves one group less each time. -/
theorem Coherent.closeGroups
    (h : Coherent m) (n : Nat) (herror : (closeGroups F n m).error = none) :
    Coherent (closeGroups F n m).engine ∧ (closeGroups F n m).engine.groups = m.groups.drop n := by
  induction n generalizing m with
  | zero =>
      exact ⟨h, rfl⟩
  | succ n ih =>
      rw [Engine.closeGroups] at herror ⊢
      obtain ⟨hfirst, hrest, hengine⟩ := Reaction.andThen_of_error_eq_none herror
      obtain ⟨hcoherent, hgroups⟩ := h.closeGroup hfirst
      obtain ⟨hrestCoherent, hrestGroups⟩ := ih hcoherent hrest
      rw [hengine]
      refine ⟨hrestCoherent, ?_⟩
      rw [hrestGroups, hgroups, List.drop_tail]

/-! ### Equals -/

/-- With no group open, the calculation leaves nothing pending. -/
theorem Coherent.complete
    (h : Coherent m) (hgroups : m.groups = []) (herror : (complete F m).error = none) :
    Coherent (complete F m).engine := by
  unfold Engine.complete at herror ⊢
  dsimp only at herror ⊢
  have hm := h.settle
  split at herror
  · cases herror
  · rename_i v rest hfold
    have hrest : rest = [] := (value_folded_none hm.pending _).2 (v, rest) hfold
    exact {
      pending := by
        rw [hrest]
        exact Chain.waiting_nil _
      groups := hm.groups
      afterOperator := nofun
      afterEquals := fun _ => ⟨hrest, by simpa using hgroups, settle_entering m⟩
      entering := fun hentering => absurd hentering (by simp [settle_entering]) }

/-- A repeated result stays a result. -/
theorem Coherent.repeatEquals
    (h : Coherent m) (hequals : m.afterEquals = true)
    (herror : (m.repeatEquals F).error = none) :
    Coherent (m.repeatEquals F).engine := by
  obtain ⟨-, -, hentering⟩ := h.afterEquals hequals
  unfold Engine.repeatEquals at herror ⊢
  split at herror
  · exact h
  · rw [settle_of_not_entering hentering] at herror ⊢
    dsimp only at herror ⊢
    split at herror
    · cases herror
    · refine { h with afterOperator := fun hop => ?_ }
      obtain ⟨op, hfollows⟩ := h.afterOperator hop
      exact absurd hequals (by simp [hfollows.afterEquals])

theorem Coherent.equals
    (h : Coherent m) (herror : (m.equals F).error = none) :
    Coherent (m.equals F).engine := by
  unfold Engine.equals at herror ⊢
  split at herror
  · rename_i hequals
    rw [if_pos hequals]
    exact h.repeatEquals hequals herror
  · rename_i hequals
    obtain ⟨hclose, hcomplete, hengine⟩ := Reaction.andThen_of_error_eq_none herror
    obtain ⟨hcoherent, hgroups⟩ := h.closeGroups _ hclose
    rw [List.drop_length] at hgroups
    rw [if_neg hequals, hengine]
    exact hcoherent.complete hgroups hcomplete

/-! ### Functions -/

theorem Coherent.percent
    (h : Coherent m) (herror : m.percent.error = none) :
    Coherent m.percent.engine := by
  unfold Engine.percent at herror ⊢
  dsimp only at herror ⊢
  split at herror
  · cases herror
  · exact h.leaveEquals.settle.presentOperand (settle_entering _) _ _

/-- Arming or disarming the inverse leaves everything else. -/
theorem Coherent.withInverseArmed
    (h : Coherent m) (armed : Bool) :
    Coherent { m with inverseArmed := armed } := by
  refine { h with afterOperator := fun hop => ?_ }
  obtain ⟨op, hfollows⟩ := h.afterOperator hop
  exact ⟨op, { hfollows with }⟩

theorem Coherent.unary
    (h : Coherent m) (f : ScientificFunction) (herror : (m.unary F f).error = none) :
    Coherent (m.unary F f).engine := by
  unfold Engine.unary at herror ⊢
  split at herror
  · rename_i hignored
    rw [if_pos hignored]
    exact h
  · rename_i hadmitted
    rw [if_neg hadmitted]
    dsimp only at herror ⊢
    split at herror
    · cases herror
    · exact (h.leaveEquals.settle.withInverseArmed false).presentOperand (settle_entering _) _ _

/-! ### Memory, clearing and modes -/

/-- The memory takes no part in the calculation. -/
theorem Coherent.withMemory
    (h : Coherent m) (memory : Option Ratio) :
    Coherent { m with memory } := by
  refine { h with afterOperator := fun hop => ?_ }
  obtain ⟨op, hfollows⟩ := h.afterOperator hop
  exact ⟨op, { hfollows with }⟩

theorem Coherent.memoryKey
    (h : Coherent m) (a : MemoryAction) :
    Coherent (m.memoryKey a).engine := by
  cases a with
  | «recall» =>
      cases hmemory : m.memory with
      | none => simpa only [Engine.memoryKey, hmemory] using h
      | some v =>
          simp only [Engine.memoryKey, hmemory]
          exact { h.leaveEquals with
            afterOperator := fun hop => absurd hop Bool.false_ne_true
            afterEquals := fun hequals => absurd hequals (by simp)
            entering := fun hentering => absurd hentering Bool.false_ne_true }
  | clear => exact h.withMemory _
  | _ => exact h.settle.withMemory _

theorem Coherent.clearEntry
    (h : Coherent m) :
    Coherent m.clearEntry.engine := by
  unfold Engine.clearEntry
  split
  · exact Coherent.clear m
  · exact { h with
      afterOperator := nofun
      afterEquals := fun hequals => ⟨(h.afterEquals hequals).1, (h.afterEquals hequals).2.1, rfl⟩
      entering := nofun }

/-- The modes of numbers take no part in how the parts of the state fit together. -/
theorem Coherent.withModes
    (h : Coherent m) (angle : AngleUnit) (base : Base) (wordSize : WordSize)
    (style : NumberStyle) :
    Coherent { m with angle, base, wordSize, style } := by
  refine { h with afterOperator := fun hop => ?_ }
  obtain ⟨op, hfollows⟩ := h.afterOperator hop
  exact ⟨op, { hfollows with }⟩

/-- The value at hand and the operands of the chain are adjusted alike. -/
theorem Coherent.adjustValues
    (h : Coherent m) :
    Coherent m.adjustValues where
  pending := h.pending.mapOperands _
  groups := by
    intro g hg
    obtain ⟨g', hg', rfl⟩ := List.mem_map.mp hg
    obtain ⟨hwaiting, htokens⟩ := h.groups g' hg'
    exact ⟨hwaiting.mapOperands _, htokens⟩
  afterOperator := by
    intro hop
    obtain ⟨op, hfollows⟩ := h.afterOperator hop
    refine ⟨op, { hfollows with pending := ?_ }⟩
    simp [Engine.adjustValues, Chain.mapOperands, List.getLast?_map, hfollows.pending]
  afterEquals := by
    intro hequals
    obtain ⟨hpending, hgroups, hentering⟩ := h.afterEquals hequals
    simp [Engine.adjustValues, Chain.mapOperands, hpending, hgroups, hentering]
  entering := h.entering

theorem Coherent.setWordSize
    (h : Coherent m) (w : WordSize) :
    Coherent (m.setWordSize w).engine := by
  have hm := h.settle.withModes m.settle.angle m.settle.base w m.settle.style
  simp only [Engine.setWordSize]
  split
  · exact hm.adjustValues
  · exact hm

/-! ### All commands -/

/-- A command that does not fail keeps a state coherent. -/
theorem Coherent.execute
    (h : Coherent m) (c : Command) (herror : (m.execute F c).error = none) :
    Coherent (m.execute F c).engine := by
  cases c with
  | digit d =>
      simp only [Engine.execute, digit]
      split
      · exact h
      · exact h.startEntry_updateEntry _
  | point =>
      simp only [Engine.execute, point]
      split
      · exact h
      · exact h.startEntry_updateEntry _
  | exponent =>
      simp only [Engine.execute, exponent]
      split
      · exact h
      · exact h.startEntry_updateEntry _
  | backspace =>
      simp only [Engine.execute, backspace]
      split
      · exact h.updateEntry ‹_› _
      · exact h
  | binary op => exact h.binary op herror
  | percent => exact h.percent herror
  | equals => exact h.equals herror
  | clear => exact Coherent.clear m
  | clearEntry => exact h.clearEntry
  | negate => exact h.negate
  | unary f => exact h.unary f herror
  | inverse => exact h.withInverseArmed _
  | memory a => exact h.memoryKey a
  | openParen => exact h.openGroup herror
  | closeParen => exact (h.closeGroup herror).1
  | angle u => exact h.withModes u m.base m.wordSize m.style
  | base b => exact h.settle.withModes m.settle.angle b m.settle.wordSize m.settle.style
  | style s => exact h.settle.withModes m.settle.angle m.settle.base m.settle.wordSize s
  | wordSize w => exact h.setWordSize w

/-- A step from a state with an error ends the error only by clearing everything. -/
theorem step_failed_cases
    (hm : m.failed = true) (c : Command) :
    (m.step F c).1 = m ∨ (m.step F c).1 = m.clear.engine := by
  cases c with
  | clear => exact Or.inr (by rw [step_clear])
  | clearEntry => exact Or.inr (by rw [step_clearEntry_of_failed F hm])
  | _ => exact Or.inl (by rw [step_of_failed F hm rfl])

/-- What a step to a state without error keeps. -/
theorem Coherent.step
    (h : m.failed = false → Coherent m) (c : Command) (hstep : (m.step F c).1.failed = false) :
    Coherent (m.step F c).1 := by
  cases hm : m.failed with
  | true =>
      rcases step_failed_cases (F := F) hm c with heq | heq
      · rw [heq] at hstep
        exact absurd hm (by simp [hstep])
      · rw [heq]
        exact Coherent.clear m
  | false =>
      rw [step_eq F hm] at hstep ⊢
      cases herror : (m.execute F c).error with
      | some e =>
          rw [herror] at hstep
          cases hstep
      | none => exact (h hm).execute c herror

/-- Every reachable state without error is coherent. -/
theorem Reachable.coherent
    (h : Reachable F m) (hm : m.failed = false) :
    Coherent m := by
  induction h with
  | new config settings => exact coherent_new config settings
  | step h c ih => exact Coherent.step ih c hm

/--
In every reachable state without error:
the operators of all chains are in order, so that there is always room for one
more operation; right after an operator the operand and the symbol that the next
operator takes back are those of the last operation; after `=` nothing is
pending or open; a number being typed is not written otherwise; and the words of
an open group end with its parenthesis.
-/
theorem Reachable.state_coherence
    (h : Reachable F m) (hm : m.failed = false) :
    (m.pending.Ordered m.config.precedence ∧
        ∀ g ∈ m.groups, g.pending.Ordered m.config.precedence) ∧
      (∀ (op : Operator) (left : Engine) (right v : Ratio) (rest : Chain Ratio),
        (m.disarmFor op).takeLeftOperand = (left, right) →
        left.foldPending F (left.threshold op) right = .ok (v, rest) →
          rest.push v op = .ok (rest ++ [(v, op)])) ∧
      (m.afterOperator = true → ∃ op, m.FollowsOperator op ∧
        ∀ next, (m.disarmFor next).takeLeftOperand =
          ({ m.disarmFor next with
              pending := m.pending.dropLast, tokens := m.tokens.dropLast }, m.current)) ∧
      (m.afterEquals = true → m.pending = [] ∧ m.groups = [] ∧ m.entering = false) ∧
      (m.entering = true → m.operandText = none) ∧
      ∀ g ∈ m.groups, g.tokens.getLast? = some "(" := by
  have hcoherent := h.coherent hm
  refine ⟨⟨hcoherent.pending.ordered, fun g hg => (hcoherent.groups g hg).1.ordered⟩, ?_, ?_,
    hcoherent.afterEquals, hcoherent.entering, fun g hg => (hcoherent.groups g hg).2⟩
  · intro op left right v rest htake hfold
    have htaken := (hcoherent.disarmFor op).takeLeftOperand
    rw [htake] at htaken
    exact htaken.push hfold
  · intro hop
    obtain ⟨op, hfollows⟩ := hcoherent.afterOperator hop
    refine ⟨op, hfollows, fun next => ?_⟩
    unfold Engine.disarmFor
    split
    · exact FollowsOperator.takeLeftOperand { hfollows with } hop
    · exact hfollows.takeLeftOperand hop

/-- A group that waits for an operand, in a sum outside. -/
def sampleGroup : Engine :=
  (Engine.new {} {}).run .native
    [.digit 2, .binary .add, .openParen, .digit 3, .binary .mul]

/-- In the sample the product waits alone inside the group, and its operand may be taken back. -/
theorem sampleGroup_coherence :
    Reachable .native sampleGroup ∧ sampleGroup.failed = false ∧
      sampleGroup.afterOperator = true ∧ sampleGroup.groups.length = 1 ∧
      sampleGroup.pending.Ordered true ∧
      (∀ g ∈ sampleGroup.groups, g.pending.Ordered true ∧ g.tokens.getLast? = some "(") ∧
      ∃ op, sampleGroup.FollowsOperator op := by
  have hreachable : Reachable .native sampleGroup := (Reachable.new _ _).run _ _
  have hfailed : sampleGroup.failed = false := rfl
  have hop : sampleGroup.afterOperator = true := rfl
  obtain ⟨⟨hpending, hsaved⟩, -, hoperator, -, -, hwords⟩ := hreachable.state_coherence hfailed
  obtain ⟨op, hfollows, -⟩ := hoperator hop
  exact ⟨hreachable, hfailed, hop, rfl, hpending, fun g hg => ⟨hsaved g hg, hwords g hg⟩,
    op, hfollows⟩

end Engine
end DeskCalculator
