import DeskCalculator.Proofs.Engine.Calculation
import DeskCalculator.Proofs.Expression.Grammar
import DeskCalculator.Proofs.ScaledNumber.Root

/-!
# The engine evaluates typed expressions

The engine never builds the tree of an expression.  While one is typed, the
pending chain and the value at hand stand for what has been typed of the
innermost level: with any continuation they are worth the same.  An operator
folds the chain and keeps this; a closing parenthesis folds all of it and hands
the value of the group to the level outside.

**Results.**
* `run_operand_keys`, `run_expression_keys`: what the keys of an operand and of
  an expression leave behind, by induction on both together.
* `run_expression_equals`: an expression and `=` on a cleared engine.
-/

namespace DeskCalculator

/-- An operand alone is worth itself. -/
theorem Level.value_operand
    {α : Type} (apply : Operator → α → α → Option α) (precedence : Bool) (v : α) :
    Level.value apply precedence (v, []) = some v := by
  cases precedence <;> rfl

/-- A single operator is applied to its two operands. -/
theorem Level.value_application
    {α : Type} (apply : Operator → α → α → Option α) (precedence : Bool) (v w : α)
    (op : Operator) :
    Level.value apply precedence (v, [(op, w)]) = apply op v w := by
  have h : Level.value apply precedence (Level.join [] (v, [(op, w)])) =
      (apply op v w).bind fun r => Level.value apply precedence (Level.join [] (r, [])) :=
    Level.value_join_step apply (by simp) v w (by simp)
  simpa [Level.value_operand] using h

namespace Engine

variable {F : RealFunctions}

/-! ### Thresholds -/

/-- The operators that a new operator makes eligible are those that do not wait for it. -/
theorem isEligible_threshold
    (m : Engine) (op pending : Operator) :
    Chain.isEligible (m.threshold op) pending = true ↔
      ¬Level.WaitsFor m.config.precedence pending op := by
  unfold threshold Level.WaitsFor
  cases m.config.precedence with
  | false =>
      simp [Chain.isEligible]
  | true =>
      simp only [Chain.isEligible, if_true, Bool.or_eq_true, decide_eq_true_eq, true_and]
      omega

/-! ### States while an expression is typed -/

/-- Two engines type and calculate in the same way. -/
structure SameModes (m₀ m : Engine) : Prop where
  config : m.config = m₀.config
  base : m.base = m₀.base
  wordSize : m.wordSize = m₀.wordSize

namespace SameModes

variable {m₀ m : Engine}

theorem mode_eq
    (h : SameModes m₀ m) :
    m.mode = m₀.mode := by
  simp only [mode, h.config, h.wordSize]

theorem entryRules_eq
    (h : SameModes m₀ m) :
    m.entryRules = m₀.entryRules := by
  simp only [entryRules, h.config, h.base, h.wordSize]

end SameModes

/-- What holds while an expression is typed, whatever the last key was. -/
structure Typing (m₀ m : Engine) (groups : List Group) (pending : Chain Ratio) : Prop where
  same : SameModes m₀ m
  failed : m.failed = false
  inverseArmed : m.inverseArmed = false
  afterEquals : m.afterEquals = false
  groups : m.groups = groups
  pending : m.pending = pending

/-- An operand has to be typed next. -/
structure Awaits (m₀ m : Engine) (groups : List Group) (pending : Chain Ratio) : Prop
    extends Typing m₀ m groups pending where
  entering : m.entering = false

/-- A literal is being typed. -/
structure Enters (m₀ m : Engine) (groups : List Group) (pending : Chain Ratio)
    (entry : Entry) : Prop extends Typing m₀ m groups pending where
  entering : m.entering = true
  entry : m.entry = entry
  afterOperator : m.afterOperator = false

/-- An operand of the given value has been typed. -/
structure HasOperand (m₀ m : Engine) (groups : List Group) (pending : Chain Ratio)
    (v : Ratio) : Prop extends Typing m₀ m groups pending where
  current : m.settle.current = v
  afterOperator : m.afterOperator = false

variable {m₀ m : Engine} {groups : List Group} {pending : Chain Ratio}

/-! ### Literals -/

theorem Awaits.startEntry
    (h : Awaits m₀ m groups pending) :
    Enters m₀ m.startEntry groups pending {} := by
  have hstart : m.startEntry =
      { m with entry := {}, entering := true, operandText := none, afterOperator := false } := by
    simp [Engine.startEntry, leaveEquals, h.entering, h.afterEquals]
  rw [hstart]
  exact ⟨⟨⟨h.same.config, h.same.base, h.same.wordSize⟩, h.failed, h.inverseArmed,
    h.afterEquals, h.groups, h.pending⟩, rfl, rfl, rfl⟩

theorem Enters.startEntry
    {e : Entry} (h : Enters m₀ m groups pending e) :
    m.startEntry = m := by
  simp [Engine.startEntry, h.entering]

/-- A key that the entry accepts is taken over. -/
theorem Enters.updateEntry
    {e e' : Entry} (h : Enters m₀ m groups pending e) :
    Enters m₀ (m.updateEntry (some e')).engine groups pending e' where
  same := ⟨h.same.config, h.same.base, h.same.wordSize⟩
  failed := h.failed
  inverseArmed := h.inverseArmed
  afterEquals := h.afterEquals
  groups := h.groups
  pending := h.pending
  entering := h.entering
  entry := rfl
  afterOperator := h.afterOperator

/-- Starting an entry changes no mode. -/
theorem SameModes.of_startEntry
    (h : SameModes m₀ m.startEntry) :
    SameModes m₀ m := by
  have hleave : SameModes m m.startEntry := by
    unfold Engine.startEntry leaveEquals
    split
    · exact ⟨rfl, rfl, rfl⟩
    · split <;> exact ⟨rfl, rfl, rfl⟩
  exact ⟨hleave.config.symm.trans h.config, hleave.base.symm.trans h.base,
    hleave.wordSize.symm.trans h.wordSize⟩

/-- An accepted key starts an entry if need be and goes into it. -/
theorem execute_key
    {e e' : Entry} {k : EntryKey}
    (h : Enters m₀ m.startEntry groups pending e)
    (hk : e.press? m₀.entryRules k = some e') :
    m.execute F k.command = m.startEntry.updateEntry (some e') := by
  have hsame := h.same.of_startEntry
  rw [← hsame.entryRules_eq] at hk
  cases k with
  | digit d =>
      simp only [Entry.press?] at hk
      have hd : ¬m.base.radix ≤ d := by
        intro hle
        simp [Entry.typeDigit?, entryRules, hle] at hk
      simp only [EntryKey.command, execute, digit, if_neg hd, h.entry, hk]
  | point =>
      simp only [Entry.press?, Option.ite_none_left_eq_some] at hk
      obtain ⟨hreal, hk⟩ := hk
      have hwords : ¬m.config.onWords = true := hreal
      simp only [EntryKey.command, execute, point, if_neg hwords, h.entry, hk]
  | exponent =>
      simp only [Entry.press?, Option.ite_none_left_eq_some, not_or, not_not] at hk
      obtain ⟨⟨hreal, hten⟩, hk⟩ := hk
      have hwords : ¬m.config.onWords = true := hreal
      have hdecimal : m.base = .decimal := by
        revert hten
        simp only [entryRules]
        cases m.base <;> simp [Base.radix]
      have hkey : ¬(m.config.onWords = true ∨ m.base ≠ .decimal) := by
        simp [hwords, hdecimal]
      simp only [EntryKey.command, execute, exponent, if_neg hkey, h.entry, hk]

theorem step_key
    {e e' : Entry} {k : EntryKey}
    (hm : m.failed = false) (h : Enters m₀ m.startEntry groups pending e)
    (hk : e.press? m₀.entryRules k = some e') :
    Enters m₀ (m.step F k.command).1 groups pending e' := by
  rw [step_eq F hm, execute_key h hk, updateEntry_error]
  exact h.updateEntry

/-- The keys of a literal, once the first of them has started an entry. -/
theorem run_entry_keys
    {ks : List EntryKey} {e e' : Entry}
    (h : Enters m₀ m groups pending e)
    (hks : ks.foldlM (Entry.press? m₀.entryRules) e = some e') :
    Enters m₀ (m.run F (ks.map EntryKey.command)) groups pending e' := by
  induction ks generalizing m e with
  | nil =>
      cases hks
      exact h
  | cons k ks ih =>
      rw [List.foldlM_cons] at hks
      obtain ⟨e₁, hk, hks⟩ := Option.bind_eq_some_iff.mp hks
      refine ih (step_key h.failed ?_ hk) hks
      rw [h.startEntry]
      exact h

/-- A number being typed that is legible is not thrown away. -/
theorem Enters.holds
    {e : Entry} (h : Enters m₀ m groups pending e)
    (hmax : 0 < m₀.entryRules.maxDigits) (he : e.Legible m₀.entryRules) :
    HasOperand m₀ m groups pending (m₀.mode.adjust (e.value m₀.base.radix)) where
  toTyping := h.toTyping
  current := by
    obtain ⟨hpos, hradix⟩ := radix_bounds m₀
    have hvalid := he.isValid_text hpos hradix hmax
    have hvalue : m.entryValue = e.value m₀.base.radix := by
      simp only [entryValue, h.same.entryRules_eq, h.entry, hvalid, if_true]
      rfl
    simp only [settle, h.entering, if_true, h.same.mode_eq, hvalue]
  afterOperator := h.afterOperator

/-- A literal. -/
theorem run_literal_keys
    (hmax : 0 < m₀.entryRules.maxDigits)
    (h : Awaits m₀ m groups pending) (l : Literal m₀.entryRules) :
    HasOperand m₀ (m.run F (l.keys.map EntryKey.command)) groups pending
      ((m₀.meaning F).literal l) := by
  have hlegible := l.legible (radix_bounds m₀).1 hmax
  refine Enters.holds ?_ hmax hlegible
  have hkeys := l.accepted
  cases hk : l.keys with
  | nil =>
      exact absurd hk l.keys_ne_nil
  | cons k ks =>
      rw [hk, List.foldlM_cons] at hkeys
      obtain ⟨e, hfirst, hrest⟩ := Option.bind_eq_some_iff.mp hkeys
      rw [List.map_cons, run_cons]
      exact run_entry_keys (step_key h.failed h.startEntry hfirst) hrest

/-! ### Operators and parentheses -/

/-- With the operand settled the rest of the state is as it was. -/
theorem Typing.settle
    (h : Typing m₀ m groups pending) :
    Typing m₀ m.settle groups pending := by
  unfold Engine.settle
  split
  · exact ⟨⟨h.same.config, h.same.base, h.same.wordSize⟩, h.failed, h.inverseArmed,
      h.afterEquals, h.groups, h.pending⟩
  · exact h

theorem settle_of_not_entering
    {m : Engine} (h : m.entering = false) :
    m.settle = m := by
  simp [settle, h]

theorem HasOperand.of_not_entering
    {v : Ratio} (h : Typing m₀ m groups pending) (hentering : m.entering = false)
    (hcurrent : m.current = v) (hafter : m.afterOperator = false) :
    HasOperand m₀ m groups pending v where
  toTyping := h
  current := by
    rw [settle_of_not_entering hentering]
    exact hcurrent
  afterOperator := hafter

theorem leaveEquals_of_not_afterEquals
    {m : Engine} (h : m.afterEquals = false) :
    m.leaveEquals = m := by
  simp [leaveEquals, h]

/-- The outcome of folding a chain in the modes of an engine. -/
def folded (F : RealFunctions) (m : Engine) (threshold : Option Nat)
    (pending : Chain Ratio) (v : Ratio) : Except CalcError (Ratio × Chain Ratio) :=
  (pending.fold (m.mode.binary F) threshold v).result

theorem Typing.foldPending_eq
    (h : Typing m₀ m groups pending) (threshold : Option Nat) (v : Ratio) :
    m.foldPending F threshold v = folded F m₀ threshold pending v := by
  simp only [foldPending, folded, h.pending, h.same.mode_eq]

/-- The operand that an operator takes has been typed before it. -/
theorem HasOperand.takeLeftOperand
    {v : Ratio} (h : HasOperand m₀ m groups pending v) :
    Typing m₀ m.takeLeftOperand.1 groups pending ∧
      m.takeLeftOperand.1.entering = false ∧ m.takeLeftOperand.2 = v := by
  have hsettle := h.settle
  have hentering := settle_entering m
  simp only [Engine.takeLeftOperand, h.afterOperator, Bool.false_eq_true, if_false,
    leaveEquals_of_not_afterEquals h.afterEquals, h.current, and_true]
  exact ⟨⟨⟨hsettle.same.config, hsettle.same.base, hsettle.same.wordSize⟩, hsettle.failed,
    hsettle.inverseArmed, hsettle.afterEquals, hsettle.groups, hsettle.pending⟩, hentering⟩

/-- Without the inverse an operator is the one meant. -/
theorem effectiveOperator_of_not_armed
    {m : Engine} (h : m.inverseArmed = false) (op : Operator) :
    m.effectiveOperator op = op := by
  unfold effectiveOperator
  rw [h]
  cases op <;> rfl

theorem disarmFor_of_not_armed
    {m : Engine} (h : m.inverseArmed = false) (op : Operator) :
    m.disarmFor op = m := by
  unfold disarmFor
  split
  · rw [← h]
  · rfl

theorem SameModes.threshold_eq
    (h : SameModes m₀ m) (op : Operator) :
    m.threshold op = m₀.threshold op := by
  simp only [threshold, h.config]

/-- An operator folds what does not wait for it and is put behind the rest. -/
theorem HasOperand.step_binary
    {v : Ratio} (h : HasOperand m₀ m groups pending v)
    (hwaiting : Chain.Waiting m₀.config.precedence pending) (op : Operator) :
    match folded F m₀ (m₀.threshold op) pending v with
    | .error _ => (m.step F (.binary op)).1.failed = true
    | .ok r => Awaits m₀ (m.step F (.binary op)).1 groups (r.2 ++ [(r.1, op)]) := by
  obtain ⟨htaken, hentering, hv⟩ := h.takeLeftOperand
  rw [step_eq F h.failed]
  simp only [execute, binary, effectiveOperator_of_not_armed h.inverseArmed,
    disarmFor_of_not_armed h.inverseArmed, htaken.foldPending_eq, hv,
    htaken.same.threshold_eq]
  cases hfold : folded F m₀ (m₀.threshold op) pending v with
  | error e =>
      rfl
  | ok r =>
      simp only [hwaiting.push_folded hfold]
      exact ⟨⟨⟨htaken.same.config, htaken.same.base, htaken.same.wordSize⟩, htaken.failed,
        htaken.inverseArmed, rfl, htaken.groups, rfl⟩, hentering⟩

/-- An opening parenthesis puts the pending chain aside. -/
theorem Awaits.step_openParen
    (h : Awaits m₀ m groups pending) (hdepth : groups.length < Chain.capacity) :
    ∃ tokens, Awaits m₀ (m.step F .openParen).1 (⟨pending, tokens⟩ :: groups) [] := by
  have hroom : ¬Chain.capacity ≤ m.groups.length := by
    rw [h.groups]
    omega
  refine ⟨m.tokens ++ ["("], ?_⟩
  rw [step_eq F h.failed]
  simp only [execute, openGroup, if_neg hroom, leaveEquals_of_not_afterEquals h.afterEquals]
  exact ⟨⟨⟨h.same.config, h.same.base, h.same.wordSize⟩, h.failed, h.inverseArmed,
    h.afterEquals, by rw [← h.groups, ← h.pending], rfl⟩, rfl⟩

/-- A closing parenthesis folds the whole chain and takes up the one outside. -/
theorem HasOperand.step_closeParen
    {v : Ratio} {group : Group} (h : HasOperand m₀ m (group :: groups) pending v) :
    match folded F m₀ none pending v with
    | .error _ => (m.step F .closeParen).1.failed = true
    | .ok r => HasOperand m₀ (m.step F .closeParen).1 groups group.pending r.1 := by
  have hsettle := h.settle
  rw [step_eq F h.failed]
  simp only [execute, closeGroup, h.groups, h.current, hsettle.foldPending_eq]
  cases folded F m₀ none pending v with
  | error e =>
      rfl
  | ok r =>
      refine HasOperand.of_not_entering ?_ (settle_entering m) rfl rfl
      exact ⟨⟨hsettle.same.config, hsettle.same.base, hsettle.same.wordSize⟩,
        hsettle.failed, hsettle.inverseArmed, hsettle.afterEquals, rfl, rfl⟩

/-- With no group open, `=` folds the whole chain. -/
theorem HasOperand.step_equals
    {v : Ratio} (h : HasOperand m₀ m [] pending v) :
    match folded F m₀ none pending v with
    | .error _ => (m.step F .equals).1.failed = true
    | .ok r =>
        (m.step F .equals).1.failed = false ∧ (m.step F .equals).1.current = r.1 ∧
          (m.step F .equals).1.groups = [] ∧ (m.step F .equals).1.pending = r.2 := by
  have hsettle := h.settle
  rw [step_eq F h.failed]
  have hequals : m.execute F .equals = complete F m := by
    simp [execute, equals, h.afterEquals, h.groups, closeGroups, Reaction.andThen]
  have hfold := hsettle.foldPending_eq (F := F) none v
  simp only [foldPending, mode] at hfold
  simp only [hequals, complete, h.current, foldPending, mode, hfold]
  cases folded F m₀ none pending v with
  | error e =>
      rfl
  | ok r =>
      exact ⟨hsettle.failed, rfl, hsettle.groups, rfl⟩

/-! ### Values of folded chains -/

/-- A level may be folded at a threshold before it goes on with an operator. -/
theorem value_folded_threshold
    (hwaiting : Chain.Waiting m₀.config.precedence pending) (op : Operator)
    (v w : Ratio) (more : List (Operator × Ratio)) :
    Level.value (m₀.meaning F).apply (m₀.meaning F).precedence
        (Level.join pending (v, (op, w) :: more)) =
      (folded F m₀ (m₀.threshold op) pending v).toOption.bind fun r =>
        Level.value (m₀.meaning F).apply (m₀.meaning F).precedence
          (Level.join (r.2 ++ [(r.1, op)]) (w, more)) := by
  have hmore : ∀ t ∈ ((op, w) :: more).head?, ∀ o : Operator,
      Chain.isEligible (m₀.threshold op) o = true →
        ¬Level.WaitsFor m₀.config.precedence o t.1 := by
    rintro t ⟨⟩ o ho
    exact (isEligible_threshold m₀ op o).mp ho
  simp only [Level.join_concat]
  exact hwaiting.value_fold (m₀.mode.binary F) _ _ hmore v

/-- Folded without a threshold, a chain leaves the value of its level. -/
theorem value_folded_none
    (hwaiting : Chain.Waiting m₀.config.precedence pending) (v : Ratio) :
    Level.value (m₀.meaning F).apply (m₀.meaning F).precedence (Level.join pending (v, [])) =
        (folded F m₀ none pending v).toOption.map (·.1) ∧
      ∀ r, folded F m₀ none pending v = .ok r → r.2 = [] := by
  have hnil : ∀ r, folded F m₀ none pending v = .ok r → r.2 = [] := by
    intro r hr
    have hnone := (hwaiting.fold_remainder hr).2
    cases hrest : r.2 with
    | nil => rfl
    | cons t rest => simpa [Chain.isEligible] using hnone t (by simp [hrest])
  have hvalue := hwaiting.value_fold (m₀.mode.binary F) none [] (by simp) v
  refine ⟨hvalue.trans ?_, hnil⟩
  show ((folded F m₀ none pending v).toOption.bind _) = _
  cases hfold : folded F m₀ none pending v with
  | error e =>
      rfl
  | ok r =>
      show Level.value _ _ (Level.join r.2 (r.1, [])) = some r.1
      rw [hnil r hfold, Level.join_nil, Level.value_operand]

/-- What the chain waits for after an operator has been put behind it. -/
theorem waiting_folded
    (hwaiting : Chain.Waiting m₀.config.precedence pending) {op : Operator}
    {v : Ratio} {r : Ratio × Chain Ratio}
    (hfold : folded F m₀ (m₀.threshold op) pending v = .ok r) :
    Chain.Waiting m₀.config.precedence (r.2 ++ [(r.1, op)]) := by
  obtain ⟨hinitial, hrest⟩ := hwaiting.fold_remainder hfold
  refine Chain.waiting_concat_iff.mpr ⟨hwaiting.sublist hinitial.sublist, ?_⟩
  intro s hs
  by_contra hwait
  have := (isEligible_threshold m₀ op s.2).mpr hwait
  rw [hrest s hs] at this
  cases this

/-! ### Operands and expressions -/

/-- The keys of an operand either fail, with its value, or leave its value. -/
def OperandTyped (m₀ m : Engine) (groups : List Group)
    (pending : Chain Ratio) (value : Option Ratio) : Prop :=
  match value with
  | none => m.failed = true
  | some v => HasOperand m₀ m groups pending v

/-- The level has no value, however it goes on. -/
def Lost (M : Meaning m₀.entryRules) (level : Option (Level Ratio)) : Prop :=
  ∀ more : List (Operator × Ratio),
    (level.bind fun l => Level.value M.apply M.precedence (l.1, l.2 ++ more)) = none

/-- The chain and the value at hand are worth as much as the level, however it goes on. -/
structure Stands (M : Meaning m₀.entryRules) (l : Level Ratio) (pending : Chain Ratio)
    (v : Ratio) : Prop where
  waiting : Chain.Waiting M.precedence pending
  value_eq : ∀ more : List (Operator × Ratio),
    Level.value M.apply M.precedence (l.1, l.2 ++ more) =
      Level.value M.apply M.precedence (Level.join pending (v, more))

/-- The keys of an expression either fail, and the level is lost, or stand for its level. -/
def ExpressionTyped (F : RealFunctions) (m₀ m : Engine) (groups : List Group)
    (level : Option (Level Ratio)) : Prop :=
  (m.failed = true ∧ Lost (m₀.meaning F) level) ∨
    ∃ l pending v, level = some l ∧ HasOperand m₀ m groups pending v ∧
      Stands (m₀.meaning F) l pending v

/-- A group: its expression is folded when it is closed. -/
theorem ExpressionTyped.step_closeParen
    {group : Group} {level : Option (Level Ratio)}
    (h : ExpressionTyped F m₀ m (group :: groups) level) :
    OperandTyped m₀ (m.step F .closeParen).1 groups group.pending
      (level.bind (Level.value (m₀.meaning F).apply (m₀.meaning F).precedence)) := by
  rcases h with ⟨hfailed, hlost⟩ | ⟨l, pending, v, rfl, hoperand, hstands⟩
  · have hnone := hlost []
    simp only [List.append_nil] at hnone
    rw [hnone, step_of_failed F hfailed rfl]
    exact hfailed
  · obtain ⟨hvalue, -⟩ := value_folded_none (F := F) hstands.waiting v
    have heq := hstands.value_eq []
    rw [List.append_nil, hvalue] at heq
    have hstep := hoperand.step_closeParen (F := F)
    rw [Option.bind_some, heq]
    cases hfold : folded F m₀ none pending v with
    | error e =>
        rw [hfold] at hstep
        exact hstep
    | ok r =>
        rw [hfold] at hstep
        exact hstep

/-- An operand alone is a level. -/
theorem OperandTyped.expressionTyped
    {value : Option Ratio} (h : OperandTyped m₀ m groups [] value) :
    ExpressionTyped F m₀ m groups (value.map fun v => (v, [])) := by
  cases value with
  | none =>
      exact Or.inl ⟨h, fun _ => rfl⟩
  | some v =>
      exact Or.inr ⟨(v, []), [], v, rfl, h, Chain.waiting_nil _, fun _ => rfl⟩

/-- An operator and an operand after an expression. -/
theorem ExpressionTyped.extend
    {level : Option (Level Ratio)} (h : ExpressionTyped F m₀ m groups level)
    (op : Operator) {keys : List Command} (hkeys : ∀ c ∈ keys, c.isClearing = false)
    {value : Option Ratio}
    (hnext : ∀ m' pending, Awaits m₀ m' groups pending →
      OperandTyped m₀ (m'.run F keys) groups pending value) :
    ExpressionTyped F m₀ ((m.step F (.binary op)).1.run F keys) groups
      (level.bind fun l => value.map fun w => (l.1, l.2 ++ [(op, w)])) := by
  have hlost : (∀ w more, (level.bind fun l => Level.value (m₀.meaning F).apply
      (m₀.meaning F).precedence (l.1, l.2 ++ (op, w) :: more)) = none) →
      Lost (m₀.meaning F)
        (level.bind fun l => value.map fun w => (l.1, l.2 ++ [(op, w)])) := by
    intro hnone more
    cases value with
    | none =>
        cases level <;> rfl
    | some w =>
        have := hnone w more
        cases level with
        | none => rfl
        | some l => simpa using this
  rcases h with ⟨hfailed, hbefore⟩ | ⟨l, pending, v, rfl, hoperand, hstands⟩
  · left
    rw [step_of_failed F hfailed rfl, run_of_failed F hfailed hkeys]
    exact ⟨hfailed, hlost fun w more => hbefore ((op, w) :: more)⟩
  · have hstep := hoperand.step_binary (F := F) hstands.waiting op
    have hvalue := fun w more => (hstands.value_eq ((op, w) :: more)).trans
      (value_folded_threshold (F := F) hstands.waiting op v w more)
    cases hfold : folded F m₀ (m₀.threshold op) pending v with
    | error e =>
        rw [hfold] at hstep
        simp only [hfold] at hvalue
        left
        rw [run_of_failed F hstep hkeys]
        exact ⟨hstep, hlost hvalue⟩
    | ok r =>
        rw [hfold] at hstep
        simp only [hfold] at hvalue
        have hafter := hnext _ _ hstep
        cases value with
        | none =>
            exact Or.inl ⟨hafter, fun _ => rfl⟩
        | some w =>
            refine Or.inr ⟨_, _, w, rfl, hafter, waiting_folded hstands.waiting hfold, ?_⟩
            intro more
            simpa [Except.toOption] using hvalue w more

mutual

/-- The keys of an operand, typed where one is awaited. -/
theorem run_operand_keys
    (hmax : 0 < m₀.entryRules.maxDigits) :
    ∀ (t : Operand m₀.entryRules) {m : Engine} {groups : List Group} {pending : Chain Ratio},
      Awaits m₀ m groups pending → groups.length + t.depth ≤ Chain.capacity →
        OperandTyped m₀ (m.run F t.keys) groups pending (t.value (m₀.meaning F))
  | .literal l, m, groups, pending, h, _ => run_literal_keys hmax h l
  | .group e, m, groups, pending, h, hdepth => by
      simp only [Operand.depth] at hdepth
      obtain ⟨tokens, hopen⟩ := h.step_openParen (F := F) (by omega)
      have he := run_expression_keys hmax e hopen (by simp only [List.length_cons]; omega)
      simp only [Operand.keys, run_cons, run_append, run_nil]
      exact he.step_closeParen

/-- The keys of an expression, typed at the beginning of a level. -/
theorem run_expression_keys
    (hmax : 0 < m₀.entryRules.maxDigits) :
    ∀ (e : Expression m₀.entryRules) {m : Engine} {groups : List Group},
      Awaits m₀ m groups [] → groups.length + e.depth ≤ Chain.capacity →
        ExpressionTyped F m₀ (m.run F e.keys) groups (e.level (m₀.meaning F))
  | .operand t, m, groups, h, hdepth =>
      (run_operand_keys hmax t h hdepth).expressionTyped
  | .extend e op t, m, groups, h, hdepth => by
      simp only [Expression.depth] at hdepth
      have he := run_expression_keys hmax e h (by omega)
      simp only [Expression.keys, run_append, run_cons]
      exact he.extend op t.keys_not_clearing fun m' pending hm' =>
        run_operand_keys hmax t hm' (by omega)

end

/-! ### Cleared engines -/

/-- An engine that is new or has just been cleared. -/
inductive Cleared (F : RealFunctions) : Engine → Prop
  | new (config : Config) (settings : Settings) : Cleared F (Engine.new config settings)
  | clear {m : Engine} (h : Reachable F m) : Cleared F (m.step F .clear).1

/-- A cleared engine is reachable. -/
theorem Cleared.reachable
    (h : Cleared F m) :
    Reachable F m := by
  cases h with
  | new config settings => exact Reachable.new config settings
  | clear h => exact h.step .clear

/-- A cleared engine waits for an operand, with nothing pending. -/
theorem Cleared.awaits
    (h : Cleared F m) :
    Awaits m m [] [] := by
  cases h with
  | new config settings =>
      exact ⟨⟨⟨rfl, rfl, rfl⟩, rfl, rfl, rfl, rfl, rfl⟩, rfl⟩
  | @clear m h =>
      have hclear : (m.step F .clear).1 = m.clear.engine := by
        simp only [step, Command.isClearing, Bool.not_true, Bool.false_eq_true, and_false,
          if_false]
        rfl
      rw [hclear]
      exact ⟨⟨⟨rfl, rfl, rfl⟩, rfl, rfl, rfl, rfl, rfl⟩, rfl⟩

/--
An expression and `=` on a cleared engine: the engine fails exactly if the
expression has no value; otherwise the value is at hand and nothing is pending.
-/
theorem run_expression_equals
    (hm : Cleared F m) (e : Expression m.entryRules) (hdepth : e.depth ≤ Chain.capacity) :
    ((m.run F (e.keys ++ [.equals])).failed = true ↔ e.value (m.meaning F) = none) ∧
      ∀ v, e.value (m.meaning F) = some v →
        (m.run F (e.keys ++ [.equals])).failed = false ∧
          (m.run F (e.keys ++ [.equals])).current = v ∧
          (m.run F (e.keys ++ [.equals])).groups = [] ∧
          (m.run F (e.keys ++ [.equals])).pending = [] := by
  have hkeys := run_expression_keys (F := F) hm.reachable.maxDigits_pos e hm.awaits
    (by simpa using hdepth)
  simp only [run_append, run_cons, run_nil]
  rcases hkeys with ⟨hfailed, hlost⟩ | ⟨l, pending, v, hlevel, hoperand, hstands⟩
  · have hnone : e.value (m.meaning F) = none := by
      have := hlost []
      simp only [List.append_nil] at this
      exact this
    rw [step_of_failed F hfailed rfl, hnone]
    simp [hfailed]
  · obtain ⟨hvalue, hnil⟩ := value_folded_none (F := F) hstands.waiting v
    have heq : e.value (m.meaning F) = (folded F m none pending v).toOption.map (·.1) := by
      have := hstands.value_eq []
      rw [List.append_nil] at this
      rw [Expression.value, hlevel, ← hvalue]
      exact this
    have hstep := hoperand.step_equals (F := F)
    rw [heq]
    cases hfold : folded F m none pending v with
    | error e =>
        rw [hfold] at hstep
        simp [hstep, Except.toOption]
    | ok r =>
        rw [hfold] at hstep
        obtain ⟨hok, hcurrent, hgroups, hpending⟩ := hstep
        rw [hnil r hfold] at hpending
        simp only [hok, hcurrent, hgroups, hpending]
        simp [Except.toOption]

/-- A digit typed on a new engine. -/
def sampleDigit (d : Fin 10) : Literal (Engine.new {} {}).entryRules where
  keys := [.digit d]
  entry := { digits := [digitChar d] }
  keys_ne_nil := List.cons_ne_nil _ _
  accepted := by
    revert d
    decide

/-- The product `(2 + 3) × 4`. -/
def sampleProduct : Expression (Engine.new {} {}).entryRules :=
  .extend
    (.operand (.group (.extend (.operand (.literal (sampleDigit 2))) .add
      (.literal (sampleDigit 3)))))
    .mul (.literal (sampleDigit 4))

/-- A digit typed alone is worth itself. -/
theorem meaning_sampleDigit
    {d : Fin 10} (hd : d ≠ 0) :
    ((Engine.new {} {}).meaning F).literal (sampleDigit d) = .ofNat d := by
  have hdigits : ScaledNumber.ofDigits? [digitChar d] 10 = some (.ofNat d) := by
    have hread : ∀ d : Fin 10, d ≠ 0 →
        Magnitude.ofDigits? [digitChar d] 10 = some [UInt32.ofNat d] := by
      decide
    have hvalue : ∀ d : Fin 10, Magnitude.toNat [UInt32.ofNat d] = d := by
      decide
    rw [ScaledNumber.ofDigits?, hread d hd, Option.map_some, ← ScaledNumber.ofMagnitude,
      ScaledNumber.ofMagnitude_eq, hvalue]
  have hvalue : ({ digits := [digitChar d] } : Entry).value 10 = .ofNat d := by
    rw [Entry.value, if_neg (List.cons_ne_nil _ _)]
    simp only [hdigits, Entry.exponentValue?, Entry.fractionLength]
    rw [Ratio.ofMantissaScale_eq _ _ (by decide), ← Ratio.ofRat_natCast]
    simp [ScaledNumber.signFactor]
  exact hvalue

theorem value_sampleProduct :
    sampleProduct.value ((Engine.new {} {}).meaning F) = some (.ofNat 20) := by
  have hsum : (Engine.new {} {}).mode.binary F .add (.ofNat 2) (.ofNat 3) = .ok (.ofNat 5) :=
    CalculationMode.binary_of_combine .add (congrArg Except.ok (Ratio.ofNat_add 2 3))
      (Ratio.checkSize_ofNat (by decide : 5 < 2 ^ 3) (by decide))
  have hproduct : (Engine.new {} {}).mode.binary F .mul (.ofNat 5) (.ofNat 4) =
      .ok (.ofNat 20) :=
    CalculationMode.binary_of_combine .mul (congrArg Except.ok (Ratio.ofNat_mul 5 4))
      (Ratio.checkSize_ofNat (by decide : 20 < 2 ^ 5) (by decide))
  have happly : ((Engine.new {} {}).meaning F).apply =
      Chain.successOf ((Engine.new {} {}).mode.binary F) := rfl
  simp [sampleProduct, Expression.value, Expression.level, Operand.value,
    meaning_sampleDigit, happly, Level.value_application, Chain.successOf, hsum, hproduct,
    Except.toOption]

/-- The keys of the product and `=` leave twenty at hand. -/
theorem run_sampleProduct_equals :
    Cleared .native (Engine.new {} {}) ∧ sampleProduct.depth ≤ Chain.capacity ∧
      ((Engine.new {} {}).run .native (sampleProduct.keys ++ [.equals])).failed = false ∧
      ((Engine.new {} {}).run .native (sampleProduct.keys ++ [.equals])).current = .ofNat 20 ∧
      ((Engine.new {} {}).run .native (sampleProduct.keys ++ [.equals])).groups = [] ∧
      ((Engine.new {} {}).run .native (sampleProduct.keys ++ [.equals])).pending = [] := by
  have hcleared : Cleared .native (Engine.new {} {}) := .new {} {}
  have hdepth : sampleProduct.depth ≤ Chain.capacity := by decide
  have hrun := run_expression_equals hcleared sampleProduct hdepth
  exact ⟨hcleared, hdepth, hrun.2 _ value_sampleProduct⟩

end Engine
end DeskCalculator
