import DeskCalculator.Proofs.Engine.Coherence

/-!
# What the equals key computes

The equals key closes all groups from the innermost one outwards and completes
the calculation.  What it computes depends on the value at hand and on the
chains inside and outside of the groups only: every chain is folded with the
result of the one inside as its right operand.  The primary line shows it.

**Results.**
* `Chain.foldOpen_mapOperands`: a change of all operands that the operation
  commutes with.
* `equals_of_foldOpen`, `equals_of_afterEquals`: what the equals key makes of a
  state.
* `equals_shows`: what it shows last.
-/

namespace DeskCalculator

namespace Chain

variable {α : Type}

/-- Folds a chain, and each chain outside with the result as its right operand. -/
def foldOpen (apply : Operator → α → α → Except CalcError α) :
    List (Chain α) → Chain α → α → Except CalcError α
  | [], c, last => (c.fold apply none last).result.map (·.1)
  | outer :: rest, c, last =>
      match (c.fold apply none last).result with
      | .error e => .error e
      | .ok (v, _) => foldOpen apply rest outer v

/-- If the operation succeeds and commutes with a change of the operands, so does the fold. -/
theorem foldOpen_mapOperands
    {apply apply' : Operator → α → α → Except CalcError α} {f : α → α} {P : α → Prop}
    {S : Operator → Prop}
    (happly : ∀ op, S op → ∀ a b, P a → P b →
      ∃ v, P v ∧ apply op a b = .ok v ∧ apply' op (f a) (f b) = .ok (f v))
    {outer : List (Chain α)} {c : Chain α} {last : α}
    (houter : ∀ d ∈ outer, d.AllOperands P ∧ ∀ op ∈ d.operators, S op)
    (hc : c.AllOperands P) (hops : ∀ op ∈ c.operators, S op) (hlast : P last) :
    ∃ v, foldOpen apply outer c last = .ok v ∧
      foldOpen apply' (outer.map (·.mapOperands f)) (c.mapOperands f) (f last) = .ok (f v) := by
  induction outer generalizing c last with
  | nil =>
      obtain ⟨v, d, -, hfold, hfold'⟩ :=
        fold_mapOperands none (fun op hop => happly op (hops op hop)) hc hlast
      refine ⟨v, ?_, ?_⟩
      · rw [foldOpen, hfold]
        rfl
      · rw [List.map_nil, foldOpen, hfold']
        rfl
  | cons d outer ih =>
      obtain ⟨u, e, hu, hfold, hfold'⟩ :=
        fold_mapOperands none (fun op hop => happly op (hops op hop)) hc hlast
      obtain ⟨hd, hdops⟩ := houter d List.mem_cons_self
      obtain ⟨v, hrest, hrest'⟩ :=
        ih (fun d' hd' => houter d' (List.mem_cons_of_mem _ hd')) hd hdops hu
      refine ⟨v, ?_, ?_⟩
      · rw [foldOpen, hfold]
        exact hrest
      · rw [List.map_cons, foldOpen, hfold']
        exact hrest'

end Chain

theorem Reaction.andThen_assoc
    (r : Reaction) (f g : Engine → Reaction) :
    (r.andThen f).andThen g = r.andThen fun m => (f m).andThen g := by
  unfold Reaction.andThen
  cases hr : r.error with
  | some e => simp only [hr]
  | none =>
      cases hf : (f r.engine).error with
      | some e => simp only [hf]
      | none => simp only [hf, List.append_assoc]

namespace Engine

variable {F : RealFunctions} {m : Engine}

/-! ### What the equals key computes -/

@[simp] theorem settle_pending
    (m : Engine) :
    m.settle.pending = m.pending := by
  unfold settle
  split <;> rfl

@[simp] theorem settle_failed
    (m : Engine) :
    m.settle.failed = m.failed := by
  unfold settle
  split <;> rfl

theorem settle_mode
    (m : Engine) :
    m.settle.mode = m.mode := by
  unfold settle
  split <;> rfl

theorem foldPending_settle
    (m : Engine) (threshold : Option Nat) :
    m.settle.foldPending F threshold m.settle.current =
      (m.pending.fold (m.mode.binary F) threshold m.settle.current).result := by
  rw [foldPending, settle_pending, settle_mode]

/-- What a calculation to be completed notes for repetitions has no effect on the fold. -/
theorem foldPending_noted
    (m : Engine) :
    foldPending F { m.settle with
      operandText := none, lastOperator := m.settle.pending.lastOperator?
      held := m.settle.current } none m.settle.current =
      (m.pending.fold (m.mode.binary F) none m.settle.current).result :=
  foldPending_settle m none

/-- The reaction puts `v` at hand without an error, and nothing is being typed any more. -/
structure Yields (r : Reaction) (m : Engine) (v : Ratio) : Prop where
  error : r.error = none
  current : r.engine.current = v
  entering : r.engine.entering = false
  failed : r.engine.failed = m.failed

theorem Yields.settle_current
    {r : Reaction} {v : Ratio} (h : Yields r m v) :
    r.engine.settle.current = v := by
  rw [settle_of_not_entering h.entering, h.current]

/-- A reaction after one without an error. -/
theorem Yields.andThen
    {r : Reaction} {v w : Ratio} {f : Engine → Reaction} (h : Yields r m v)
    (hnext : Yields (f r.engine) r.engine w) :
    Yields (r.andThen f) m w := by
  unfold Reaction.andThen
  rw [h.error]
  exact ⟨hnext.error, hnext.current, hnext.entering, hnext.failed.trans h.failed⟩

/-- Closing a group puts the value of its chain at hand, and takes up the chain outside. -/
theorem closeGroup_of_fold
    {group : Group} {groups : List Group} (hgroups : m.groups = group :: groups)
    {v : Ratio} {rest : Chain Ratio}
    (hfold : (m.pending.fold (m.mode.binary F) none m.settle.current).result = .ok (v, rest)) :
    Yields (m.closeGroup F) m v ∧ (m.closeGroup F).engine.groups = groups ∧
      (m.closeGroup F).engine.pending = group.pending ∧
      (m.closeGroup F).engine.mode = m.mode := by
  rw [← foldPending_settle] at hfold
  simp only [closeGroup, hgroups, hfold]
  exact ⟨⟨rfl, rfl, m.settle_entering, m.settle_failed⟩, rfl, rfl, m.settle_mode⟩

/-- Completing a calculation puts the value of its chain at hand. -/
theorem complete_of_fold
    {v : Ratio} {rest : Chain Ratio}
    (hfold : (m.pending.fold (m.mode.binary F) none m.settle.current).result = .ok (v, rest)) :
    Yields (complete F m) m v := by
  simp only [complete, foldPending_noted, hfold]
  exact ⟨rfl, rfl, m.settle_entering, m.settle_failed⟩

/-- Closing all groups and completing the calculation puts the value of all chains at hand. -/
theorem closeGroups_complete
    {v : Ratio} {groups : List Group} (hgroups : m.groups = groups)
    (hfold : Chain.foldOpen (m.mode.binary F) (groups.map (·.pending)) m.pending
      m.settle.current = .ok v) :
    Yields ((closeGroups F groups.length m).andThen (complete F)) m v := by
  induction groups generalizing m with
  | nil =>
      rw [List.map_nil, Chain.foldOpen] at hfold
      cases hchain : (m.pending.fold (m.mode.binary F) none m.settle.current).result with
      | error e =>
          rw [hchain] at hfold
          cases hfold
      | ok r =>
          rw [hchain] at hfold
          cases hfold
          exact complete_of_fold hchain
  | cons group groups ih =>
      rw [List.map_cons, Chain.foldOpen] at hfold
      split at hfold
      · cases hfold
      · rename_i u rest hchain
        obtain ⟨hclose, hgroups', hpending, hmode⟩ := closeGroup_of_fold hgroups hchain
        have hnext := ih hgroups' (by rwa [hmode, hpending, hclose.settle_current])
        rw [List.length_cons, closeGroups, Reaction.andThen_assoc]
        exact hclose.andThen hnext

/-- What the equals key makes of a state that is not a result. -/
theorem equals_of_foldOpen
    (hequals : m.afterEquals = false) {v : Ratio}
    (hfold : Chain.foldOpen (m.mode.binary F) (m.groups.map (·.pending)) m.pending
      m.settle.current = .ok v) :
    Yields (m.equals F) m v := by
  rw [equals, if_neg (by simp [hequals])]
  exact closeGroups_complete rfl hfold

/-- A result is repeated with the last operator, if there is one. -/
theorem equals_of_afterEquals
    (hequals : m.afterEquals = true) (hentering : m.entering = false) {v : Ratio}
    (hlast : match m.lastOperator with
      | none => v = m.current
      | some op => m.mode.binary F op m.current m.held = .ok v) :
    Yields (m.equals F) m v := by
  rw [equals, if_pos hequals]
  cases hop : m.lastOperator with
  | none =>
    simp only [hop] at hlast
    simp only [repeatEquals, hop]
    exact ⟨rfl, hlast.symm, hentering, rfl⟩
  | some op =>
    simp only [hop] at hlast
    simp only [repeatEquals, hop, settle_of_not_entering hentering, hlast]
    exact ⟨rfl, rfl, hentering, rfl⟩

/-- The equals key, if it does not fail. -/
theorem Yields.step_equals
    {v : Ratio} (h : Yields (m.equals F) m v) (hm : m.failed = false) :
    (m.step F .equals).1 = (m.equals F).engine := by
  rw [step_eq F hm]
  simp only [execute, h.error]

/-! ### What the equals key shows -/

theorem complete_shows
    (herror : (complete F m).error = none) :
    ∃ before, (complete F m).events = before ++ [(complete F m).engine.showCurrent] := by
  unfold complete at herror ⊢
  dsimp only at herror ⊢
  split at herror
  · cases herror
  · exact ⟨[_, _], rfl⟩

theorem repeatEquals_shows
    (herror : (m.repeatEquals F).error = none) :
    ∃ before, (m.repeatEquals F).events = before ++ [(m.repeatEquals F).engine.showCurrent] := by
  unfold repeatEquals at herror ⊢
  split at herror
  · exact ⟨[], rfl⟩
  · dsimp only at herror ⊢
    split at herror
    · cases herror
    · exact ⟨[_, _], rfl⟩

/-- If it does not fail, it shows the value at hand last. -/
theorem equals_shows
    (herror : (m.equals F).error = none) :
    ∃ before, (m.equals F).events = before ++ [(m.equals F).engine.showCurrent] := by
  unfold equals at herror ⊢
  split at herror
  · rename_i hequals
    rw [if_pos hequals]
    exact repeatEquals_shows herror
  · rename_i hequals
    rw [if_neg hequals]
    obtain ⟨hclose, hcomplete, -⟩ := Reaction.andThen_of_error_eq_none herror
    obtain ⟨before, hevents⟩ := complete_shows hcomplete
    unfold Reaction.andThen
    rw [hclose]
    exact ⟨_ ++ before, by rw [List.append_assoc, ← hevents]⟩

end Engine
end DeskCalculator
