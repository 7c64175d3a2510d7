import DeskCalculator.Proofs.Engine.Coherence

/-!
# Replacing an operator

An operator right after another one takes that one back, with its operand and
its symbol.  What the first operator has folded stays folded.  So the first
operator leaves no trace if the second one folds at least as much; otherwise
the expression line is that of the second operator alone, but the chain is not.

**Results.**
* `step_binary_of_waiting`: what an operator makes of a state without error.
* `Reachable.replaced_operator_iff`: when the first of two operators leaves no
  trace.
* `sampleSum_operator_not_replaced`: a sum in which it does.
-/

namespace DeskCalculator
namespace Engine

variable {F : RealFunctions} {m : Engine}

/-- The engine after an operator that has left `rest` of the chain and folded the other part to `v`. -/
def withOperator (m : Engine) (v : Ratio) (rest : Chain Ratio) (op : Operator) : Engine :=
  { m with
    current := v, pending := rest ++ [(v, op)], tokens := m.tokens ++ [op.symbol]
    afterOperator := true, afterEquals := false }

/-- The next operator takes all of it back but the fold. -/
theorem takeLeftOperand_withOperator
    (m : Engine) (v : Ratio) (rest : Chain Ratio) (op : Operator) :
    (m.withOperator v rest op).takeLeftOperand =
      ({ m with current := v, pending := rest, afterOperator := true, afterEquals := false }, v) := by
  simp [takeLeftOperand, withOperator]

theorem takeLeftOperand_threshold
    (m : Engine) (op : Operator) :
    m.takeLeftOperand.1.threshold op = m.threshold op := by
  simp only [threshold, takeLeftOperand_config]

@[simp] theorem takeLeftOperand_failed
    (m : Engine) :
    m.takeLeftOperand.1.failed = m.failed := by
  unfold takeLeftOperand leaveEquals settle
  repeat' split
  all_goals rfl

@[simp] theorem takeLeftOperand_inverseArmed
    (m : Engine) :
    m.takeLeftOperand.1.inverseArmed = m.inverseArmed := by
  unfold takeLeftOperand leaveEquals settle
  repeat' split
  all_goals rfl

theorem takeLeftOperand_mode
    (m : Engine) :
    m.takeLeftOperand.1.mode = m.mode := by
  unfold takeLeftOperand leaveEquals settle
  repeat' split
  all_goals rfl

/-- An operator takes its left operand, folds the chain with it and waits behind the rest. -/
theorem step_binary_of_waiting
    (hwaiting : Chain.Waiting m.config.precedence m.takeLeftOperand.1.pending)
    (hm : m.failed = false) (hinverse : m.inverseArmed = false) (op : Operator) :
    match m.takeLeftOperand.1.foldPending F (m.threshold op) m.takeLeftOperand.2 with
    | .error _ => (m.step F (.binary op)).1.failed = true
    | .ok r => (m.step F (.binary op)).1 = m.takeLeftOperand.1.withOperator r.1 r.2 op := by
  rw [step_eq F hm]
  simp only [execute, binary, effectiveOperator_of_not_armed hinverse,
    disarmFor_of_not_armed hinverse, takeLeftOperand_threshold]
  cases hfold : m.takeLeftOperand.1.foldPending F (m.threshold op) m.takeLeftOperand.2 with
  | error e => rfl
  | ok r =>
      simp only [hwaiting.push_folded hfold]
      rfl

/-- An operator that does not fail has folded the chain. -/
theorem exists_folded_of_step_binary
    (hwaiting : Chain.Waiting m.config.precedence m.takeLeftOperand.1.pending)
    (hm : m.failed = false) (hinverse : m.inverseArmed = false) {op : Operator}
    (hop : (m.step F (.binary op)).1.failed = false) :
    ∃ v rest, m.takeLeftOperand.1.foldPending F (m.threshold op) m.takeLeftOperand.2 =
        .ok (v, rest) ∧
      (m.step F (.binary op)).1 = m.takeLeftOperand.1.withOperator v rest op := by
  have hstep := step_binary_of_waiting (F := F) hwaiting hm hinverse op
  cases hfold : m.takeLeftOperand.1.foldPending F (m.threshold op) m.takeLeftOperand.2 with
  | error e =>
      rw [hfold] at hstep
      exact absurd hop (by simp [hstep])
  | ok r =>
      rw [hfold] at hstep
      exact ⟨r.1, r.2, rfl, hstep⟩

/-- The second of two operators folds what the first one has left. -/
theorem run_binary_binary
    (hwaiting : Chain.Waiting m.config.precedence m.takeLeftOperand.1.pending)
    (hm : m.failed = false) (hinverse : m.inverseArmed = false)
    {first second : Operator} {v w : Ratio} {rest left : Chain Ratio}
    (hfirst : m.takeLeftOperand.1.foldPending F (m.threshold first) m.takeLeftOperand.2 =
      .ok (v, rest))
    (hsecond : (rest.fold (m.mode.binary F) (m.threshold second) v).result = .ok (w, left)) :
    m.run F [.binary first, .binary second] = m.takeLeftOperand.1.withOperator w left second := by
  have hstep := step_binary_of_waiting (F := F) hwaiting hm hinverse first
  rw [hfirst] at hstep
  have hrest := hwaiting.sublist (hwaiting.fold_remainder hfirst).1.sublist
  have htake := m.takeLeftOperand.1.takeLeftOperand_withOperator v rest first
  have hnext := step_binary_of_waiting (F := F)
    (m := m.takeLeftOperand.1.withOperator v rest first)
    (by
      rw [htake]
      simpa [withOperator] using hrest)
    (by simpa [withOperator] using hm) (by simpa [withOperator] using hinverse) second
  have hfold : (m.takeLeftOperand.1.withOperator v rest first).takeLeftOperand.1.foldPending F
      ((m.takeLeftOperand.1.withOperator v rest first).threshold second)
      (m.takeLeftOperand.1.withOperator v rest first).takeLeftOperand.2 = .ok (w, left) := by
    rw [htake]
    show (rest.fold (m.takeLeftOperand.1.mode.binary F) (m.takeLeftOperand.1.threshold second)
      v).result = _
    rw [takeLeftOperand_mode, takeLeftOperand_threshold, hsecond]
  rw [hfold, htake] at hnext
  rw [run_cons, run_cons, run_nil, hstep]
  exact hnext

/-! ### Which operators leave no trace -/

theorem isEligible_some_iff
    {s : Nat} {op : Operator} :
    Chain.isEligible (some s) op = true ↔ op.precedence = 0 ∨ s ≤ op.precedence := by
  simp only [Chain.isEligible, Bool.or_eq_true, decide_eq_true_eq]

/-- Every pending operator that the first of two operators folds is folded by the second, too. -/
def FoldedByBoth (c : Chain Ratio) (first second : Operator) : Prop :=
  ∀ t ∈ c, 0 < t.2.precedence → first.precedence ≤ t.2.precedence →
    second.precedence ≤ t.2.precedence

/-- An operator that does not bind tighter than the first one folds at least as much. -/
theorem foldedByBoth_of_le
    {first second : Operator} (hle : second.precedence ≤ first.precedence) (c : Chain Ratio) :
    FoldedByBoth c first second :=
  fun _ _ _ hfirst => hle.trans hfirst

theorem FoldedByBoth.isEligible
    {c : Chain Ratio} {first second : Operator} (h : FoldedByBoth c first second) :
    ∀ t ∈ c, Chain.isEligible (some first.precedence) t.2 = true →
      Chain.isEligible (some second.precedence) t.2 = true := by
  intro t ht heligible
  rw [isEligible_some_iff] at heligible ⊢
  rcases heligible with hzero | hle
  · exact Or.inl hzero
  · rcases Nat.eq_zero_or_pos t.2.precedence with hzero | hpos
    · exact Or.inl hzero
    · exact Or.inr (h t ht hpos hle)

/-- If two folds of a chain leave the same, they have applied the same operators. -/
theorem foldedByBoth_of_remainder
    {apply : Operator → Ratio → Ratio → Except CalcError Ratio} {c rest : Chain Ratio}
    {last v w : Ratio} {first second : Operator}
    (hfirst : (c.fold apply (some first.precedence) last).result = .ok (v, rest))
    (hsecond : (c.fold apply (some second.precedence) last).result = .ok (w, rest)) :
    FoldedByBoth c first second := by
  intro t ht hpos hle
  by_contra hlt
  have hleft : t.2 ∈ Chain.operators rest := by
    rw [Chain.operators_of_fold hsecond]
    have hnot : ¬Chain.isEligible (some second.precedence) t.2 = true := by
      rw [isEligible_some_iff]
      omega
    exact List.mem_filter.mpr ⟨List.mem_map_of_mem ht, by simpa using hnot⟩
  rw [Chain.operators_of_fold hfirst] at hleft
  have hnot := (List.mem_filter.mp hleft).2
  have heligible := isEligible_some_iff.mpr (Or.inr hle)
  rw [heligible] at hnot
  cases hnot

/-- A tighter operator finds nothing to fold in what a looser one has left. -/
theorem not_eligible_of_lt
    {apply : Operator → Ratio → Ratio → Except CalcError Ratio} {c rest : Chain Ratio}
    {last v : Ratio} {first second : Operator} (hlt : first.precedence < second.precedence)
    (hwaiting : Chain.Waiting true c)
    (hfirst : (c.fold apply (some first.precedence) last).result = .ok (v, rest)) :
    ∀ t ∈ rest, Chain.isEligible (some second.precedence) t.2 = false := by
  intro t ht
  have hnot := (hwaiting.fold_remainder hfirst).2 t ht
  rw [← Bool.not_eq_true, isEligible_some_iff] at hnot ⊢
  omega

/--
In a reachable state without error, with precedences and without the inverse,
two operators of which neither fails alone do not fail one after the other, and
leave the expression line of the second one.  They leave the same state as the
second one alone exactly if that folds every pending operator that the first one
folds, and always if it does not bind tighter than the first one.  If it binds
tighter, then it waits behind what the first one has left, with its result.
-/
theorem Reachable.replaced_operator_iff
    (h : Reachable F m) (hm : m.failed = false) (hprecedence : m.config.precedence = true)
    (hinverse : m.inverseArmed = false) {first second : Operator}
    (hfirst : (m.step F (.binary first)).1.failed = false)
    (hsecond : (m.step F (.binary second)).1.failed = false) :
    (m.run F [.binary first, .binary second]).failed = false ∧
      (m.run F [.binary first, .binary second]).expressionTokens =
        (m.run F [.binary second]).expressionTokens ∧
      (m.run F [.binary first, .binary second] = m.run F [.binary second] ↔
        FoldedByBoth m.takeLeftOperand.1.pending first second) ∧
      (second.precedence ≤ first.precedence →
        m.run F [.binary first, .binary second] = m.run F [.binary second]) ∧
      (first.precedence < second.precedence →
        (m.run F [.binary first, .binary second]).current = (m.step F (.binary first)).1.current ∧
          (m.run F [.binary first, .binary second]).pending =
            (m.step F (.binary first)).1.pending.dropLast ++
              [((m.step F (.binary first)).1.current, second)]) := by
  have hwaiting := (h.coherent hm).takeLeftOperand.pending
  rw [takeLeftOperand_config] at hwaiting
  obtain ⟨v, rest, hfold, hstep⟩ := exists_folded_of_step_binary hwaiting hm hinverse hfirst
  obtain ⟨w, left, hfold', hstep'⟩ := exists_folded_of_step_binary hwaiting hm hinverse hsecond
  have hthreshold : ∀ op, m.threshold op = some op.precedence := fun op => by
    rw [threshold, if_pos hprecedence]
  have honce : m.run F [.binary second] = m.takeLeftOperand.1.withOperator w left second := hstep'
  have htwice : ∀ {u d}, (rest.fold (m.mode.binary F) (m.threshold second) v).result = .ok (u, d) →
      m.run F [.binary first, .binary second] = m.takeLeftOperand.1.withOperator u d second :=
    run_binary_binary hwaiting hm hinverse hfold
  simp only [foldPending, takeLeftOperand_mode, hthreshold] at hfold hfold' htwice
  rw [hprecedence] at hwaiting
  have hsame : FoldedByBoth m.takeLeftOperand.1.pending first second →
      m.run F [.binary first, .binary second] = m.run F [.binary second] := by
    intro hboth
    rw [honce]
    exact htwice ((hwaiting.fold_resume hboth.isEligible hfold).trans hfold')
  have hkept : first.precedence < second.precedence →
      m.run F [.binary first, .binary second] = m.takeLeftOperand.1.withOperator v rest second :=
    fun hlt => htwice (Chain.fold_of_not_eligible _ (not_eligible_of_lt hlt hwaiting hfold) v)
  have hlooser : second.precedence ≤ first.precedence →
      m.run F [.binary first, .binary second] = m.run F [.binary second] :=
    fun hle => hsame (foldedByBoth_of_le hle _)
  obtain ⟨u, d, hrun⟩ : ∃ u d,
      m.run F [.binary first, .binary second] = m.takeLeftOperand.1.withOperator u d second := by
    rcases le_or_gt second.precedence first.precedence with hle | hlt
    · exact ⟨w, left, (hlooser hle).trans honce⟩
    · exact ⟨v, rest, hkept hlt⟩
  refine ⟨?_, ?_, ⟨fun heq => ?_, hsame⟩, hlooser, fun hlt => ?_⟩
  · rw [hrun]
    simpa [withOperator] using hm
  · rw [hrun, honce]
    rfl
  · rcases le_or_gt second.precedence first.precedence with hle | hlt
    · exact foldedByBoth_of_le hle _
    · rw [hkept hlt, honce] at heq
      have hpending := congrArg Engine.pending heq
      have hrest : rest = left := (List.append_inj' hpending rfl).1
      rw [← hrest] at hfold'
      exact foldedByBoth_of_remainder hfold hfold'
  · rw [hkept hlt, hstep]
    exact ⟨rfl, by simp [withOperator]⟩

/-! ### A sum -/

/-- The sum `2 + 3`, before its result is asked for. -/
def sampleSum : Engine :=
  (Engine.new {} {}).run .native [.digit 2, .binary .add, .digit 3]

theorem reachable_sampleSum : Reachable .native sampleSum :=
  Reachable.run .native (.new {} {}) _

/-- What an operator takes up after the sum. -/
theorem takeLeftOperand_sampleSum :
    sampleSum.takeLeftOperand.1.pending = [(.ofNat 2, .add)] ∧
      sampleSum.takeLeftOperand.2 = .ofNat 3 := by
  constructor
  · show [(((Engine.new {} {}).meaning .native).literal (sampleDigit 2), Operator.add)] = _
    rw [meaning_sampleDigit (by decide)]
    rfl
  · show ((Engine.new {} {}).meaning .native).literal (sampleDigit 3) = _
    rw [meaning_sampleDigit (by decide)]
    rfl

theorem waiting_sampleSum :
    Chain.Waiting sampleSum.config.precedence sampleSum.takeLeftOperand.1.pending := by
  have h := (reachable_sampleSum.coherent rfl).takeLeftOperand.pending
  rwa [takeLeftOperand_config] at h

/-- The sum adds a number to three, if the result is not too large. -/
theorem add_three
    {c : CalculationMode} (hc : c.onWords = false) {n : Nat} (hn : n + 3 < 2 ^ 4) :
    c.binary .native .add (.ofNat n) (.ofNat 3) = .ok (.ofNat (n + 3)) := by
  have hadd := CalculationMode.binary_of_combine (F := .native) (c := c) .add
    (congrArg Except.ok (Ratio.ofNat_add n 3)) (Ratio.checkSize_ofNat hn (by decide))
  rwa [CalculationMode.adjust, hc] at hadd

/-- What may fold the addition folds the sum. -/
theorem fold_sampleSum_of_eligible
    {threshold : Option Nat} (heligible : Chain.isEligible threshold .add = true) :
    sampleSum.takeLeftOperand.1.foldPending .native threshold sampleSum.takeLeftOperand.2 =
      .ok (.ofNat 5, []) := by
  have hsum : sampleSum.takeLeftOperand.1.mode.binary .native .add (.ofNat 2) (.ofNat 3) =
      .ok (.ofNat 5) :=
    add_three rfl (by decide)
  rw [foldPending, takeLeftOperand_sampleSum.1, takeLeftOperand_sampleSum.2, ← List.nil_append [_],
    Chain.fold_concat _ heligible (by simp), hsum]
  exact Chain.fold_of_not_eligible _ (by simp) _

/-- An operator of the same precedence folds the sum. -/
theorem fold_sampleSum
    (op : Operator) (hop : op.precedence = 1) :
    sampleSum.takeLeftOperand.1.foldPending .native (sampleSum.threshold op)
      sampleSum.takeLeftOperand.2 = .ok (.ofNat 5, []) := by
  refine fold_sampleSum_of_eligible ?_
  show Chain.isEligible (some op.precedence) .add = true
  rw [hop]
  rfl

/-- A tighter operator leaves the sum as it is. -/
theorem fold_sampleSum_of_tighter
    (op : Operator) (hop : 1 < op.precedence) :
    sampleSum.takeLeftOperand.1.foldPending .native (sampleSum.threshold op)
      sampleSum.takeLeftOperand.2 = .ok (.ofNat 3, [(.ofNat 2, .add)]) := by
  have heligible : Chain.isEligible (sampleSum.threshold op) .add = false := by
    show Chain.isEligible (some op.precedence) .add = false
    rw [← Bool.not_eq_true, isEligible_some_iff, show Operator.add.precedence = 1 from rfl]
    omega
  rw [foldPending, takeLeftOperand_sampleSum.1, takeLeftOperand_sampleSum.2]
  exact Chain.fold_of_not_eligible _ (by simpa using heligible) _

/-- The sum after one of the operators. -/
theorem step_sampleSum
    (op : Operator) {v : Ratio} {rest : Chain Ratio}
    (hfold : sampleSum.takeLeftOperand.1.foldPending .native (sampleSum.threshold op)
      sampleSum.takeLeftOperand.2 = .ok (v, rest)) :
    (sampleSum.step .native (.binary op)).1 =
      sampleSum.takeLeftOperand.1.withOperator v rest op := by
  have hstep := step_binary_of_waiting (F := .native) waiting_sampleSum rfl rfl op
  rwa [hfold] at hstep

/--
After `2 + 3` neither `+` nor `×` fails.  But `+` folds the sum, and `×` after
it multiplies the result, whereas `×` alone would multiply the three.
-/
theorem sampleSum_operator_not_replaced :
    Reachable .native sampleSum ∧ sampleSum.failed = false ∧
      sampleSum.config.precedence = true ∧ sampleSum.inverseArmed = false ∧
      (sampleSum.step .native (.binary .add)).1.failed = false ∧
      (sampleSum.step .native (.binary .mul)).1.failed = false ∧
      (sampleSum.run .native [.binary .add, .binary .mul]).current = .ofNat 5 ∧
      (sampleSum.run .native [.binary .add, .binary .mul]).pending = [(.ofNat 5, .mul)] ∧
      (sampleSum.run .native [.binary .mul]).current = .ofNat 3 ∧
      (sampleSum.run .native [.binary .mul]).pending =
        [(.ofNat 2, .add), (.ofNat 3, .mul)] ∧
      (sampleSum.run .native [.binary .add, .binary .mul]).pending ≠
        (sampleSum.run .native [.binary .mul]).pending := by
  have hadd := fold_sampleSum .add rfl
  have hmul := fold_sampleSum_of_tighter .mul (by decide)
  have htwice : sampleSum.run .native [.binary .add, .binary .mul] =
      sampleSum.takeLeftOperand.1.withOperator (.ofNat 5) [] .mul :=
    run_binary_binary waiting_sampleSum rfl rfl hadd (Chain.fold_of_not_eligible _ (by simp) _)
  have honce : sampleSum.run .native [.binary .mul] =
      sampleSum.takeLeftOperand.1.withOperator (.ofNat 3) [(.ofNat 2, .add)] .mul :=
    step_sampleSum .mul hmul
  refine ⟨reachable_sampleSum, rfl, rfl, rfl, ?_, ?_, ?_⟩
  · rw [step_sampleSum .add hadd]
    rfl
  · rw [step_sampleSum .mul hmul]
    rfl
  · rw [htwice, honce]
    simp [withOperator]

/-- After `2 + 3 ×` a subtraction takes the multiplication back. -/
theorem sampleSum_operator_replaced :
    Reachable .native sampleSum ∧ sampleSum.failed = false ∧
      sampleSum.config.precedence = true ∧ sampleSum.inverseArmed = false ∧
      (sampleSum.step .native (.binary .mul)).1.failed = false ∧
      (sampleSum.step .native (.binary .sub)).1.failed = false ∧
      sampleSum.run .native [.binary .mul, .binary .sub] =
        sampleSum.run .native [.binary .sub] := by
  have hmul : (sampleSum.step .native (.binary .mul)).1.failed = false := by
    rw [step_sampleSum .mul (fold_sampleSum_of_tighter .mul (by decide))]
    rfl
  have hsub : (sampleSum.step .native (.binary .sub)).1.failed = false := by
    rw [step_sampleSum .sub (fold_sampleSum .sub rfl)]
    rfl
  have h := reachable_sampleSum.replaced_operator_iff rfl rfl rfl hmul hsub
  exact ⟨reachable_sampleSum, rfl, rfl, rfl, hmul, hsub, h.2.2.2.1 (by decide)⟩

end Engine
end DeskCalculator
