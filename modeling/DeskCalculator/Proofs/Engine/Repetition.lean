import DeskCalculator.Proofs.Engine.Replacement
import DeskCalculator.Proofs.Engine.Equals

/-!
# What a repeated equals key repeats

After `=` the engine keeps the last operator, its right operand and the mark
that the value at hand is a result; as long as the mark stands, `=` applies the
operator once more.  Commands that put another value at hand take the mark away,
with one exception: clearing the entry puts zero at hand and leaves the mark.

So a marked value is the last result, or zero if the entry has been cleared
since, and a repetition applies the last operator to that.

**Results.**
* `Coherent.execute_keepsResult`: what a command leaves of a result that stays
  marked.
* `Reachable.keepsResult_of_run`: what is left of it after commands without `=`.
* `marked_result`: the value at hand in every marked state, and what `=` makes
  of it.
* `sampleResult_cleared_repeated`: a repetition that does not start from a
  result.
-/

namespace DeskCalculator
namespace Engine

variable {F : RealFunctions} {m : Engine}

/-- In `m` the value `v` is at hand, and `=` repeats what it would have repeated in `e`. -/
structure KeepsResult (e : Engine) (v : Ratio) (m : Engine) : Prop where
  current : m.current = v
  held : m.held = e.held
  lastOperator : m.lastOperator = e.lastOperator
  mode : m.mode = e.mode

theorem KeepsResult.refl
    (m : Engine) :
    KeepsResult m m.current m :=
  ⟨rfl, rfl, rfl, rfl⟩

theorem KeepsResult.trans
    {e m' : Engine} {v w : Ratio} (h : KeepsResult e v m) (h' : KeepsResult m w m') :
    KeepsResult e w m' :=
  ⟨h'.current, h'.held.trans h.held, h'.lastOperator.trans h.lastOperator, h'.mode.trans h.mode⟩

/-! ### The mark -/

@[simp] theorem settle_afterEquals
    (m : Engine) :
    m.settle.afterEquals = m.afterEquals := by
  unfold settle
  split <;> rfl

@[simp] theorem presentOperand_afterEquals
    (m : Engine) (v : Ratio) (text : String) :
    (m.presentOperand v text).engine.afterEquals = m.afterEquals := by
  rfl

/-- The mark is gone while a number is typed. -/
theorem Coherent.updateEntry_afterEquals
    (h : Coherent m) (hentering : m.entering = true) (edited : Option Entry) :
    (m.updateEntry edited).engine.afterEquals = false := by
  obtain ⟨-, hequals⟩ := h.flags_of_entering hentering
  cases edited <;> exact hequals

theorem Coherent.startEntry_updateEntry_afterEquals
    (h : Coherent m) (edited : Option Entry) :
    (m.startEntry.updateEntry edited).engine.afterEquals = false :=
  h.startEntry.updateEntry_afterEquals (startEntry_entering m) edited

/-- Settling leaves a result as it is. -/
theorem Coherent.settle_of_afterEquals
    (h : Coherent m) (hequals : m.afterEquals = true) :
    m.settle = m :=
  settle_of_not_entering (h.afterEquals hequals).2.2

/-- A key of the entry either is ignored or takes the mark away. -/
theorem keepsResult_of_entry_key
    {ignored : Prop} [Decidable ignored] {r : Reaction}
    (hkey : r.engine.afterEquals = false)
    (h : (if ignored then { engine := m } else r : Reaction).engine.afterEquals = true) :
    m.afterEquals = true ∧
      KeepsResult m m.current (if ignored then { engine := m } else r : Reaction).engine := by
  split at h
  · rw [if_pos ‹_›]
    exact ⟨h, .refl m⟩
  · rw [hkey] at h
    cases h

theorem Coherent.memoryKey_keepsResult
    (hm : Coherent m) (a : MemoryAction) (h : (m.memoryKey a).engine.afterEquals = true) :
    m.afterEquals = true ∧ KeepsResult m m.current (m.memoryKey a).engine := by
  cases a with
  | «recall» =>
      simp only [Engine.memoryKey] at h ⊢
      split at h
      · exact ⟨h, .refl m⟩
      · simp at h
  | clear => exact ⟨h, { KeepsResult.refl m with }⟩
  | store | add | sub =>
      have hequals : m.afterEquals = true := (settle_afterEquals m).symm.trans h
      simp only [Engine.memoryKey, hm.settle_of_afterEquals hequals]
      exact ⟨hequals, { KeepsResult.refl m with }⟩

/-- An operator takes the mark away. -/
theorem binary_afterEquals
    {op : Operator} (herror : (m.binary F op).error = none) :
    (m.binary F op).engine.afterEquals = false := by
  unfold binary at herror ⊢
  dsimp only at herror ⊢
  split at herror
  · cases herror
  · split at herror
    · cases herror
    · rfl

/-- With the mark no group is open. -/
theorem Coherent.closeGroup_keepsResult
    (hm : Coherent m) (h : (m.closeGroup F).engine.afterEquals = true) :
    m.afterEquals = true ∧ KeepsResult m m.current (m.closeGroup F).engine := by
  have hequals : m.afterEquals = true := by
    unfold Engine.closeGroup at h
    dsimp only at h
    split at h
    · exact h
    · split at h <;> simpa using h
  unfold Engine.closeGroup
  rw [(hm.afterEquals hequals).2.1]
  exact ⟨hequals, .refl m⟩

/--
A command other than `=` that leaves the mark has found it, and leaves with it
the value at hand, unless it clears the entry.
-/
theorem Coherent.execute_keepsResult
    (hm : Coherent m) (hfailed : m.failed = false) {c : Command} (hc : c ≠ .equals)
    (hw : ∀ w, c ≠ .wordSize w) (herror : (m.execute F c).error = none)
    (h : (m.execute F c).engine.afterEquals = true) :
    m.afterEquals = true ∧
      KeepsResult m (if c = .clearEntry then .zero else m.current) (m.execute F c).engine := by
  cases c with
  | digit d => exact keepsResult_of_entry_key (hm.startEntry_updateEntry_afterEquals _) h
  | point => exact keepsResult_of_entry_key (hm.startEntry_updateEntry_afterEquals _) h
  | exponent => exact keepsResult_of_entry_key (hm.startEntry_updateEntry_afterEquals _) h
  | binary op =>
      rw [Engine.execute, binary_afterEquals herror] at h
      cases h
  | percent =>
      simp only [Engine.execute, Engine.percent] at h
      split at h <;> simp at h
  | equals => exact absurd rfl hc
  | clear => cases h
  | clearEntry =>
      simp only [Engine.execute, Engine.clearEntry, hfailed, Bool.false_eq_true, if_false] at h ⊢
      exact ⟨h, rfl, rfl, rfl, rfl⟩
  | backspace =>
      cases hentering : m.entering with
      | true =>
          simp only [Engine.execute, backspace, if_pos hentering,
            hm.updateEntry_afterEquals hentering, Bool.false_eq_true] at h
      | false =>
          have hignored : m.execute F .backspace = { engine := m } := if_neg (by simp [hentering])
          rw [hignored] at h ⊢
          exact ⟨h, .refl m⟩
  | negate =>
      simp only [Engine.execute, Engine.negate] at h
      split at h
      · rw [hm.updateEntry_afterEquals ‹_›] at h
        cases h
      · simp at h
  | unary f =>
      simp only [Engine.execute, Engine.unary] at h ⊢
      split at h
      · rename_i hignored
        rw [if_pos hignored]
        exact ⟨h, .refl m⟩
      · split at h <;> simp at h
  | inverse | angle _ => exact ⟨h, { KeepsResult.refl m with }⟩
  | memory a => exact hm.memoryKey_keepsResult a h
  | openParen =>
      simp only [Engine.execute, Engine.openGroup] at h herror
      split at h
      · rw [if_pos ‹_›] at herror
        cases herror
      · simp at h
  | closeParen => exact hm.closeGroup_keepsResult h
  | base b | style s =>
      have hequals : m.afterEquals = true := (settle_afterEquals m).symm.trans h
      simp only [Engine.execute, setBase, setStyle, hm.settle_of_afterEquals hequals]
      exact ⟨hequals, { KeepsResult.refl m with }⟩
  | wordSize w => exact absurd rfl (hw w)

/-! ### Runs -/

/-- What is at hand after the last `=`, with the commands since. -/
def keptResult (e : Engine) (after : List Command) : Ratio :=
  if .clearEntry ∈ after then .zero else e.current

theorem keptResult_concat
    (e : Engine) (after : List Command) (c : Command) :
    e.keptResult (after ++ [c]) = if c = .clearEntry then .zero else e.keptResult after := by
  unfold keptResult
  by_cases hc : c = .clearEntry
  · simp [hc]
  · simp [hc, Ne.symm hc]

/-- Without another `=`, a state is marked only if it began so, and then it keeps the result. -/
theorem Reachable.keepsResult_of_run
    {e : Engine} (he : Reachable F e) {after : List Command} (hafter : .equals ∉ after)
    (hw : ∀ w, .wordSize w ∉ after) (hm : (e.run F after).failed = false)
    (hequals : (e.run F after).afterEquals = true) :
    e.failed = false ∧ e.afterEquals = true ∧
      KeepsResult e (e.keptResult after) (e.run F after) := by
  induction after using List.reverseRecOn with
  | nil => exact ⟨hm, hequals, .refl e⟩
  | append_singleton after c ih =>
      have hc : c ≠ .equals := fun heq => hafter (by simp [heq])
      have hcw : ∀ w, c ≠ .wordSize w := fun w heq => hw w (by simp [heq])
      have hcoherent := (he.run F after).coherent
      rw [run_append, run_cons, run_nil] at hm hequals ⊢
      cases hfailed : (e.run F after).failed with
      | true =>
          rcases step_failed_cases (F := F) hfailed c with heq | heq
          · rw [heq] at hm
            exact absurd hfailed (by simp [hm])
          · rw [heq] at hequals
            cases hequals
      | false =>
          rw [step_eq F hfailed] at hm hequals ⊢
          cases herror : ((e.run F after).execute F c).error with
          | some err =>
              rw [herror] at hm
              cases hm
          | none =>
              rw [herror] at hequals
              obtain ⟨hmarked, hstep⟩ :=
                (hcoherent hfailed).execute_keepsResult hfailed hc hcw herror hequals
              obtain ⟨hefailed, heequals, hkeeps⟩ :=
                ih (fun hin => hafter (List.mem_append_left _ hin))
                  (fun w hin => hw w (List.mem_append_left _ hin)) hfailed hmarked
              refine ⟨hefailed, heequals, ?_⟩
              rw [keptResult_concat, ← hkeeps.current]
              exact hkeeps.trans hstep

/-! ### Repetitions -/

/-- What `=` makes of the value `v` with the last operator and its right operand. -/
def repetition (F : RealFunctions) (e : Engine) (v : Ratio) : Except CalcError Ratio :=
  match e.lastOperator with
  | none => .ok v
  | some op => e.mode.binary F op v e.held

theorem KeepsResult.repetition_eq
    {e : Engine} {v : Ratio} (h : KeepsResult e v m) (w : Ratio) :
    m.repetition F w = e.repetition F w := by
  unfold repetition
  rw [h.lastOperator, h.mode, h.held]

/-- A repeated `=` puts the repetition at hand, or fails with it. -/
theorem Coherent.step_equals_of_marked
    (hm : Coherent m) (hfailed : m.failed = false) (hequals : m.afterEquals = true) :
    match m.repetition F m.current with
    | .error _ => (m.step F .equals).1.failed = true
    | .ok v => (m.step F .equals).1.failed = false ∧ (m.step F .equals).1.current = v := by
  have hentering := (hm.afterEquals hequals).2.2
  cases hvalue : m.repetition F m.current with
  | ok v =>
      have hyields : Yields (m.equals F) m v := by
        refine equals_of_afterEquals hequals hentering ?_
        unfold repetition at hvalue
        split <;> rename_i hop <;> rw [hop] at hvalue
        · exact (Except.ok.inj hvalue).symm
        · exact hvalue
      dsimp only
      rw [hyields.step_equals hfailed, hyields.failed]
      exact ⟨hfailed, hyields.current⟩
  | error err =>
      cases hop : m.lastOperator with
      | none => simp [repetition, hop] at hvalue
      | some op =>
          simp only [repetition, hop] at hvalue
          dsimp only
          rw [step_eq F hfailed]
          simp only [Engine.execute, Engine.equals, if_pos hequals, Engine.repeatEquals, hop,
            settle_of_not_entering hentering, hvalue]

/-- Clearing the entry puts zero at hand and leaves the mark. -/
theorem keepsResult_step_clearEntry
    (hm : m.failed = false) :
    KeepsResult m .zero (m.step F .clearEntry).1 ∧ (m.step F .clearEntry).1.failed = false ∧
      (m.step F .clearEntry).1.afterEquals = m.afterEquals := by
  rw [step_eq F hm]
  simp only [Engine.execute, Engine.clearEntry, if_neg (show ¬m.failed = true by simp [hm]),
    and_true]
  exact ⟨⟨rfl, rfl, rfl, rfl⟩, hm⟩

/-! ### A sum -/

/-- What a completed calculation leaves for a repetition. -/
theorem complete_keeps
    {v : Ratio} {rest : Chain Ratio}
    (hfold : m.settle.foldPending F none m.settle.current = .ok (v, rest)) :
    (complete F m).engine.afterEquals = true ∧
      (complete F m).engine.lastOperator = m.pending.lastOperator? ∧
      (complete F m).engine.held = m.settle.current ∧ (complete F m).engine.mode = m.mode := by
  rw [foldPending_settle] at hfold
  simp only [complete, foldPending_noted, hfold, true_and]
  exact ⟨congrArg _ m.settle_pending, m.settle_mode⟩

/-- The result of the sum `2 + 3`. -/
def sampleResult : Engine := sampleSum.run .native [.equals]

theorem sampleResult_eq :
    sampleResult = (complete .native sampleSum).engine ∧
      Yields (complete .native sampleSum) sampleSum (.ofNat 5) := by
  have hyields : Yields (complete .native sampleSum) sampleSum (.ofNat 5) :=
    complete_of_fold (fold_sampleSum_of_eligible rfl)
  have hequals : sampleSum.equals .native = complete .native sampleSum := rfl
  refine ⟨?_, hyields⟩
  rw [← hequals] at hyields ⊢
  exact hyields.step_equals rfl

/-- It is five, and `=` adds three once more. -/
theorem marked_sampleResult :
    sampleResult.failed = false ∧ sampleResult.afterEquals = true ∧
      sampleResult.current = .ofNat 5 ∧
      ∀ n, n + 3 < 2 ^ 4 → sampleResult.repetition .native (.ofNat n) = .ok (.ofNat (n + 3)) := by
  have hfold : sampleSum.settle.foldPending .native none sampleSum.settle.current = _ :=
    fold_sampleSum_of_eligible rfl
  obtain ⟨hequals, hop, hheld, hmode⟩ := complete_keeps hfold
  obtain ⟨hresult, hyields⟩ := sampleResult_eq
  refine ⟨?_, ?_, ?_, fun n hn => ?_⟩
  · rw [hresult, hyields.failed]
    rfl
  · rw [hresult, hequals]
  · rw [hresult, hyields.current]
  · have hthree : sampleSum.settle.current = .ofNat 3 := takeLeftOperand_sampleSum.2
    rw [repetition, hresult, hop, hheld, hthree, hmode]
    exact add_three rfl hn

/-! ### Marked states -/

/--
In a run that does not change the width of words, a state with the mark that does
not show an error comes from an `=`.  It keeps what the last one repeats, and its
value is the result of that, or zero if the entry has been cleared since; so it
is the result exactly if the entry has not been cleared or the result is zero.
The next `=` applies the last operator to this value.
-/
theorem marked_result
    (config : Config) (settings : Settings) {cs : List Command} (hw : ∀ w, .wordSize w ∉ cs)
    {m : Engine} (hrun : m = (Engine.new config settings).run F cs) (hm : m.failed = false)
    (hequals : m.afterEquals = true) :
    .equals ∈ cs ∧
      ∀ before after e, cs = before ++ .equals :: after → .equals ∉ after →
        e = (Engine.new config settings).run F (before ++ [.equals]) →
        e.failed = false ∧ e.afterEquals = true ∧
          KeepsResult e (if .clearEntry ∈ after then .zero else e.current) m ∧
          (m.current = e.current ↔ .clearEntry ∉ after ∨ e.current = .zero) ∧
          match e.repetition F m.current with
          | .error _ => (m.step F .equals).1.failed = true
          | .ok v => (m.step F .equals).1.failed = false ∧ (m.step F .equals).1.current = v := by
  subst hrun
  have hnew : Reachable F (Engine.new config settings) := .new config settings
  refine ⟨?_, ?_⟩
  · by_contra hin
    cases (hnew.keepsResult_of_run hin hw hm hequals).2.1
  · rintro before after e rfl hafter rfl
    have hsplit : (Engine.new config settings).run F (before ++ .equals :: after) =
        ((Engine.new config settings).run F (before ++ [.equals])).run F after := by
      rw [← run_append, List.append_assoc, List.singleton_append]
    generalize he : (Engine.new config settings).run F (before ++ [.equals]) = e at hsplit
    have hreachable : Reachable F e := he ▸ hnew.run F _
    rw [hsplit] at hm hequals ⊢
    obtain ⟨hefailed, heequals, hkeeps⟩ := hreachable.keepsResult_of_run hafter
      (fun w hin => hw w (by simp [hin])) hm hequals
    have hstep := ((hreachable.run F after).coherent hm).step_equals_of_marked (F := F) hm
      hequals
    rw [hkeeps.repetition_eq] at hstep
    refine ⟨hefailed, heequals, hkeeps, ?_, hstep⟩
    rw [hkeeps.current, keptResult]
    by_cases hclear : .clearEntry ∈ after
    · simp [hclear, eq_comm]
    · simp [hclear]

/-- After `2 + 3 = =` the result is eight. -/
theorem sampleResult_repeated :
    sampleResult.failed = false ∧ sampleResult.afterEquals = true ∧
      (sampleResult.step .native .equals).1.failed = false ∧
      (sampleResult.step .native .equals).1.current = .ofNat 8 := by
  obtain ⟨hm, hequals, hfive, hrepetition⟩ := marked_sampleResult
  have hrun : sampleResult =
      (Engine.new {} {}).run .native ([.digit 2, .binary .add, .digit 3] ++ .equals :: []) := rfl
  obtain ⟨-, hlast⟩ := marked_result (F := .native) {} {} (by simp) hrun hm hequals
  obtain ⟨-, -, -, -, hstep⟩ := hlast _ _ sampleResult rfl List.not_mem_nil hrun
  rw [hfive, hrepetition 5 (by decide)] at hstep
  exact ⟨hm, hequals, hstep⟩

/--
After `2 + 3 =` and clearing the entry the mark stands, but the value at hand is
not the result five any more, and `=` makes three of it instead of eight.
-/
theorem sampleResult_cleared_repeated :
    Reachable .native sampleResult ∧ sampleResult.current = .ofNat 5 ∧
      (sampleResult.step .native .clearEntry).1.failed = false ∧
      (sampleResult.step .native .clearEntry).1.afterEquals = true ∧
      (sampleResult.step .native .clearEntry).1.current ≠ sampleResult.current ∧
      (sampleResult.run .native [.equals]).current = .ofNat 8 ∧
      (sampleResult.run .native [.clearEntry, .equals]).current = .ofNat 3 := by
  obtain ⟨hm, hequals, hfive, hrepetition⟩ := marked_sampleResult
  have hreachable : Reachable .native sampleResult := reachable_sampleSum.run .native [.equals]
  have hagain := (hreachable.coherent hm).step_equals_of_marked (F := .native) hm hequals
  rw [hfive, hrepetition 5 (by decide)] at hagain
  obtain ⟨hkeeps, hcleared, hmarked⟩ := keepsResult_step_clearEntry (F := .native) hm
  have hzero : Ratio.zero = .ofNat 0 := by
    rw [← Ratio.ofRat_zero, ← Nat.cast_zero, Ratio.ofRat_natCast]
  have hthree := ((hreachable.step .clearEntry).coherent hcleared).step_equals_of_marked
    (F := .native) hcleared (hmarked.trans hequals)
  rw [hkeeps.repetition_eq, hkeeps.current, hzero, hrepetition 0 (by decide)] at hthree
  refine ⟨hreachable, hfive, hcleared, hmarked.trans hequals, fun heq => ?_, hagain.2, hthree.2⟩
  rw [hkeeps.current, hzero, hfive] at heq
  exact absurd (ScaledNumber.ofNat_injective (congrArg Ratio.num heq)) (by decide)

end Engine
end DeskCalculator
