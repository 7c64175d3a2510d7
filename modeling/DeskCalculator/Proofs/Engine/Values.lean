import DeskCalculator.Proofs.Chain.Operands
import DeskCalculator.Proofs.Engine.Calculation
import DeskCalculator.Proofs.Engine.Typing
import DeskCalculator.Proofs.Entry.Value

/-!
# The values that an engine holds

An engine holds values in five places: at hand, as the operand of a repeated
`=`, in memory, in the pending chain and in the chains outside open groups.
Whatever a command writes there is zero, one of the values held, the number that
was being typed, or a result adjusted to the mode.  Percentages and memory sums
are results, too, but neither of an operator nor of a function.

**Results.**
* `HoldsIn.execute_of_keeps`: what the mode of calculation keeps, every command
  keeps that leaves the mode, if the number being typed has it and a percentage
  or memory sum has it.
* `HoldsIn.execute`: this is so for a closed property.
* `Reachable.holds_lowestTerms`: all values are in lowest terms.
-/

namespace DeskCalculator
namespace Engine

/-- Every value that the engine holds has a property. -/
structure Holds (P : Ratio → Prop) (m : Engine) : Prop where
  current : P m.current
  held : P m.held
  memory : ∀ v ∈ m.memory, P v
  pending : m.pending.AllOperands P
  groups : ∀ g ∈ m.groups, g.pending.AllOperands P

/-- The same in a given mode of calculation. -/
structure HoldsIn (c : CalculationMode) (P : Ratio → Prop) (m : Engine) : Prop
    extends Holds P m where
  mode : m.mode = c

/-- What a number being typed is worth under the rules. -/
def typedValue (rules : EntryRules) (e : Entry) : Ratio :=
  if Numeral.isValid (e.text ['.']) Entry.maxExponentDigits rules.maxDigits rules.radix then
    e.value rules.radix
  else .zero

/-- The number being typed, if there is one, has a property once it is settled. -/
def SettlesIn (c : CalculationMode) (P : Ratio → Prop) (m : Engine) : Prop :=
  WhileTyping (fun rules e => P (c.adjust (typedValue rules e))) m

/-- The result, before it is adjusted, of a command that is neither an operator nor a function. -/
def uncheckedResult? (m : Engine) : Command → Option Ratio
  | .percent => (m.leaveEquals.settle.percentOf m.leaveEquals.settle.current).toOption
  | .memory .add => some (m.settle.memory.getD .zero + m.settle.current)
  | .memory .sub => some (m.settle.memory.getD .zero - m.settle.current)
  | _ => none

variable {F : RealFunctions} {c : CalculationMode} {P : Ratio → Prop} {m : Engine}

theorem percentOf_of_uncheckedResult?
    {v : Ratio} (h : v ∈ m.uncheckedResult? .percent) :
    m.leaveEquals.settle.percentOf m.leaveEquals.settle.current = .ok v := by
  cases hr : m.leaveEquals.settle.percentOf m.leaveEquals.settle.current with
  | error e =>
      rw [uncheckedResult?, hr] at h
      cases h
  | ok r =>
      rw [uncheckedResult?, hr] at h
      rw [Option.some.inj h]

/-! ### Typing -/

theorem HoldsIn.leaveEquals
    (h : HoldsIn c P m) :
    HoldsIn c P m.leaveEquals := by
  unfold Engine.leaveEquals
  split
  · exact { h with }
  · exact h

theorem HoldsIn.startEntry
    (h : HoldsIn c P m) :
    HoldsIn c P m.startEntry := by
  unfold Engine.startEntry
  split
  · exact h
  · exact { h.leaveEquals with }

theorem HoldsIn.updateEntry
    (h : HoldsIn c P m) (edited : Option Entry) :
    HoldsIn c P (m.updateEntry edited).engine := by
  cases edited with
  | none => exact h
  | some entry => exact { h with }

/-- What has been typed is in lowest terms. -/
theorem entryValue_lowestTerms
    (m : Engine) :
    Ratio.LowestTerms m.entryValue := by
  have hradix : m.base.radix ≠ 0 := by
    cases m.base <;> decide
  unfold entryValue
  dsimp only
  split
  · exact m.entry.value_lowestTerms hradix
  · exact Ratio.lowestTerms_zero

theorem settlesIn_of_closed
    (hc : c.Closed P) (m : Engine) :
    SettlesIn c P m :=
  fun _ => hc.adjust m.entryValue_lowestTerms

theorem HoldsIn.settle
    (h : HoldsIn c P m) (ht : SettlesIn c P m) :
    HoldsIn c P m.settle := by
  unfold Engine.settle
  split
  · rename_i hentering
    refine { h with current := ?_ }
    rw [h.mode]
    exact ht hentering
  · exact h

theorem HoldsIn.presentOperand
    (h : HoldsIn c P m) {v : Ratio} (hv : P v) (text : String) :
    HoldsIn c P (m.presentOperand v text).engine :=
  { h with current := hv }

theorem HoldsIn.negate
    (hk : c.Keeps F P) (h : HoldsIn c P m) :
    HoldsIn c P m.negate.engine := by
  unfold Engine.negate
  split
  · exact h.updateEntry _
  · dsimp only
    have hm := h.leaveEquals
    refine hm.presentOperand ?_ _
    rw [hm.mode]
    exact hk.neg hm.current

/-! ### Operators -/

theorem HoldsIn.disarmFor
    (h : HoldsIn c P m) (op : Operator) :
    HoldsIn c P (m.disarmFor op) := by
  unfold Engine.disarmFor
  split
  · exact { h with }
  · exact h

theorem HoldsIn.takeLeftOperand
    (h : HoldsIn c P m) (ht : SettlesIn c P m) :
    HoldsIn c P m.takeLeftOperand.1 ∧ P m.takeLeftOperand.2 := by
  unfold Engine.takeLeftOperand
  split
  · rename_i v op hlast
    have hmem : (v, op) ∈ m.pending := by
      split at hlast
      · exact List.mem_of_getLast? hlast
      · cases hlast
    exact ⟨{ h with pending := h.pending.dropLast }, h.pending _ hmem⟩
  · have hm := h.leaveEquals.settle ht.leaveEquals
    exact ⟨{ hm with }, hm.current⟩

theorem HoldsIn.foldPending
    (hk : c.Keeps F P) (h : HoldsIn c P m) {threshold : Option Nat} {right v : Ratio}
    {rest : Chain Ratio} (hright : P right)
    (hfold : m.foldPending F threshold right = .ok (v, rest)) :
    P v ∧ rest.AllOperands P := by
  unfold Engine.foldPending at hfold
  rw [h.mode] at hfold
  exact h.pending.fold hk.binary hright hfold

theorem HoldsIn.binary
    (hk : c.Keeps F P) (h : HoldsIn c P m) (ht : SettlesIn c P m) (op : Operator) :
    HoldsIn c P (m.binary F op).engine := by
  unfold Engine.binary
  dsimp only
  obtain ⟨hm, hright⟩ := (h.disarmFor (m.effectiveOperator op)).takeLeftOperand (ht.disarmFor _)
  split
  · exact { hm with pending := Chain.allOperands_nil }
  · rename_i v rest hfold
    obtain ⟨hv, hrest⟩ := hm.foldPending hk hright hfold
    split
    · exact { hm with current := hv, pending := hrest }
    · rename_i pending hpush
      exact { hm with current := hv, pending := hrest.push hv hpush }

/-! ### Parentheses -/

theorem HoldsIn.openGroup
    (h : HoldsIn c P m) :
    HoldsIn c P m.openGroup.engine := by
  unfold Engine.openGroup
  split
  · exact h
  · have hm := h.leaveEquals
    refine { hm with pending := Chain.allOperands_nil, groups := ?_ }
    intro g hg
    rcases List.mem_cons.mp hg with rfl | hg
    · exact hm.pending
    · exact hm.groups g hg

theorem HoldsIn.closeGroup
    (hk : c.Keeps F P) (h : HoldsIn c P m) (ht : SettlesIn c P m) :
    HoldsIn c P (m.closeGroup F).engine := by
  unfold Engine.closeGroup
  split
  · exact h
  · rename_i group groups hgroups
    have hm := h.settle ht
    dsimp only
    split
    · exact { hm with pending := Chain.allOperands_nil }
    · rename_i v rest hfold
      have hmem : ∀ g ∈ group :: groups, g.pending.AllOperands P := by
        rw [← hgroups]
        exact h.groups
      have houter : HoldsIn c P { m.settle with
          groups, pending := group.pending, tokens := group.tokens.dropLast } :=
        { hm with
          pending := hmem group List.mem_cons_self
          groups := fun g hg => hmem g (List.mem_cons_of_mem _ hg) }
      exact houter.presentOperand (hm.foldPending hk hm.current hfold).1 _

theorem HoldsIn.closeGroups
    (hk : c.Keeps F P) (h : HoldsIn c P m) (ht : SettlesIn c P m) (n : Nat) :
    HoldsIn c P (closeGroups F n m).engine := by
  induction n generalizing m with
  | zero =>
      exact h
  | succ n ih =>
      exact Reaction.andThen_engine (h.closeGroup hk ht) fun hm => ih hm ht.closeGroup

/-! ### Equals -/

theorem HoldsIn.complete
    (hk : c.Keeps F P) (h : HoldsIn c P m) (ht : SettlesIn c P m) :
    HoldsIn c P (complete F m).engine := by
  unfold Engine.complete
  dsimp only
  have hm := h.settle ht
  have hheld : HoldsIn c P { m.settle with
      operandText := none, lastOperator := m.settle.pending.lastOperator?,
      held := m.settle.current } :=
    { hm with held := hm.current }
  split
  · exact { hheld with pending := Chain.allOperands_nil }
  · rename_i v rest hfold
    obtain ⟨hv, hrest⟩ := hheld.foldPending hk hm.current hfold
    exact { hheld with current := hv, pending := hrest }

theorem HoldsIn.repeatEquals
    (hk : c.Keeps F P) (h : HoldsIn c P m) (ht : SettlesIn c P m) :
    HoldsIn c P (m.repeatEquals F).engine := by
  unfold Engine.repeatEquals
  split
  · exact h
  · have hm := h.settle ht
    dsimp only
    rw [hm.mode]
    split
    · exact hm
    · rename_i v hv
      exact { hm with current := hk.binary hm.current hm.held hv }

theorem HoldsIn.equals
    (hk : c.Keeps F P) (h : HoldsIn c P m) (ht : SettlesIn c P m) :
    HoldsIn c P (m.equals F).engine := by
  unfold Engine.equals
  split
  · exact h.repeatEquals hk ht
  · exact Reaction.andThen_engine (h.closeGroups hk ht _) fun hm =>
      hm.complete hk (ht.closeGroups _)

/-! ### Functions -/

theorem HoldsIn.percentOf_lowestTerms
    (hc : c.Closed P) (h : HoldsIn c P m) {x r : Ratio} (hx : P x)
    (hr : m.percentOf x = .ok r) :
    Ratio.LowestTerms r := by
  have hhundred := Ratio.lowestTerms_ofInt 100
  have hpart : ∀ left op, m.pending.getLast? = some (left, op) →
      Ratio.LowestTerms (left * x) := by
    intro left op hlast
    have hleft := h.pending _ (List.mem_of_getLast? hlast)
    exact (hc.lowestTerms hleft).mul (hc.lowestTerms hx)
  unfold percentOf at hr
  split at hr
  · rename_i left hlast
    exact (hpart left _ hlast).div hhundred hr
  · rename_i left hlast
    exact (hpart left _ hlast).div hhundred hr
  · exact (hc.lowestTerms hx).div hhundred hr

theorem HoldsIn.percent
    (h : HoldsIn c P m) (ht : SettlesIn c P m)
    (hresult : ∀ v ∈ m.uncheckedResult? .percent, P (c.adjust v)) :
    HoldsIn c P m.percent.engine := by
  unfold Engine.percent
  dsimp only
  have hm := h.leaveEquals.settle ht.leaveEquals
  split
  · exact hm
  · rename_i r hr
    refine hm.presentOperand ?_ _
    rw [hm.mode]
    exact hresult r (by rw [uncheckedResult?, hr]; rfl)

theorem HoldsIn.unary
    (hk : c.Keeps F P) (h : HoldsIn c P m) (ht : SettlesIn c P m) (f : ScientificFunction) :
    HoldsIn c P (m.unary F f).engine := by
  unfold Engine.unary
  split
  · exact h
  · dsimp only
    have hm : HoldsIn c P { m.leaveEquals.settle with inverseArmed := false } :=
      { h.leaveEquals.settle ht.leaveEquals with }
    split
    · exact hm
    · rename_i v hv
      rw [hm.mode] at hv
      exact hm.presentOperand (hk.unary hm.current hv) _

/-! ### Memory, clearing and modes -/

/-- The memory, zero if it is empty, and the value at hand are in lowest terms. -/
theorem HoldsIn.memory_current_lowestTerms
    (hc : c.Closed P) (h : HoldsIn c P m) :
    Ratio.LowestTerms (m.memory.getD .zero) ∧ Ratio.LowestTerms m.current := by
  refine ⟨?_, hc.lowestTerms h.current⟩
  cases hmemory : m.memory with
  | none => exact Ratio.lowestTerms_zero
  | some v => exact hc.lowestTerms (h.memory v hmemory)

theorem HoldsIn.withMemory
    (h : HoldsIn c P m) {v : Ratio} (hv : P v) :
    HoldsIn c P { m with memory := some v } :=
  { h with memory := fun _ hw => Option.some.inj hw ▸ hv }

theorem HoldsIn.memoryKey
    (hk : c.Keeps F P) (h : HoldsIn c P m) (ht : SettlesIn c P m) (a : MemoryAction)
    (hresult : ∀ v ∈ m.uncheckedResult? (.memory a), P (c.adjust v)) :
    HoldsIn c P (m.memoryKey a).engine := by
  have hm := h.settle ht
  cases a with
  | store => exact hm.withMemory hm.current
  | «recall» =>
      simp only [Engine.memoryKey]
      split
      · exact h
      · rename_i v hv
        have hleft := h.leaveEquals
        refine { hleft with current := ?_ }
        rw [h.mode]
        exact hk.adjust (h.memory v hv)
  | clear => exact { h with memory := fun _ hw => absurd hw (Option.not_mem_none _) }
  | add =>
      refine hm.withMemory ?_
      rw [hm.mode]
      exact hresult _ rfl
  | sub =>
      refine hm.withMemory ?_
      rw [hm.mode]
      exact hresult _ rfl

theorem HoldsIn.clear
    (hzero : P .zero) (h : HoldsIn c P m) :
    HoldsIn c P m.clear.engine where
  current := hzero
  held := hzero
  memory := h.memory
  pending := Chain.allOperands_nil
  groups := by simp [Engine.clear]
  mode := h.mode

theorem HoldsIn.clearEntry
    (hzero : P .zero) (h : HoldsIn c P m) :
    HoldsIn c P m.clearEntry.engine := by
  unfold Engine.clearEntry
  split
  · exact h.clear hzero
  · exact { h with current := hzero }

/--
Every command but a change of the word size keeps what the mode keeps, if the
number being typed and a percentage or memory sum have it.
-/
theorem HoldsIn.execute_of_keeps
    (hk : c.Keeps F P) (h : HoldsIn c P m) (ht : SettlesIn c P m) {k : Command}
    (hresult : ∀ v ∈ m.uncheckedResult? k, P (c.adjust v)) (hw : ∀ w, k ≠ .wordSize w) :
    HoldsIn c P (m.execute F k).engine := by
  cases k with
  | digit d =>
      simp only [Engine.execute, digit]
      split
      · exact h
      · exact h.startEntry.updateEntry _
  | point =>
      simp only [Engine.execute, point]
      split
      · exact h
      · exact h.startEntry.updateEntry _
  | exponent =>
      simp only [Engine.execute, exponent]
      split
      · exact h
      · exact h.startEntry.updateEntry _
  | backspace =>
      simp only [Engine.execute, backspace]
      split
      · exact h.updateEntry _
      · exact h
  | binary op => exact h.binary hk ht op
  | percent => exact h.percent ht hresult
  | equals => exact h.equals hk ht
  | clear => exact h.clear hk.zero
  | clearEntry => exact h.clearEntry hk.zero
  | negate => exact h.negate hk
  | unary f => exact h.unary hk ht f
  | inverse => exact { h with }
  | memory a => exact h.memoryKey hk ht a hresult
  | openParen => exact h.openGroup
  | closeParen => exact h.closeGroup hk ht
  | angle u => exact { h with }
  | base b => exact { h.settle ht with }
  | style s => exact { h.settle ht with }
  | wordSize w => exact absurd rfl (hw w)

/-- Percentages and memory sums of values in lowest terms are in lowest terms. -/
theorem HoldsIn.uncheckedResult_lowestTerms
    (hc : c.Closed P) (h : HoldsIn c P m) (k : Command) :
    ∀ v ∈ m.uncheckedResult? k, Ratio.LowestTerms v := by
  have hm := h.settle (settlesIn_of_closed hc m)
  obtain ⟨hmemory, hcurrent⟩ := hm.memory_current_lowestTerms hc
  intro v hv
  cases k with
  | percent =>
      have hleft := h.leaveEquals.settle (settlesIn_of_closed hc _)
      exact hleft.percentOf_lowestTerms hc hleft.current (percentOf_of_uncheckedResult? hv)
  | memory a =>
      cases a with
      | add => exact Option.some.inj hv ▸ hmemory.add hcurrent
      | sub => exact Option.some.inj hv ▸ hmemory.sub hcurrent
      | _ => cases hv
  | _ => cases hv

/-- Every command but a change of the word size keeps a closed property of all values. -/
theorem HoldsIn.execute
    (hc : c.Closed P) (h : HoldsIn c P m) {k : Command} (hk : ∀ w, k ≠ .wordSize w) :
    HoldsIn c P (m.execute F k).engine :=
  h.execute_of_keeps hc.keeps (settlesIn_of_closed hc m)
    (fun v hv => hc.adjust (h.uncheckedResult_lowestTerms hc k v hv)) hk

/-- All values adjusted to the mode. -/
theorem Holds.adjustValues
    {Q : Ratio → Prop} (hQ : m.mode.Closed Q) (h : Holds Ratio.LowestTerms m) :
    Holds Q m.adjustValues where
  current := hQ.adjust h.current
  held := hQ.adjust h.held
  memory := by
    intro v hv
    obtain ⟨u, hu, rfl⟩ := Option.map_eq_some_iff.mp hv
    exact hQ.adjust (h.memory u hu)
  pending := h.pending.mapOperands fun _ => hQ.adjust
  groups := by
    intro g hg
    obtain ⟨g', hg', rfl⟩ := List.mem_map.mp hg
    exact (h.groups g' hg').mapOperands fun _ => hQ.adjust

theorem holds_new
    {P : Ratio → Prop} (hP : P .zero) (config : Config) (settings : Settings) :
    Holds P (Engine.new config settings) where
  current := hP
  held := hP
  memory := fun _ hv => absurd hv (Option.not_mem_none _)
  pending := Chain.allOperands_nil
  groups := by simp [Engine.new]

/-! ### Lowest terms -/

theorem Holds.settle_withWordSize
    (h : Holds Ratio.LowestTerms m) (w : WordSize) :
    Holds Ratio.LowestTerms { m.settle with wordSize := w } := by
  have hm : HoldsIn m.mode Ratio.LowestTerms m := ⟨h, rfl⟩
  exact { hm.settle (settlesIn_of_closed (CalculationMode.closed_lowestTerms _) m) with }

theorem Holds.setWordSize_lowestTerms
    (h : Holds Ratio.LowestTerms m) (w : WordSize) :
    Holds Ratio.LowestTerms (m.setWordSize w).engine := by
  unfold Engine.setWordSize
  dsimp only
  split
  · exact (h.settle_withWordSize w).adjustValues (CalculationMode.closed_lowestTerms _)
  · exact h.settle_withWordSize w

theorem Holds.execute_lowestTerms
    (h : Holds Ratio.LowestTerms m) (k : Command) :
    Holds Ratio.LowestTerms (m.execute F k).engine := by
  have hm : HoldsIn m.mode Ratio.LowestTerms m := ⟨h, rfl⟩
  cases k with
  | wordSize w => exact h.setWordSize_lowestTerms w
  | _ => exact (hm.execute (CalculationMode.closed_lowestTerms _) (by simp)).toHolds

/-- Whatever has been typed, all values are in lowest terms. -/
theorem Reachable.holds_lowestTerms
    (h : Reachable F m) :
    Holds Ratio.LowestTerms m := by
  induction h with
  | new config settings => exact holds_new Ratio.lowestTerms_zero config settings
  | step _ k ih => exact step_engine F ih (ih.execute_lowestTerms k) fun _ hm => { hm with }

/-! ### Words -/

/-- Every value held is a word of the width in force. -/
def HoldsWords (m : Engine) : Prop :=
  Holds (IsWord m.wordSize.bits) m

/-- A change of the width chops every value. -/
theorem Holds.setWordSize_words
    (h : Holds Ratio.LowestTerms m) (hw : m.config.onWords = true) (w : WordSize) :
    HoldsWords (m.setWordSize w).engine := by
  have hsettle : m.settle.config.onWords = true := by
    rwa [settle_config]
  unfold Engine.setWordSize
  dsimp only
  rw [if_pos hsettle]
  exact (h.settle_withWordSize w).adjustValues (CalculationMode.closed_isWord hsettle)

theorem HoldsWords.execute
    (h : HoldsWords m) (hlowest : Holds Ratio.LowestTerms m) (hw : m.config.onWords = true)
    (k : Command) :
    HoldsWords (m.execute F k).engine := by
  have hm : HoldsIn m.mode (IsWord m.mode.bits) m := ⟨h, rfl⟩
  -- in the same mode words keep their width
  have hkeep : (∀ w, k ≠ .wordSize w) → HoldsWords (m.execute F k).engine := by
    intro hk
    have hresult := hm.execute (F := F) (CalculationMode.closed_isWord hw) hk
    have hholds := hresult.toHolds
    rw [← hresult.mode] at hholds
    exact hholds
  cases k with
  | wordSize w => exact hlowest.setWordSize_words hw w
  | _ => exact hkeep (by simp)

/-- A change of the width without an error before takes effect. -/
theorem step_wordSize
    (hm : m.failed = false) (w : WordSize) :
    (m.step F (.wordSize w)).1.wordSize = w := by
  rw [step_eq F hm]
  simp only [Engine.execute, Engine.setWordSize]
  split <;> rfl

theorem Reachable.holdsWords_step
    (h : Reachable F m) (hw : m.config.onWords = true) (hm : HoldsWords m) (k : Command) :
    HoldsWords (m.step F k).1 :=
  step_engine F hm (hm.execute h.holds_lowestTerms hw k) fun _ hm => { hm with }

theorem Reachable.holdsWords_of_onWords
    (h : Reachable F m) (hw : m.config.onWords = true) :
    HoldsWords m := by
  induction h with
  | new config settings => exact holds_new (isWord_zero _) config settings
  | step h k ih =>
      rw [step_config] at hw
      exact h.holdsWords_step hw (ih hw) k

/--
On words every value held in a reachable state is a word of the width in force,
also right after a change of the width.
-/
theorem Reachable.holdsWords
    (h : Reachable F m) (hw : m.config.onWords = true) :
    HoldsWords m ∧
      ∀ w, HoldsWords (m.step F (.wordSize w)).1 ∧
        (m.failed = false → (m.step F (.wordSize w)).1.wordSize = w) := by
  have hm := h.holdsWords_of_onWords hw
  exact ⟨hm, fun w => ⟨h.holdsWords_step hw hm _, fun hfailed => step_wordSize hfailed w⟩⟩

/-- A difference of words with an open group. -/
def sampleWords : Engine :=
  (Engine.new { onWords := true } {}).run .native
    [.digit 5, .binary .sub, .openParen, .digit 7, .negate, .binary .and]

/-- The sample holds words, and still after a change to bytes. -/
theorem sampleWords_holdsWords :
    Reachable .native sampleWords ∧ sampleWords.config.onWords = true ∧
      HoldsWords sampleWords ∧ HoldsWords (sampleWords.step .native (.wordSize .byte)).1 := by
  have hreachable : Reachable .native sampleWords := (Reachable.new _ _).run _ _
  have hw : sampleWords.config.onWords = true := by
    rw [sampleWords, run_config]
    rfl
  have hwords := hreachable.holdsWords hw
  exact ⟨hreachable, hw, hwords.1, (hwords.2 .byte).1⟩

end Engine
end DeskCalculator
