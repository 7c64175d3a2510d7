import DeskCalculator.Proofs.Engine.Reachable
import DeskCalculator.Proofs.Entry.Sound

/-!
# What holds of the number being typed in every reachable state

The rules for typing depend on the configuration, the base and the width of
words.  Commands that change the base or the width first end the typing, and
the configuration stays, so that a number is typed to its end under the rules
under which it was begun.  So what an empty entry has and accepted keys keep
holds of the number being typed in every reachable state.

**Results.**
* `WhileTyping.execute`: every command keeps such a property of the number being
  typed.
* `Reachable.soundEntry`: the number being typed is sound.
* `SoundEntry.isValid_text`: its text is a numeral, so that it is not thrown
  away when typing ends.
-/

namespace DeskCalculator
namespace Entry

/-- The empty entry has a property, and every accepted key keeps it. -/
structure Kept (P : EntryRules → Entry → Prop) (rules : EntryRules) : Prop where
  empty : P rules {}
  press : ∀ {e e' : Entry} {k : EntryKey}, P rules e → e.press? rules k = some e' → P rules e'
  toggleSign : ∀ {e e' : Entry}, P rules e → e.toggleSign? rules = some e' → P rules e'
  backspace : ∀ {e e' : Entry}, P rules e → e.backspace? = some e' → P rules e'

theorem Sound.kept
    {rules : EntryRules} (hradix : 0 < rules.radix) (hmax : 0 < rules.maxDigits) :
    Kept Sound rules where
  empty := .empty
  press h hk :=
    have hpress := accepted_of_press? hk
    h.accepted hradix hmax hpress.1 hpress.2
  toggleSign h hk := h.accepted hradix hmax (accepted_of_strike? (k := .sign rules) hk) trivial
  backspace h hk := h.accepted hradix hmax (accepted_of_backspace? hk) trivial

end Entry

namespace Engine

/-- While a number is being typed, it has a property under the rules in force. -/
def WhileTyping (P : EntryRules → Entry → Prop) (m : Engine) : Prop :=
  m.entering = true → P m.entryRules m.entry

/-- While a number is being typed, it is sound under the rules in force. -/
def SoundEntry (m : Engine) : Prop := WhileTyping Entry.Sound m

variable {F : RealFunctions} {P : EntryRules → Entry → Prop} {m : Engine}

theorem WhileTyping.of_settled
    (h : m.entering = false) :
    WhileTyping P m :=
  fun hentering => absurd (h.symm.trans hentering) Bool.false_ne_true

theorem WhileTyping.settle
    (m : Engine) :
    WhileTyping P m.settle :=
  .of_settled (settle_entering m)

/-! ### Typing -/

theorem WhileTyping.leaveEquals
    (h : WhileTyping P m) :
    WhileTyping P m.leaveEquals := by
  unfold Engine.leaveEquals
  split
  · exact h
  · exact h

@[simp] theorem startEntry_entryRules
    (m : Engine) :
    m.startEntry.entryRules = m.entryRules := by
  unfold startEntry leaveEquals
  split
  · rfl
  · split <;> rfl

/-- A number that is begun is empty. -/
theorem WhileTyping.startEntry
    (hP : Entry.Kept P m.entryRules) (h : WhileTyping P m) :
    P m.entryRules m.startEntry.entry := by
  unfold Engine.startEntry
  split
  · rename_i hentering
    exact h hentering
  · exact hP.empty

/-- The keys of an unsigned number, which begin one if none is being typed. -/
theorem WhileTyping.press
    (hP : Entry.Kept P m.entryRules) (h : WhileTyping P m) (k : EntryKey) :
    ∀ e ∈ m.startEntry.entry.press? m.entryRules k, P m.entryRules e :=
  fun _ hk => hP.press (h.startEntry hP) hk

theorem WhileTyping.typePoint
    (hP : Entry.Kept P m.entryRules) (h : WhileTyping P m) (hw : ¬m.config.onWords = true) :
    ∀ e ∈ m.startEntry.entry.typePoint?, P m.entryRules e := by
  have hrules : ¬m.entryRules.onWords = true := hw
  have hpress := h.press hP .point
  rwa [Entry.press?, if_neg hrules] at hpress

theorem WhileTyping.openExponent
    (hP : Entry.Kept P m.entryRules) (h : WhileTyping P m)
    (hw : ¬(m.config.onWords = true ∨ m.base ≠ .decimal)) :
    ∀ e ∈ m.startEntry.entry.openExponent?, P m.entryRules e := by
  rw [not_or, not_not] at hw
  have hten : m.entryRules.radix = 10 := by
    simp only [entryRules, hw.2]
    rfl
  have hrules : ¬(m.entryRules.onWords = true ∨ m.entryRules.radix ≠ 10) :=
    not_or.mpr ⟨hw.1, not_not.mpr hten⟩
  have hpress := h.press hP .exponent
  rwa [Entry.press?, if_neg hrules] at hpress

theorem WhileTyping.toggleSign
    (hP : Entry.Kept P m.entryRules) (h : WhileTyping P m) (hentering : m.entering = true) :
    ∀ e ∈ m.entry.toggleSign? m.entryRules, P m.entryRules e :=
  fun _ hk => hP.toggleSign (h hentering) hk

theorem WhileTyping.backspace
    (hP : Entry.Kept P m.entryRules) (h : WhileTyping P m) (hentering : m.entering = true) :
    ∀ e ∈ m.entry.backspace?, P m.entryRules e :=
  fun _ hk => hP.backspace (h hentering) hk

/-- An accepted key leaves a number with the property. -/
theorem WhileTyping.updateEntry
    (h : WhileTyping P m) {edited : Option Entry} (hedited : ∀ e ∈ edited, P m.entryRules e) :
    WhileTyping P (m.updateEntry edited).engine := by
  cases edited with
  | none => exact h
  | some entry => exact fun _ => hedited entry rfl

/-- The same for a key that may begin a number. -/
theorem WhileTyping.startEntry_updateEntry
    (hP : Entry.Kept P m.entryRules) (h : WhileTyping P m)
    {edited : Option Entry} (hedited : ∀ e ∈ edited, P m.entryRules e) :
    WhileTyping P (m.startEntry.updateEntry edited).engine := by
  have hstart : WhileTyping P m.startEntry := by
    intro _
    rw [startEntry_entryRules]
    exact h.startEntry hP
  refine hstart.updateEntry ?_
  rwa [startEntry_entryRules]

/-! ### Calculations -/

/-- Right after another operator nothing is being typed; otherwise typing ends. -/
theorem WhileTyping.takeLeftOperand
    (h : WhileTyping P m) :
    WhileTyping P m.takeLeftOperand.1 := by
  unfold Engine.takeLeftOperand
  split
  · exact h
  · exact .settle _

theorem WhileTyping.disarmFor
    (h : WhileTyping P m) (op : Operator) :
    WhileTyping P (m.disarmFor op) := by
  unfold Engine.disarmFor
  split
  · exact h
  · exact h

theorem WhileTyping.binary
    (h : WhileTyping P m) (op : Operator) :
    WhileTyping P (m.binary F op).engine := by
  have htake := (h.disarmFor (m.effectiveOperator op)).takeLeftOperand
  unfold Engine.binary
  dsimp only
  split
  · exact htake
  · split
    · exact htake
    · exact htake

theorem WhileTyping.closeGroup
    (h : WhileTyping P m) :
    WhileTyping P (m.closeGroup F).engine := by
  unfold Engine.closeGroup
  split
  · exact h
  · dsimp only
    split
    · exact .settle _
    · exact .settle _

theorem WhileTyping.closeGroups
    (h : WhileTyping P m) (n : Nat) :
    WhileTyping P (closeGroups F n m).engine :=
  closeGroups_engine F (fun _ hm => hm.closeGroup) n h

theorem WhileTyping.complete
    (m : Engine) :
    WhileTyping P (complete F m).engine := by
  unfold Engine.complete
  dsimp only
  split
  · exact .settle _
  · exact .settle _

theorem WhileTyping.repeatEquals
    (h : WhileTyping P m) :
    WhileTyping P (m.repeatEquals F).engine := by
  unfold Engine.repeatEquals
  split
  · exact h
  · dsimp only
    split
    · exact .settle _
    · exact .settle _

theorem WhileTyping.equals
    (h : WhileTyping P m) :
    WhileTyping P (m.equals F).engine := by
  unfold Engine.equals
  split
  · exact h.repeatEquals
  · exact Reaction.andThen_engine (h.closeGroups _) fun _ => .complete _

theorem WhileTyping.percent
    (m : Engine) :
    WhileTyping P m.percent.engine := by
  unfold Engine.percent
  dsimp only
  split
  · exact .settle _
  · exact .settle _

theorem WhileTyping.unary
    (h : WhileTyping P m) (f : ScientificFunction) :
    WhileTyping P (m.unary F f).engine := by
  unfold Engine.unary
  split
  · exact h
  · dsimp only
    split
    · exact .settle m.leaveEquals
    · exact .settle m.leaveEquals

/-! ### All commands -/

theorem WhileTyping.memoryKey
    (h : WhileTyping P m) (a : MemoryAction) :
    WhileTyping P (m.memoryKey a).engine := by
  cases a with
  | store | add | sub => exact .settle m
  | clear => exact h
  | «recall» =>
      simp only [Engine.memoryKey]
      split
      · exact h
      · exact .of_settled rfl

theorem WhileTyping.setWordSize
    (m : Engine) (w : WordSize) :
    WhileTyping P (m.setWordSize w).engine := by
  refine .of_settled ?_
  unfold Engine.setWordSize
  dsimp only
  split
  · exact settle_entering m
  · exact settle_entering m

/-- Every command keeps what accepted keys keep, or ends the typing. -/
theorem WhileTyping.execute
    (hP : Entry.Kept P m.entryRules) (h : WhileTyping P m) (k : Command) :
    WhileTyping P (m.execute F k).engine := by
  cases k with
  | digit d =>
      simp only [Engine.execute, digit]
      split
      · exact h
      · exact h.startEntry_updateEntry hP (h.press hP (.digit d))
  | point =>
      simp only [Engine.execute, point]
      split
      · exact h
      · exact h.startEntry_updateEntry hP (h.typePoint hP ‹_›)
  | exponent =>
      simp only [Engine.execute, exponent]
      split
      · exact h
      · exact h.startEntry_updateEntry hP (h.openExponent hP ‹_›)
  | backspace =>
      simp only [Engine.execute, Engine.backspace]
      split
      · exact h.updateEntry (h.backspace hP ‹_›)
      · exact h
  | negate =>
      simp only [Engine.execute, negate]
      split
      · exact h.updateEntry (h.toggleSign hP ‹_›)
      · exact h.leaveEquals
  | binary op => exact h.binary op
  | percent => exact .percent m
  | equals => exact h.equals
  | clear => exact .of_settled rfl
  | clearEntry =>
      simp only [Engine.execute, clearEntry]
      split
      · exact .of_settled rfl
      · exact .of_settled rfl
  | unary f => exact h.unary f
  | inverse | angle _ => exact h
  | memory a => exact h.memoryKey a
  | openParen =>
      simp only [Engine.execute, openGroup]
      split
      · exact h
      · exact .of_settled rfl
  | closeParen => exact h.closeGroup
  | base _ | style _ => exact .of_settled (settle_entering m)
  | wordSize w => exact .setWordSize m w

/-- What accepted keys keep holds of the number being typed, whatever has been typed. -/
theorem Reachable.whileTyping
    (h : Reachable F m) (hP : ∀ m, Reachable F m → Entry.Kept P m.entryRules) :
    WhileTyping P m := by
  induction h with
  | new config settings => exact .of_settled rfl
  | step h k ih => exact step_engine F ih (ih.execute (hP _ h) k) fun _ _ => .of_settled rfl

/-- Accepted keys keep a number sound. -/
theorem kept_sound
    (hprecision : 0 < m.config.precision) :
    Entry.Kept Entry.Sound m.entryRules :=
  Entry.Sound.kept (radix_bounds m).1 (maxDigits_pos hprecision)

theorem Reachable.soundEntry
    (h : Reachable F m) :
    SoundEntry m :=
  h.whileTyping fun _ hm => kept_sound (hm.precision_pos F)

/-- The text of the number being typed is a numeral of the base within the limits on its digits. -/
theorem SoundEntry.isValid_text
    (h : SoundEntry m) (hprecision : 0 < m.config.precision) (hentering : m.entering = true) :
    Numeral.isValid (m.entry.text ['.']) Entry.maxExponentDigits m.entryRules.maxDigits
      m.entryRules.radix = true :=
  (h hentering).isValid_text (radix_bounds m).1 (radix_bounds m).2 (maxDigits_pos hprecision)

end Engine
end DeskCalculator
