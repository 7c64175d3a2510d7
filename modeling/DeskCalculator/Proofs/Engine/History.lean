import DeskCalculator.Proofs.Engine.RepeatedEquals

/-!
# What commands do to the history

A line is added by an equals key that computes something and by a function key
that is not ignored, and only if the key does not fail.  A failing equals key
may have closed some groups before, but a closing parenthesis adds no line.
Only a full clear empties the history.

**Results.**
* `execute_recordsUnlessFailing`, `execute_silent`: the two kinds of commands other
  than a full clear.
* `historyEffect`: what one command does to the history.
* `emission`: when a command records a line, and the result of the line.
-/

namespace DeskCalculator

/-- Events for the screen, which leave the history as it is. -/
def Event.onScreen : Event → Bool
  | .primary .. | .expression _ | .announce _ => true
  | .record .. | .clearHistory => false

theorem Event.journalEntry?_of_onScreen
    {event : Event} (h : event.onScreen = true) :
    event.journalEntry? = none := by
  cases event with
  | primary | expression | announce => rfl
  | record | clearHistory => cases h

/-- Events for the screen add no line. -/
theorem filterMap_journalEntry?_of_onScreen
    {events : List Event} (h : ∀ event ∈ events, event.onScreen = true) :
    events.filterMap Event.journalEntry? = [] :=
  List.filterMap_eq_nil_iff.mpr fun event hevent =>
    Event.journalEntry?_of_onScreen (h event hevent)

theorem filterMap_journalEntry?_of_record
    {before after : List Event} {line result : String}
    (h : ∀ event ∈ before ++ after, event.onScreen = true) :
    (before ++ .record line result :: after).filterMap Event.journalEntry? = [⟨line, result⟩] := by
  have hbefore := filterMap_journalEntry?_of_onScreen fun event hevent =>
    h event (List.mem_append_left after hevent)
  have hafter := filterMap_journalEntry?_of_onScreen fun event hevent =>
    h event (List.mem_append_right before hevent)
  rw [List.filterMap_append, hbefore, List.nil_append, List.filterMap_cons, hafter]
  rfl

namespace Reaction

variable {r : Reaction} {f : Engine → Reaction} {m : Engine}

/-- All events are for the screen. -/
def Silent (r : Reaction) : Prop := ∀ event ∈ r.events, event.onScreen = true

theorem Silent.andThen
    (hr : r.Silent) (hf : r.error = none → (f r.engine).Silent) :
    (r.andThen f).Silent := by
  unfold Reaction.andThen
  cases herror : r.error with
  | some e => exact hr
  | none =>
      intro event hevent
      rcases List.mem_append.mp hevent with hevent | hevent
      · exact hr event hevent
      · exact hf herror event hevent

/-- One of the events adds a line whose result is the value at hand, the others none. -/
def RecordsResult (r : Reaction) : Prop :=
  ∃ before line after,
    r.events = before ++ .record line (r.engine.lineText r.engine.current) :: after ∧
      ∀ event ∈ before ++ after, event.onScreen = true

/-- The reaction adds a line unless it fails, and does not set or clear an error itself. -/
structure RecordsUnlessFailing (r : Reaction) (m : Engine) : Prop where
  records : r.error = none → r.RecordsResult ∧ r.engine.failed = m.failed
  fails : r.error ≠ none → r.Silent

theorem RecordsUnlessFailing.of_silent
    (herror : r.error ≠ none) (hr : r.Silent) :
    r.RecordsUnlessFailing m where
  records := fun h => absurd h herror
  fails := fun _ => hr

theorem RecordsUnlessFailing.of_record
    (hr : r.RecordsResult) (herror : r.error = none) (hfailed : r.engine.failed = m.failed) :
    r.RecordsUnlessFailing m where
  records := fun _ => ⟨hr, hfailed⟩
  fails := fun h => absurd herror h

/-- Silence before the reaction changes nothing of it. -/
theorem RecordsUnlessFailing.andThen
    (hr : r.Silent) (hfailed : r.error = none → r.engine.failed = m.failed)
    (hf : r.error = none → (f r.engine).RecordsUnlessFailing r.engine) :
    (r.andThen f).RecordsUnlessFailing m := by
  unfold Reaction.andThen
  cases herror : r.error with
  | some e => exact .of_silent (by simp [herror]) hr
  | none =>
      obtain ⟨hrecords, hfails⟩ := hf herror
      constructor
      case records =>
        intro hnone
        obtain ⟨⟨before, line, after, hevents, hscreen⟩, hkept⟩ := hrecords hnone
        refine ⟨⟨r.events ++ before, line, after, ?_, ?_⟩, hkept.trans (hfailed herror)⟩
        · simp only [hevents, List.append_assoc]
        · intro event hevent
          rw [List.append_assoc] at hevent
          rcases List.mem_append.mp hevent with hevent | hevent
          · exact hr event hevent
          · exact hscreen event hevent
      case fails =>
        intro hsome event hevent
        rcases List.mem_append.mp hevent with hevent | hevent
        · exact hr event hevent
        · exact hfails hsome event hevent

end Reaction

namespace Engine

open Reaction (Silent RecordsUnlessFailing)

variable {F : RealFunctions} {m : Engine} {c : Command}

/-- The lines that one command adds. -/
theorem recorded_singleton
    (m : Engine) (c : Command) :
    m.recorded F [c] = (m.step F c).2.filterMap Event.journalEntry? := by
  rw [recorded_cons]
  exact List.append_nil _

theorem recorded_append
    (m : Engine) (cs ds : List Command) :
    m.recorded F (cs ++ ds) = m.recorded F cs ++ (m.run F cs).recorded F ds := by
  induction cs generalizing m with
  | nil => rfl
  | cons c cs ih =>
      rw [List.cons_append, recorded_cons, recorded_cons, ih, run_cons, List.append_assoc]

/-! ### Commands that are silent -/

theorem updateEntry_silent
    (m : Engine) (edited : Option Entry) :
    (m.updateEntry edited).Silent := by
  cases edited <;> simp [Silent, updateEntry, showEntry, Event.onScreen]

theorem presentOperand_silent
    (m : Engine) (v : Ratio) (text : String) :
    (m.presentOperand v text).Silent := by
  simp [Silent, presentOperand, showCurrent, showExpression, Event.onScreen]

theorem binary_silent
    (m : Engine) (op : Operator) :
    (m.binary F op).Silent := by
  unfold binary
  dsimp only
  split
  · simp [Silent]
  · split <;> simp [Silent, showCurrent, showExpression, Event.onScreen]

theorem openGroup_silent
    (m : Engine) :
    m.openGroup.Silent := by
  unfold openGroup
  split <;> simp [Silent, showExpression, Event.onScreen]

theorem closeGroup_silent
    (m : Engine) :
    (m.closeGroup F).Silent := by
  unfold closeGroup
  split
  · simp [Silent]
  · dsimp only
    split
    · simp [Silent]
    · exact presentOperand_silent _ _ _

theorem closeGroups_silent
    (n : Nat) (m : Engine) :
    (closeGroups F n m).Silent := by
  induction n generalizing m with
  | zero => simp [Silent, closeGroups]
  | succ n ih => exact (closeGroup_silent m).andThen fun _ => ih _

theorem percent_silent
    (m : Engine) :
    m.percent.Silent := by
  unfold percent
  dsimp only
  split
  · simp [Silent]
  · exact presentOperand_silent _ _ _

theorem memoryKey_silent
    (m : Engine) (a : MemoryAction) :
    (m.memoryKey a).Silent := by
  cases a with
  | «recall» =>
      simp only [memoryKey]
      split <;> simp [Silent, showCurrent, Event.onScreen]
  | store | clear | add | sub => simp [Silent, memoryKey]

/-! ### Commands that add a line -/

theorem leaveEquals_failed
    (m : Engine) :
    m.leaveEquals.failed = m.failed := by
  unfold leaveEquals
  split <;> rfl

theorem closeGroup_failed
    (m : Engine) :
    (m.closeGroup F).engine.failed = m.failed := by
  unfold closeGroup
  split
  · rfl
  · dsimp only
    split <;> exact settle_failed m

theorem closeGroups_failed
    (n : Nat) (m : Engine) :
    (closeGroups F n m).engine.failed = m.failed :=
  closeGroups_engine F (P := fun m' => m'.failed = m.failed)
    (fun m' h => (closeGroup_failed m').trans h) n rfl

theorem complete_recordsUnlessFailing
    (m : Engine) :
    (complete F m).RecordsUnlessFailing m := by
  unfold complete
  dsimp only
  split
  · exact .of_silent (by simp) (by simp [Silent])
  · refine .of_record ⟨[], _, [_, _], rfl, ?_⟩ rfl (settle_failed m)
    simp [showCurrent, Event.onScreen]

/-- A repetition needs an operator. -/
theorem repeatEquals_recordsUnlessFailing
    (hop : m.lastOperator ≠ none) :
    (m.repeatEquals F).RecordsUnlessFailing m := by
  unfold repeatEquals
  split
  · exact absurd ‹_› hop
  · dsimp only
    split
    · exact .of_silent (by simp) (by simp [Silent])
    · refine .of_record ⟨[], _, [_, _], rfl, ?_⟩ rfl (settle_failed m)
      simp [showCurrent, Event.onScreen]

/-- The groups are closed silently before the calculation is completed. -/
theorem equals_recordsUnlessFailing
    (hop : m.afterEquals = true → m.lastOperator ≠ none) :
    (m.equals F).RecordsUnlessFailing m := by
  unfold equals
  split
  · exact repeatEquals_recordsUnlessFailing (hop ‹_›)
  · exact .andThen (closeGroups_silent _ m) (fun _ => closeGroups_failed _ m) fun _ =>
      complete_recordsUnlessFailing _

theorem equals_silent
    (hequals : m.afterEquals = true) (hop : m.lastOperator = none) :
    (m.equals F).Silent := by
  simp [Silent, equals, repeatEquals, hequals, hop, showCurrent, Event.onScreen]

theorem unary_recordsUnlessFailing
    {f : ScientificFunction} (hf : m.config.onWords = true → f.admittedOnWords = true) :
    (m.unary F f).RecordsUnlessFailing m := by
  have hfailed : m.leaveEquals.settle.failed = m.failed := by
    rw [settle_failed, leaveEquals_failed]
  unfold unary
  rw [if_neg (by simpa using hf)]
  dsimp only
  split
  · exact .of_silent (by simp) (by simp [Silent])
  · refine .of_record ⟨[], _, _, rfl, ?_⟩ rfl hfailed
    exact presentOperand_silent _ _ _

theorem unary_silent
    {f : ScientificFunction} (hf : ¬(m.config.onWords = true → f.admittedOnWords = true)) :
    (m.unary F f).Silent := by
  unfold unary
  rw [if_pos (by simpa using hf)]
  simp [Silent]

/-! ### What one command does to the history -/

/--
The command adds a line unless it fails: an equals key, unless it repeats a
calculation without an operator, and a function key that the mode admits.
-/
def Records (m : Engine) : Command → Prop
  | .equals => m.afterEquals = true → m.lastOperator ≠ none
  | .unary f => m.config.onWords = true → f.admittedOnWords = true
  | _ => False

theorem execute_recordsUnlessFailing
    (hrecords : m.Records c) :
    (m.execute F c).RecordsUnlessFailing m := by
  cases c with
  | equals => exact equals_recordsUnlessFailing hrecords
  | unary f => exact unary_recordsUnlessFailing hrecords
  | _ => exact hrecords.elim

theorem execute_silent
    (hrecords : ¬m.Records c) (hclear : ¬m.ClearsAll c) :
    (m.execute F c).Silent := by
  cases c with
  | digit d =>
      simp only [execute, digit]
      split
      · simp [Silent]
      · exact updateEntry_silent _ _
  | point | exponent =>
      simp only [execute, point, exponent]
      split
      · simp [Silent]
      · exact updateEntry_silent _ _
  | binary op => exact binary_silent m op
  | percent => exact percent_silent m
  | equals =>
      obtain ⟨hequals, hop⟩ := Classical.not_imp.mp hrecords
      exact equals_silent hequals (not_not.mp hop)
  | clear => exact absurd (Or.inl rfl) hclear
  | clearEntry =>
      have hfailed : ¬m.failed = true := fun h => hclear (Or.inr ⟨rfl, h⟩)
      simp [Silent, execute, clearEntry, hfailed, showCurrent, Event.onScreen]
  | backspace =>
      simp only [execute, backspace]
      split
      · exact updateEntry_silent _ _
      · simp [Silent]
  | negate =>
      simp only [execute, negate]
      split
      · exact updateEntry_silent _ _
      · exact presentOperand_silent _ _ _
  | unary f => exact unary_silent hrecords
  | memory a => exact memoryKey_silent m a
  | openParen => exact openGroup_silent m
  | closeParen => exact closeGroup_silent m
  | inverse | angle u => simp [Silent, execute]
  | base b | style s | wordSize w =>
      simp [Silent, execute, setBase, setStyle, setWordSize, showCurrent, Event.onScreen]

/-- A command is obeyed and does not fail. -/
def Succeeds (F : RealFunctions) (m : Engine) (c : Command) : Prop :=
  m.failed = false ∧ (m.step F c).1.failed = false

/-- What a command does to the history: it empties it, adds one line, or leaves it as it is. -/
inductive HistoryEffect (F : RealFunctions) (m : Engine) (c : Command) : Prop
  | cleared (hclear : m.ClearsAll c)
      (hevents : (m.step F c).2 = [.clearHistory, .expression "", m.clear.engine.showCurrent])
  | added (hclear : ¬m.ClearsAll c) (hrecords : m.Records c) (hok : m.Succeeds F c)
      (before : List Event) (line : String) (after : List Event)
      (hevents : (m.step F c).2 =
        before ++ .record line ((m.step F c).1.lineText (m.step F c).1.current) :: after)
      (hscreen : ∀ event ∈ before ++ after, event.onScreen = true)
  | kept (hclear : ¬m.ClearsAll c) (hnot : ¬(m.Records c ∧ m.Succeeds F c))
      (hscreen : ∀ event ∈ (m.step F c).2, event.onScreen = true)

theorem step_silent
    (hm : m.failed = false) (hsilent : (m.execute F c).Silent) :
    ∀ event ∈ (m.step F c).2, event.onScreen = true := by
  simp only [step, hm, Bool.false_eq_true, false_and, if_false]
  cases (m.execute F c).error with
  | none => exact hsilent
  | some e =>
      intro event hevent
      rcases List.mem_append.mp hevent with hevent | hevent
      · exact hsilent event hevent
      · rw [List.mem_singleton.mp hevent]
        rfl

/-- A command that records adds its line, or it fails and leaves the history as it is. -/
theorem historyEffect_of_records
    (hm : m.failed = false) (hclear : ¬m.ClearsAll c) (hrecords : m.Records c) :
    HistoryEffect F m c := by
  obtain ⟨hdone, hfails⟩ := execute_recordsUnlessFailing (F := F) hrecords
  have hengine := step_eq F hm c
  cases herror : (m.execute F c).error with
  | none =>
      obtain ⟨⟨before, line, after, hevents, hscreen⟩, hkept⟩ := hdone herror
      have hshown : (m.step F c).2 = (m.execute F c).events := by simp [step, hm, herror]
      rw [herror] at hengine
      refine .added hclear hrecords ⟨hm, ?_⟩ before line after ?_ hscreen
      · rw [hengine, hkept, hm]
      · rw [hshown, hevents, hengine]
  | some e =>
      rw [herror] at hengine
      refine .kept hclear ?_ (step_silent hm (hfails (by simp [herror])))
      rintro ⟨-, -, hok⟩
      rw [hengine] at hok
      cases hok

theorem historyEffect
    (F : RealFunctions) (m : Engine) (c : Command) :
    HistoryEffect F m c := by
  by_cases hclear : m.ClearsAll c
  · exact .cleared hclear (by rw [step_of_clearsAll hclear]; rfl)
  cases hm : m.failed with
  | true =>
      have hignored : c.isClearing = false := by
        cases c with
        | clear => exact absurd (Or.inl rfl) hclear
        | clearEntry => exact absurd (Or.inr ⟨rfl, hm⟩) hclear
        | _ => rfl
      refine .kept hclear ?_ (by simp [step_of_failed F hm hignored])
      rintro ⟨-, hok, -⟩
      exact absurd (hok.symm.trans hm) (by decide)
  | false =>
      by_cases hrecords : m.Records c
      · exact historyEffect_of_records hm hclear hrecords
      · exact .kept hclear (fun h => hrecords h.1)
          (step_silent hm (execute_silent hrecords hclear))

/-- Only a full clear empties the history. -/
theorem clearHistory_not_mem
    (hclear : ¬m.ClearsAll c) :
    .clearHistory ∉ (m.step F c).2 := by
  have hscreen : Event.onScreen .clearHistory = false := rfl
  intro hmem
  cases historyEffect F m c with
  | cleared h => exact hclear h
  | added _ _ _ before line after hevents hothers =>
      have hother : Event.clearHistory ∈ before ++ after := by simpa [hevents] using hmem
      exact absurd (hothers _ hother) (by simp [hscreen])
  | kept _ _ hall => exact absurd (hall _ hmem) (by simp [hscreen])

/--
What is recorded of a command: one line at most, and that exactly if the command
is one that records and it succeeds; a command that fails or is ignored after an
error records nothing; the result of the line is the value at hand after the
command, without digit groups.
-/
structure Emission (F : RealFunctions) (m : Engine) (c : Command) : Prop where
  atMostOne : (m.recorded F [c]).length ≤ 1
  exactly : m.recorded F [c] ≠ [] ↔ m.Records c ∧ m.Succeeds F c
  unsuccessful : ¬m.Succeeds F c → m.recorded F [c] = []
  result : ∀ e ∈ m.recorded F [c], e.result = (m.step F c).1.lineText (m.step F c).1.current

theorem Emission.of_nothing
    (hlines : m.recorded F [c] = []) (hnot : ¬(m.Records c ∧ m.Succeeds F c)) :
    Emission F m c where
  atMostOne := by simp [hlines]
  exactly := iff_of_false (by simp [hlines]) hnot
  unsuccessful := fun _ => hlines
  result := by simp [hlines]

theorem emission
    (F : RealFunctions) (m : Engine) (c : Command) :
    Emission F m c := by
  cases historyEffect F m c with
  | cleared hclear hevents =>
      refine .of_nothing (by simp [recorded_singleton, hevents, Event.journalEntry?, showCurrent]) ?_
      rintro ⟨hrecords, hok, -⟩
      rcases hclear with rfl | ⟨rfl, -⟩ <;> exact hrecords
  | added _ hrecords hok before line after hevents hscreen =>
      have hlines : m.recorded F [c] =
          [⟨line, (m.step F c).1.lineText (m.step F c).1.current⟩] := by
        rw [recorded_singleton, hevents]
        exact filterMap_journalEntry?_of_record hscreen
      constructor
      case atMostOne => simp [hlines]
      case exactly => exact iff_of_true (by simp [hlines]) ⟨hrecords, hok⟩
      case unsuccessful => exact fun hnot => absurd hok hnot
      case result => simp [hlines]
  | kept _ hnot hscreen =>
      refine .of_nothing ?_ hnot
      rw [recorded_singleton]
      exact filterMap_journalEntry?_of_onScreen hscreen

end Engine
end DeskCalculator
