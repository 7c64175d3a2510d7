import DeskCalculator.Proofs.Engine.History
import DeskCalculator.Proofs.Host.Screen
import Mathlib.Data.List.DropRight

/-!
# The journal of a session

The journal keeps the last lines of the history.  That it drops its oldest line
whenever there is no room for a new one makes it the end of the list of all
lines since it was emptied, and it is emptied by full clears only.

**Results.**
* `Journal.foldl_record_rtake`: adding lines to the end of a list keeps its end.
* `Session.obey_journal`: what one command does to the journal.
* `Session.exists_since_clear`: what a run leaves in the journal.
* `Host.journal_faithful`: the journal of a session, and what each command records.
-/

namespace DeskCalculator

namespace Journal

/-- If a journal is the end of a list of lines, it remains so when a line is added to both. -/
theorem record_rtake
    (lines : List JournalEntry) (e : JournalEntry) :
    record (lines.rtake capacity) e = (lines ++ [e]).rtake capacity := by
  have hcapacity : capacity = 49 + 1 := rfl
  rw [record, hcapacity, List.rtake_concat_succ]
  congr 1
  simp only [List.rtake, List.length_drop, List.tail_drop]
  split <;> congr 1 <;> omega

theorem foldl_record_rtake
    (lines new : List JournalEntry) :
    new.foldl record (lines.rtake capacity) = (lines ++ new).rtake capacity := by
  induction new generalizing lines with
  | nil => rw [List.foldl_nil, List.append_nil]
  | cons e new ih => rw [List.foldl_cons, record_rtake, ih, List.append_assoc, List.singleton_append]

end Journal

/-! ### Commands and runs -/

namespace Engine

/--
The commands of a run from `m` are taken apart at the last full clear: `before`
is empty or ends with a full clear, and none follows.
-/
structure SinceClear (F : RealFunctions) (m : Engine) (before after : List Command) : Prop where
  cleared : before = [] ∨ ∃ earlier c, before = earlier ++ [c] ∧ (m.run F earlier).ClearsAll c
  uncleared : ∀ earlier c, earlier ++ [c] <+: after → ¬(m.run F (before ++ earlier)).ClearsAll c

variable {F : RealFunctions} {m : Engine} {before after : List Command} {c : Command}

theorem SinceClear.nil
    (cleared : before = [] ∨ ∃ earlier c, before = earlier ++ [c] ∧ (m.run F earlier).ClearsAll c) :
    SinceClear F m before [] where
  cleared := cleared
  uncleared := by simp

theorem SinceClear.concat
    (h : SinceClear F m before after) (hc : ¬(m.run F (before ++ after)).ClearsAll c) :
    SinceClear F m before (after ++ [c]) where
  cleared := h.cleared
  uncleared := by
    intro earlier d hprefix
    rcases List.prefix_concat_iff.mp hprefix with heq | hprefix
    · obtain ⟨rfl, hd⟩ := List.append_inj' heq rfl
      obtain rfl := List.singleton_inj.mp hd
      exact hc
    · exact h.uncleared earlier d hprefix

end Engine

namespace Session

variable {F : RealFunctions} {s : Session} {c : Command}

/-- Unless they empty the history, events add their lines to the journal. -/
theorem observeAll_journal
    {events : List Event} (h : .clearHistory ∉ events) :
    (s.observeAll events).journal =
      (events.filterMap Event.journalEntry?).foldl Journal.record s.journal := by
  induction events generalizing s with
  | nil => rfl
  | cons event events ih =>
      obtain ⟨hevent, hevents⟩ := not_or.mp (mt List.mem_cons.mpr h)
      have hnext := ih (s := s.observe event) hevents
      cases event with
      | record line result => exact hnext
      | primary | expression | announce => exact hnext
      | clearHistory => exact absurd rfl hevent

theorem obey_journal_of_clearsAll
    (hclear : s.engine.ClearsAll c) :
    (s.obey F c).journal = [] := by
  rw [obey, Engine.step_of_clearsAll hclear]
  rfl

/-- A command that does not clear everything adds the lines that it records. -/
theorem obey_journal
    (hclear : ¬s.engine.ClearsAll c) :
    (s.obey F c).journal = (s.engine.recorded F [c]).foldl Journal.record s.journal := by
  rw [obey, observeAll_journal (Engine.clearHistory_not_mem hclear), Engine.recorded_singleton]

/-- The journal of a run has the last lines since the last full clear. -/
theorem exists_since_clear
    (hs : s.journal = []) (cs : List Command) :
    ∃ before after, cs = before ++ after ∧ s.engine.SinceClear F before after ∧
      (s.obeyAll F cs).journal =
        ((s.engine.run F before).recorded F after).rtake Journal.capacity := by
  induction cs using List.reverseRecOn with
  | nil => exact ⟨[], [], rfl, .nil (Or.inl rfl), hs⟩
  | append_singleton cs c ih =>
      obtain ⟨before, after, rfl, hsince, hjournal⟩ := ih
      have hengine := obeyAll_engine (F := F) s (before ++ after)
      rw [obeyAll_concat]
      -- A full clear moves the cut to the end of the run.
      by_cases hclear : (s.engine.run F (before ++ after)).ClearsAll c
      · refine ⟨before ++ after ++ [c], [], by simp, .nil (Or.inr ⟨_, c, rfl, hclear⟩), ?_⟩
        rw [obey_journal_of_clearsAll (by rwa [hengine])]
        rfl
      · refine ⟨before, after ++ [c], by simp, hsince.concat hclear, ?_⟩
        rw [obey_journal (by rwa [hengine]), hjournal, Journal.foldl_record_rtake, hengine,
          Engine.recorded_append, Engine.run_append]

end Session

namespace Host

theorem obeyAll_session
    (F : RealFunctions) (h : Host) (cs : List Command) :
    (h.obeyAll F cs).session = h.session.obeyAll F cs := by
  induction cs generalizing h with
  | nil => rfl
  | cons c cs ih => exact ih (h.obey F c)

/--
**The journal is faithful.** In a session, whatever configuration has been
chosen for the next one, the journal has the last fifty lines recorded since the
last full clear, the oldest first.  Each command records one line at most, and
that exactly if it is an equals key with something to compute or a function key
that the mode admits, and succeeds; the result of the line is the value at hand
after the command.
-/
theorem journal_faithful
    (F : RealFunctions) (chosen config : Config) (cs : List Command) :
    let m := Engine.new config {}
    let h := obeyAll F ⟨chosen, .new config⟩ cs
    h.session.engine = m.run F cs ∧
      (∃ before after, cs = before ++ after ∧ m.SinceClear F before after ∧
        h.session.journal = ((m.run F before).recorded F after).rtake 50) ∧
      ∀ c, (m.run F cs).Emission F c := by
  intro m h
  have hsession : h.session = (Session.new config).obeyAll F cs := obeyAll_session F _ cs
  have hjournal := Session.exists_since_clear (F := F) (s := .new config) rfl cs
  rw [hsession]
  exact ⟨Session.obeyAll_engine _ cs, hjournal, Engine.emission F _⟩

/-- After `5 =` a division by `(0` fails: its group has been closed, but no line has been added. -/
example :
    let h := obeyAll .native {} [.digit 5, .equals, .binary .div, .openParen, .digit 0, .equals]
    h.session.engine.failed = true ∧ h.session.engine.groups = [] ∧ h.session.journal.length = 1 := by
  exact ⟨rfl, rfl, rfl⟩

end Host
end DeskCalculator
