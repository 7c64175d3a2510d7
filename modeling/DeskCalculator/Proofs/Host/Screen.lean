import DeskCalculator.Proofs.Engine.TypedWords

/-!
# What the primary line shows

Every command shows on its own what it has changed.  So the primary line shows
the number being typed or the value at hand as long as no command changes them
without showing anything.  Four commands do so: an opening parenthesis throws
away the number being typed, and three memory keys end its typing, but the line
still shows its text.

**Results.**
* `Engine.Coherent.primaryLine`: what a command does to the primary line.
* `Session.obey_showsState_iff`: when the line shows the state after a command.
* `Session.screen_shows_state`: when it does after a run.
* `Session.sampleHidden_not_shown`: a run after which it does not.
-/

namespace DeskCalculator

/-- The new primary line, with whether it tells an error, if the event changes it. -/
def Event.primary? : Event → Option (String × Bool)
  | .primary text isError => some (text, isError)
  | _ => none

/-- The primary line that events leave, if they change it. -/
def lastPrimary? (events : List Event) : Option (String × Bool) :=
  (events.filterMap Event.primary?).getLast?

theorem lastPrimary?_append
    (events events' : List Event) :
    lastPrimary? (events ++ events') = (lastPrimary? events').or (lastPrimary? events) := by
  rw [lastPrimary?, List.filterMap_append, List.getLast?_append]
  rfl

/-- Whether the command may end the typing of a number without showing anything. -/
def Command.hidesEntry : Command → Bool
  | .openParen | .memory .store | .memory .add | .memory .sub => true
  | _ => false

namespace Engine

variable {F : RealFunctions} {m : Engine} {c : Command} {r : Reaction}

/-- What the primary line shows when everything is shown again. -/
def primaryText (m : Engine) : String :=
  if m.entering then m.entryText else m.displayText m.current

theorem primaryText_of_entering
    (hentering : m.entering = true) :
    m.primaryText = m.entryText :=
  if_pos hentering

theorem primaryText_of_not_entering
    (hentering : m.entering = false) :
    m.primaryText = m.displayText m.current :=
  if_neg (by simp [hentering])

/-- The value at hand behind a number whose typing a command ends without showing anything. -/
def valueBehind (m : Engine) (c : Command) : Ratio :=
  if c = .openParen then m.current else m.settle.current

/-- What a command without an error does to the primary line. -/
inductive PrimaryLine (m : Engine) (c : Command) (r : Reaction) : Prop
  /-- It shows the state that it leaves. -/
  | shown (hevents : lastPrimary? r.events = some (r.engine.primaryText, false))
      (hvisible : c.hidesEntry = false)
  /-- It shows nothing and changes nothing that the line shows. -/
  | kept (hevents : lastPrimary? r.events = none)
      (htext : r.engine.primaryText = m.primaryText) (hentering : r.engine.entering = m.entering)
      (hvisible : m.entering = true → c.hidesEntry = false)
  /-- It shows nothing, but no number is being typed any more. -/
  | hidden (hevents : lastPrimary? r.events = none) (hc : c.hidesEntry = true)
      (hm : m.entering = true) (hentering : r.engine.entering = false)
      (htext : r.engine.primaryText = m.displayText (m.valueBehind c))

@[simp] theorem settle_displayText
    (m : Engine) (v : Ratio) :
    m.settle.displayText v = m.displayText v := by
  unfold settle
  split <;> rfl

@[simp] theorem leaveEquals_displayText
    (m : Engine) (v : Ratio) :
    m.leaveEquals.displayText v = m.displayText v := by
  unfold leaveEquals
  split <;> rfl

@[simp] theorem leaveEquals_current
    (m : Engine) :
    m.leaveEquals.current = m.current := by
  unfold leaveEquals
  split <;> rfl

namespace PrimaryLine

/-- An ignored key. -/
theorem ignored
    (hc : c.hidesEntry = false) :
    PrimaryLine m c { engine := m } :=
  .kept rfl rfl rfl fun _ => hc

/-- The value at hand is shown, and after it nothing on the primary line. -/
theorem of_showCurrent
    (hc : c.hidesEntry = false) (before : List Event) {after : List Event}
    (hentering : r.engine.entering = false)
    (hevents : r.events = before ++ r.engine.showCurrent :: after)
    (hafter : lastPrimary? after = none) :
    PrimaryLine m c r := by
  refine .shown ?_ hc
  have hlast : lastPrimary? [r.engine.showCurrent] = some (r.engine.primaryText, false) := by
    rw [primaryText_of_not_entering hentering]
    rfl
  rw [hevents, ← List.singleton_append, lastPrimary?_append, lastPrimary?_append, hafter, hlast]
  rfl

theorem presentOperand
    (hc : c.hidesEntry = false) {n : Engine} (hentering : n.entering = false) (v : Ratio)
    (text : String) :
    PrimaryLine m c (n.presentOperand v text) :=
  of_showCurrent hc [] hentering rfl rfl

/-- A key of the number being typed. -/
theorem updateEntry
    (hc : c.hidesEntry = false) (hentering : m.entering = true) (edited : Option Entry) :
    PrimaryLine m c (m.updateEntry edited) := by
  cases edited with
  | none => exact ignored hc
  | some entry =>
      refine .shown ?_ hc
      rw [primaryText_of_entering (by simpa [Engine.updateEntry] using hentering)]
      rfl

/-- A key that may begin a number, and is not refused then. -/
theorem startEntry_updateEntry
    {edited : Option Entry} (hc : c.hidesEntry = false)
    (hfirst : m.entering = false → edited ≠ none) :
    PrimaryLine m c (m.startEntry.updateEntry edited) := by
  cases hentering : m.entering with
  | true =>
      have hstart : m.startEntry = m := by rw [startEntry, if_pos hentering]
      rw [hstart]
      exact updateEntry hc hentering edited
  | false =>
      obtain ⟨entry, rfl⟩ := Option.ne_none_iff_exists'.mp (hfirst hentering)
      refine .shown ?_ hc
      rw [primaryText_of_entering (by simpa [Engine.updateEntry] using startEntry_entering m)]
      rfl

/-- A command that ends the typing of a number without showing anything. -/
theorem of_silent
    (hevents : lastPrimary? r.events = none) (hc : c.hidesEntry = true)
    (hentering : r.engine.entering = false) (hcurrent : r.engine.current = m.valueBehind c)
    (hdisplay : ∀ v, r.engine.displayText v = m.displayText v) :
    PrimaryLine m c r := by
  have htext : r.engine.primaryText = m.displayText (m.valueBehind c) := by
    rw [primaryText_of_not_entering hentering, hdisplay, hcurrent]
  cases hm : m.entering with
  | true => exact .hidden hevents hc hm hentering htext
  | false =>
      have hbehind : m.valueBehind c = m.current := by
        rw [valueBehind, settle_of_not_entering hm, ite_self]
      refine .kept hevents ?_ (by rw [hentering, hm]) (by simp [hm])
      rw [htext, hbehind, primaryText_of_not_entering hm]

end PrimaryLine

/-! ### Commands -/

theorem digitLimit_pos
    (hprecision : 0 < m.config.precision) (hreal : m.config.onWords = false) :
    0 < Entry.digitLimit m.entryRules := by
  have hwords : m.entryRules.onWords = false := hreal
  rw [Entry.digitLimit, hwords]
  exact maxDigits_pos hprecision

/-- The first digit of a number is never refused. -/
theorem typeDigit?_first
    (hprecision : 0 < m.config.precision) {d : Nat} (hd : d < m.base.radix) :
    ({} : Entry).typeDigit? m.entryRules d ≠ none := by
  cases hwords : m.config.onWords with
  | true =>
      rw [entryRules_of_onWords hwords]
      exact Entry.typeDigit?_empty hd m.wordSize
  | false =>
      have hroom := (digitLimit_pos hprecision hwords).ne'
      have hreal : m.entryRules.onWords = false := hwords
      have hradix : ¬m.entryRules.radix ≤ d := Nat.not_le.mpr hd
      simp [Entry.typeDigit?, Entry.typeMantissaDigit?, Entry.isLoneZero, hradix, hreal, hroom]

theorem startEntry_entry
    (hentering : m.entering = false) :
    m.startEntry.entry = {} := by
  rw [startEntry, if_neg (by simp [hentering])]

theorem complete_entering
    (m : Engine) :
    (complete F m).engine.entering = false := by
  unfold complete
  dsimp only
  split <;> exact settle_entering m

theorem Coherent.equals_entering
    (h : Coherent m) (herror : (m.equals F).error = none) :
    (m.equals F).engine.entering = false := by
  unfold Engine.equals at herror ⊢
  split at herror
  · rename_i hequals
    have hentering := (h.afterEquals hequals).2.2
    rw [if_pos hequals]
    unfold Engine.repeatEquals
    split
    · exact hentering
    · dsimp only
      split <;> exact settle_entering m
  · rename_i hequals
    rw [if_neg hequals, (Reaction.andThen_of_error_eq_none herror).2.2]
    exact complete_entering _

theorem Coherent.primaryLine_binary
    (h : Coherent m) (op : Operator) (herror : (m.binary F op).error = none) :
    PrimaryLine m (.binary op) (m.binary F op) := by
  have htaken := (h.disarmFor (m.effectiveOperator op)).takeLeftOperand
  unfold Engine.binary at herror ⊢
  dsimp only at herror ⊢
  split at herror
  · cases herror
  · split at herror
    · cases herror
    · exact .of_showCurrent rfl [_] htaken.entering rfl rfl

theorem primaryLine_openGroup
    (herror : m.openGroup.error = none) :
    PrimaryLine m .openParen m.openGroup := by
  unfold openGroup at herror ⊢
  split at herror
  · cases herror
  · rename_i hroom
    rw [if_neg hroom]
    exact .of_silent rfl rfl rfl (leaveEquals_current m) (leaveEquals_displayText m)

theorem primaryLine_closeGroup
    (herror : (m.closeGroup F).error = none) :
    PrimaryLine m .closeParen (m.closeGroup F) := by
  unfold closeGroup at herror ⊢
  split at herror
  · exact .ignored rfl
  · dsimp only at herror ⊢
    split at herror
    · cases herror
    · exact .of_showCurrent rfl [] (settle_entering m) rfl rfl

theorem primaryLine_memoryKey
    (a : MemoryAction) :
    PrimaryLine m (.memory a) (m.memoryKey a) := by
  cases a with
  | «recall» =>
      simp only [memoryKey]
      split
      · exact .ignored rfl
      · exact .of_showCurrent rfl [] rfl rfl rfl
  | clear => exact .kept rfl rfl rfl fun _ => rfl
  | store | add | sub =>
      exact .of_silent rfl rfl (settle_entering m) rfl (settle_displayText m)

/-- Every command that does not fail either shows its result, or changes nothing, or hides it. -/
theorem Coherent.primaryLine
    (h : Coherent m) (hprecision : 0 < m.config.precision) (c : Command)
    (herror : (m.execute F c).error = none) :
    PrimaryLine m c (m.execute F c) := by
  cases c with
  | digit d =>
      simp only [Engine.execute, digit]
      split
      · exact .ignored rfl
      · rename_i hd
        refine .startEntry_updateEntry rfl fun hentering => ?_
        rw [startEntry_entry hentering]
        exact typeDigit?_first hprecision (Nat.not_le.mp hd)
  | point =>
      simp only [Engine.execute, point]
      split
      · exact .ignored rfl
      · refine .startEntry_updateEntry rfl fun hentering => ?_
        rw [startEntry_entry hentering]
        exact Option.some_ne_none _
  | exponent =>
      simp only [Engine.execute, exponent]
      split
      · exact .ignored rfl
      · refine .startEntry_updateEntry rfl fun hentering => ?_
        rw [startEntry_entry hentering]
        exact Option.some_ne_none _
  | binary op => exact h.primaryLine_binary op herror
  | percent =>
      simp only [Engine.execute, Engine.percent] at herror ⊢
      split at herror
      · cases herror
      · exact .presentOperand rfl (settle_entering _) _ _
  | equals =>
      obtain ⟨before, hevents⟩ := equals_shows herror
      exact .of_showCurrent rfl before (h.equals_entering herror) hevents rfl
  | clear => exact .of_showCurrent rfl [_, _] rfl rfl rfl
  | clearEntry =>
      simp only [Engine.execute, Engine.clearEntry]
      split
      · exact .of_showCurrent rfl [_, _] rfl rfl rfl
      · exact .of_showCurrent rfl [] rfl rfl rfl
  | backspace =>
      simp only [Engine.execute, backspace]
      split
      · exact .updateEntry rfl ‹_› _
      · exact .ignored rfl
  | negate =>
      simp only [Engine.execute, Engine.negate]
      split
      · exact .updateEntry rfl ‹_› _
      · rename_i hentering
        exact .presentOperand rfl (by simpa using hentering) _ _
  | unary f =>
      simp only [Engine.execute, Engine.unary] at herror ⊢
      split
      · exact .ignored rfl
      · rename_i hadmitted
        rw [if_neg hadmitted] at herror
        split at herror
        · cases herror
        · exact .of_showCurrent rfl [_] (settle_entering _) rfl rfl
  | inverse | angle _ => exact .kept rfl rfl rfl fun _ => rfl
  | memory a => exact primaryLine_memoryKey a
  | openParen => exact primaryLine_openGroup herror
  | closeParen => exact primaryLine_closeGroup herror
  | base b | style s => exact .of_showCurrent rfl [] (settle_entering m) rfl rfl
  | wordSize w =>
      refine .of_showCurrent rfl [] ?_ rfl rfl
      simp only [Engine.execute, Engine.setWordSize]
      split <;> exact settle_entering m

/-- Showing everything again shows the state. -/
theorem applySettings_self
    (hm : m.failed = false) :
    m.applySettings m.settings = (m, [.primary m.primaryText false, m.showExpression]) := by
  have hshow : (if m.entering then m.showEntry else m.showCurrent) =
      .primary m.primaryText false := by
    unfold primaryText
    split <;> rfl
  show (m, if m.failed then []
    else [if m.entering then m.showEntry else m.showCurrent, m.showExpression]) = _
  rw [if_neg (by simp [hm]), hshow]

/-- Clearing after an error shows the state. -/
theorem lastPrimary?_clear
    (m : Engine) :
    lastPrimary? m.clear.events = some (m.clear.engine.primaryText, false) := by
  rfl

end Engine

/-! ### Sessions -/

namespace Session

variable {F : RealFunctions} {s : Session} {c : Command}

/-- The primary line, with whether it tells an error. -/
def primaryLine (s : Session) : String × Bool := (s.screen.primary, s.screen.isError)

/-- The primary line shows what would be shown again. -/
def ShowsState (s : Session) : Prop :=
  s.screen.primary = s.engine.primaryText ∧ s.screen.isError = false

theorem showsState_iff :
    s.ShowsState ↔ s.primaryLine = (s.engine.primaryText, false) :=
  Prod.mk_inj.symm

theorem primaryLine_observeAll
    (s : Session) (events : List Event) :
    (s.observeAll events).primaryLine = (lastPrimary? events).getD s.primaryLine := by
  induction events using List.reverseRecOn with
  | nil => rfl
  | append_singleton events event ih =>
      rw [observeAll, List.foldl_append, List.foldl_cons, List.foldl_nil, lastPrimary?_append,
        ← observeAll]
      cases event with
      | primary text isError => rfl
      | _ => exact ih

/-- A session with given texts and separators. -/
def start (config : Config) (settings : Settings) : Session :=
  let m := Engine.new config settings
  observeAll { engine := m } m.opening

/-- A new session is one with the texts and separators that an engine begins with. -/
theorem new_eq_start
    (config : Config) :
    Session.new config = start config {} := by
  rfl

/-- Obeys commands in their order. -/
def obeyAll (F : RealFunctions) (s : Session) (cs : List Command) : Session := cs.foldl (obey F) s

theorem obeyAll_concat
    (s : Session) (cs : List Command) (c : Command) :
    s.obeyAll F (cs ++ [c]) = (s.obeyAll F cs).obey F c :=
  List.foldl_append

theorem obeyAll_engine
    (s : Session) (cs : List Command) :
    (s.obeyAll F cs).engine = s.engine.run F cs := by
  induction cs generalizing s with
  | nil => rfl
  | cons c cs ih => exact (ih (s.obey F c)).trans (by rw [obey_engine]; rfl)

/-- Takes over texts and separators, which shows everything again. -/
def adopt (s : Session) (settings : Settings) : Session :=
  let (m, events) := s.engine.applySettings settings
  { s with engine := m }.observeAll events

theorem start_showsState
    (config : Config) (settings : Settings) :
    (start config settings).ShowsState := by
  rw [showsState_iff]
  rfl

/-- What a step shows. -/
theorem primaryLine_obey
    (s : Session) (c : Command) :
    (s.obey F c).primaryLine = (lastPrimary? (s.engine.step F c).2).getD s.primaryLine := by
  rw [obey, primaryLine_observeAll]
  rfl

/-- While a number is typed the line shows it, and no error is told. -/
structure Tracks (s : Session) : Prop where
  isError : s.screen.isError = false
  entry : s.engine.entering = true → s.ShowsState

theorem ShowsState.tracks
    (h : s.ShowsState) :
    Tracks s :=
  ⟨h.2, fun _ => h⟩

/-- A command that ends an error shows the state. -/
theorem obey_of_failed
    (hm : s.engine.failed = true) (hstep : (s.obey F c).engine.failed = false) :
    (s.obey F c).ShowsState := by
  have hclear : s.engine.step F c = (s.engine.clear.engine, s.engine.clear.events) := by
    cases c with
    | clear => exact Engine.step_clear F s.engine
    | clearEntry => exact Engine.step_clearEntry_of_failed F hm
    | _ =>
        rw [obey_engine, Engine.step_of_failed F hm rfl] at hstep
        exact absurd (hm.symm.trans hstep) (by decide)
  rw [showsState_iff, primaryLine_obey, obey_engine, hclear, Engine.lastPrimary?_clear]
  rfl

/-- A step that does not fail has a reaction, whose effect on the primary line is known. -/
theorem exists_primaryLine
    (h : Engine.Reachable F s.engine) (hm : s.engine.failed = false)
    (hstep : (s.obey F c).engine.failed = false) :
    ∃ r, Engine.PrimaryLine s.engine c r ∧ (s.obey F c).engine = r.engine ∧
      (s.engine.step F c).2 = r.events := by
  rw [obey_engine] at hstep ⊢
  cases herror : (s.engine.execute F c).error with
  | some e =>
      rw [Engine.step_eq F hm, herror] at hstep
      cases hstep
  | none =>
      refine ⟨_, (h.coherent hm).primaryLine (h.precision_pos F) c herror, ?_, ?_⟩
      · rw [Engine.step_eq F hm, herror]
      · simp [Engine.step, hm, herror]

/--
In a session whose line shows the number while one is typed, it shows the state
after a command that does not fail exactly if the command shows it, or neither
hides a number nor finds another state shown, or hides a number that is written
as the value behind it.
-/
theorem obey_showsState_iff
    (h : Engine.Reachable F s.engine) (hm : s.engine.failed = false) (htracks : Tracks s)
    (hstep : (s.obey F c).engine.failed = false) :
    (s.obey F c).ShowsState ↔
      lastPrimary? (s.engine.step F c).2 ≠ none ∨
        if s.engine.entering = true ∧ c.hidesEntry = true then
          s.engine.entryText = s.engine.displayText (s.engine.valueBehind c)
        else s.ShowsState := by
  obtain ⟨r, hline, hengine, hevents⟩ := exists_primaryLine h hm hstep
  rw [showsState_iff, primaryLine_obey, hengine, hevents]
  cases hline with
  | shown hshown _ => simp [hshown]
  | kept hnone htext hentering hvisible =>
      have hnot : ¬(s.engine.entering = true ∧ c.hidesEntry = true) := by
        rintro ⟨hentering, hhides⟩
        exact absurd (hvisible hentering) (by simp [hhides])
      rw [hnone, if_neg hnot, htext, showsState_iff]
      simp
  | hidden hnone hc hentering hleft htext =>
      have hshown := (htracks.entry hentering).1
      rw [hnone, if_pos ⟨hentering, hc⟩, htext]
      rw [Engine.primaryText_of_entering hentering] at hshown
      simp [primaryLine, hshown, htracks.isError]

/-- A command that may hide a number shows nothing on the primary line. -/
theorem lastPrimary?_of_hidesEntry
    (h : Engine.Reachable F s.engine) (hm : s.engine.failed = false) (hc : c.hidesEntry = true)
    (hstep : (s.obey F c).engine.failed = false) :
    lastPrimary? (s.engine.step F c).2 = none := by
  obtain ⟨r, hline, -, hevents⟩ := exists_primaryLine h hm hstep
  rw [hevents]
  cases hline with
  | shown _ hvisible => exact absurd hvisible (by simp [hc])
  | kept hnone | hidden hnone => exact hnone

theorem Tracks.obey
    (htracks : Tracks s) (h : Engine.Reachable F s.engine) (hm : s.engine.failed = false)
    (hstep : (s.obey F c).engine.failed = false) :
    Tracks (s.obey F c) := by
  obtain ⟨r, hline, hengine, hevents⟩ := exists_primaryLine h hm hstep
  have hscreen := primaryLine_obey (F := F) s c
  rw [hevents] at hscreen
  cases hline with
  | shown hshown _ =>
      refine ShowsState.tracks (showsState_iff.mpr ?_)
      rw [hscreen, hshown, hengine]
      rfl
  | kept hnone htext hentering =>
      rw [hnone, Option.getD_none] at hscreen
      refine ⟨?_, fun hlater => ?_⟩
      · exact (congrArg Prod.snd hscreen).trans htracks.isError
      · rw [hengine, hentering] at hlater
        rw [showsState_iff, hscreen, hengine, htext]
        exact showsState_iff.mp (htracks.entry hlater)
  | hidden hnone _ _ hentering =>
      rw [hnone, Option.getD_none] at hscreen
      refine ⟨(congrArg Prod.snd hscreen).trans htracks.isError, fun hlater => ?_⟩
      rw [hengine, hentering] at hlater
      cases hlater

/-! ### Runs -/

theorem start_reachable
    (config : Config) (settings : Settings) (cs : List Command) :
    Engine.Reachable F ((start config settings).obeyAll F cs).engine := by
  rw [obeyAll_engine]
  exact (Engine.Reachable.new config settings).run F cs

theorem tracks_of_run
    (config : Config) (settings : Settings) {cs : List Command}
    (hm : ((start config settings).obeyAll F cs).engine.failed = false) :
    Tracks ((start config settings).obeyAll F cs) := by
  induction cs using List.reverseRecOn with
  | nil => exact (start_showsState config settings).tracks
  | append_singleton cs c ih =>
      rw [obeyAll_concat] at hm ⊢
      cases hfailed : ((start config settings).obeyAll F cs).engine.failed with
      | true => exact (obey_of_failed hfailed hm).tracks
      | false => exact (ih hfailed).obey (start_reachable config settings cs) hfailed hm

/-- If no command hides a number being typed, the line shows the state. -/
theorem showsState_of_run
    (config : Config) (settings : Settings) {cs : List Command}
    (hm : ((start config settings).obeyAll F cs).engine.failed = false)
    (hvisible : ∀ before c, before ++ [c] <+: cs → c.hidesEntry = true →
      ((start config settings).obeyAll F before).engine.entering = false) :
    ((start config settings).obeyAll F cs).ShowsState := by
  induction cs using List.reverseRecOn with
  | nil => exact start_showsState config settings
  | append_singleton cs c ih =>
      have hbefore := hvisible cs c (List.prefix_refl _)
      have hearlier := fun hm => ih hm fun before c hle =>
        hvisible before c (hle.trans (List.prefix_append cs _))
      rw [obeyAll_concat] at hm ⊢
      cases hfailed : ((start config settings).obeyAll F cs).engine.failed with
      | true => exact obey_of_failed hfailed hm
      | false =>
          refine (obey_showsState_iff (start_reachable config settings cs) hfailed
            (tracks_of_run config settings hfailed) hm).mpr (Or.inr ?_)
          rw [if_neg]
          · exact hearlier hfailed
          · rintro ⟨hentering, hhides⟩
            exact absurd (hbefore hhides) (by simp [hentering])

/-- Taking over the same texts and separators shows the state. -/
theorem adopt_self
    (hm : s.engine.failed = false) :
    (s.adopt s.engine.settings).engine = s.engine ∧
      (s.adopt s.engine.settings).ShowsState := by
  have happly := Engine.applySettings_self hm
  have hengine : (s.adopt s.engine.settings).engine = s.engine := by
    rw [adopt, happly, observeAll_engine]
  refine ⟨hengine, ?_⟩
  rw [showsState_iff, hengine, adopt, happly, primaryLine_observeAll]
  rfl

/--
In every session without an error:
no error is told; while a number is typed the line shows it; the line shows the
state if no opening parenthesis and none of the memory keys that store, add or
subtract has ended the typing of a number; after such a key it shows the state
exactly if the number is written as the value behind it; and taking over the
same texts and separators changes the line exactly if it does not show the state.
-/
theorem screen_shows_state
    (config : Config) (settings : Settings) {cs : List Command} {s : Session}
    (hrun : s = (start config settings).obeyAll F cs) (hm : s.engine.failed = false) :
    s.screen.isError = false ∧
      (s.engine.entering = true → s.ShowsState) ∧
      ((∀ before c, before ++ [c] <+: cs → c.hidesEntry = true →
          ((start config settings).obeyAll F before).engine.entering = false) → s.ShowsState) ∧
      (∀ c, s.engine.entering = true → c.hidesEntry = true →
        (s.obey F c).engine.failed = false →
          ((s.obey F c).ShowsState ↔
            s.engine.entryText = s.engine.displayText (s.engine.valueBehind c))) ∧
      ((s.adopt s.engine.settings).screen.primary = s.screen.primary ↔ s.ShowsState) := by
  subst hrun
  have htracks := tracks_of_run config settings hm
  refine ⟨htracks.isError, htracks.entry, showsState_of_run config settings hm, ?_, ?_⟩
  · intro c hentering hhides hstep
    have hreachable := start_reachable (F := F) config settings cs
    have hnone := lastPrimary?_of_hidesEntry hreachable hm hhides hstep
    rw [obey_showsState_iff hreachable hm htracks hstep, if_pos ⟨hentering, hhides⟩]
    simp [hnone]
  · obtain ⟨hengine, hshows⟩ := adopt_self hm
    have hprimary := hshows.1
    rw [hengine] at hprimary
    rw [hprimary, ShowsState, htracks.isError]
    simp [eq_comm]

/-- While the digit five is typed the line shows it. -/
theorem sampleDigit_shown :
    ((start {} {}).obeyAll .native [.digit 5]).engine.failed = false ∧
      ((start {} {}).obeyAll .native [.digit 5]).ShowsState ∧
      ((start {} {}).obeyAll .native [.digit 5]).screen.primary = "5" := by
  have hrun : (start {} {}).obeyAll .native [.digit 5] = (start {} {}).obeyAll .native [.digit 5] :=
    rfl
  have hshows := screen_shows_state {} {} hrun rfl
  exact ⟨rfl, hshows.2.1 rfl, rfl⟩

/-- The digit five and an opening parenthesis. -/
def sampleHidden : Session := (start {} {}).obeyAll .native [.digit 5, .openParen]

/--
The parenthesis throws the five away, and zero is at hand.  The line still shows
the five, until the same texts and separators are taken over.
-/
theorem sampleHidden_not_shown :
    Engine.Reachable .native sampleHidden.engine ∧ sampleHidden.engine.failed = false ∧
      sampleHidden.engine.entering = false ∧ sampleHidden.engine.current = .zero ∧
      sampleHidden.screen.primary = "5" ∧
      sampleHidden.engine.displayText sampleHidden.engine.current = "0" ∧
      ¬sampleHidden.ShowsState ∧
      (sampleHidden.adopt sampleHidden.engine.settings).screen.primary = "0" := by
  refine ⟨start_reachable {} {} _, rfl, rfl, rfl, rfl, rfl, ?_, rfl⟩
  intro hshows
  exact absurd hshows.1 (by decide)

end Session
end DeskCalculator
