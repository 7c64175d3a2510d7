import DeskCalculator.Engine.Step

/-!
# Sessions

A session is an engine with what it has shown: the screen keeps the last text
of each line, and the journal the last lines of the history.  A host has a
session and the configuration chosen for it; another configuration starts a new
session.
-/

namespace DeskCalculator

/-- The last texts shown. -/
structure Screen where
  primary : String := ""
  isError : Bool := false
  expression : String := ""
  /-- The last operator announced. -/
  announced : String := ""
deriving DecidableEq, Repr

/-- A line of the history. -/
structure JournalEntry where
  expression : String
  result : String
deriving DecidableEq, Repr

/-- The last lines of the history, the oldest first. -/
abbrev Journal := List JournalEntry

namespace Journal

/-- The largest number of lines that are kept. -/
def capacity : Nat := 50

/-- Adds a line; the oldest gives way if there is no room. -/
def record (j : Journal) (e : JournalEntry) : Journal :=
  (if capacity ≤ j.length then j.tail else j) ++ [e]

end Journal

/-- An engine with what it has shown. -/
structure Session where
  engine : Engine
  screen : Screen := {}
  journal : Journal := []
deriving Repr

namespace Session

/-- Takes note of an event. -/
def observe (s : Session) : Event → Session
  | .primary text isError => { s with screen := { s.screen with primary := text, isError } }
  | .expression text => { s with screen := { s.screen with expression := text } }
  | .announce text => { s with screen := { s.screen with announced := text } }
  | .record expression result => { s with journal := s.journal.record ⟨expression, result⟩ }
  | .clearHistory => { s with journal := [] }

/-- Takes note of events in their order. -/
def observeAll (s : Session) (events : List Event) : Session := events.foldl observe s

/-- A new session, with standard texts and separators. -/
def new (config : Config) : Session :=
  let m := Engine.new config {}
  observeAll { engine := m } m.opening

/-- Obeys a command. -/
def obey (F : RealFunctions) (s : Session) (c : Command) : Session :=
  let (m, events) := s.engine.step F c
  { s with engine := m }.observeAll events

end Session

/-- A session with the configuration chosen for it. -/
structure Host where
  config : Config := {}
  session : Session := .new {}
deriving Repr

namespace Host

/-- The smallest and the largest precision that can be chosen. -/
def minPrecision : Nat := 1

/-- The largest precision that can be chosen. -/
def maxPrecision : Nat := 64

/-- A precision brought between its limits. -/
def clampPrecision (p : Nat) : Nat := min (max p minPrecision) maxPrecision

/-- Obeys a command. -/
def obey (F : RealFunctions) (h : Host) (c : Command) : Host :=
  { h with session := h.session.obey F c }

/-- Obeys commands in their order. -/
def obeyAll (F : RealFunctions) (h : Host) (cs : List Command) : Host := cs.foldl (obey F) h

/-- Takes over a configuration; if it differs from that of the session, a new session starts. -/
def configure (h : Host) (config : Config) : Host :=
  let config := { config with precision := clampPrecision config.precision }
  if h.session.engine.config = config then { h with config }
  else { config, session := .new config }

end Host
end DeskCalculator
