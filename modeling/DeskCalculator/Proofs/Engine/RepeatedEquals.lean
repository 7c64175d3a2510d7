import DeskCalculator.Host.Session
import DeskCalculator.Proofs.Engine.Narrowing
import DeskCalculator.Proofs.Engine.Recovery
import DeskCalculator.Proofs.Engine.Repetition

/-!
# Any number of equals keys

The first `=` closes the open groups and folds the outermost chain.  What the
groups come to, or else the value at hand, is the right operand of that chain,
and with its last operator it is what further equals keys repeat: each applies
the operator to the last result and the same right operand, and adds a line to
the history.  If that fails, the last result stays at hand and nothing is added
any more.  Without an operator nothing happens at all.

**Results.**
* `closeGroups_closed`, `completed_of_error_eq_none`: what the first equals key
  leaves.
* `ShowsResult.step_equals_of_ok`, `ShowsResult.step_equals_of_error`: one
  further equals key.
* `ShowsResult.run_equals`: any number of them.
* `repeated_equals`: the first equals key and all further ones.
-/

namespace DeskCalculator

open Ratio

/-- The line of the history that an event adds, if it adds one. -/
def Event.journalEntry? : Event → Option JournalEntry
  | .record line result => some ⟨line, result⟩
  | _ => none

namespace Chain

variable {α : Type}

/-- The right operand of the outermost chain: what the chains inside of it come to. -/
def outermostOperand (apply : Operator → α → α → Except CalcError α) :
    List (Chain α) → Chain α → α → Except CalcError α
  | [], _, last => .ok last
  | outer :: rest, c, last =>
      match (c.fold apply none last).result with
      | .error e => .error e
      | .ok (v, _) => outermostOperand apply rest outer v

end Chain

namespace Engine

variable {F : RealFunctions} {m : Engine}

/-- The chain outside of all open groups. -/
def outermost (m : Engine) : Chain Ratio := (m.groups.map (·.pending)).getLast?.getD m.pending

/-- The lines that commands add to the history. -/
def recorded (F : RealFunctions) (m : Engine) (cs : List Command) : List JournalEntry :=
  (m.trace F cs).flatten.filterMap Event.journalEntry?

theorem recorded_cons
    (m : Engine) (c : Command) (cs : List Command) :
    m.recorded F (c :: cs) =
      (m.step F c).2.filterMap Event.journalEntry? ++ (m.step F c).1.recorded F cs := by
  rw [recorded, trace, List.flatten_cons, List.filterMap_append]
  rfl

/-- After an error commands that do not clear add no line. -/
theorem recorded_of_failed
    (hm : m.failed = true) {cs : List Command} (hcs : ∀ c ∈ cs, c.isClearing = false) :
    m.recorded F cs = [] := by
  rw [recorded, trace_of_failed hm hcs, List.flatten_replicate_nil, List.filterMap_nil]

/-! ### The first equals key -/

/-- A group that is closed without an error has been folded. -/
theorem exists_fold_of_closeGroup
    {group : Group} {groups : List Group} (hgroups : m.groups = group :: groups)
    (herror : (m.closeGroup F).error = none) :
    ∃ v rest, (m.pending.fold (m.mode.binary F) none m.settle.current).result = .ok (v, rest) := by
  simp only [closeGroup, hgroups, foldPending_settle] at herror
  cases hfold : (m.pending.fold (m.mode.binary F) none m.settle.current).result with
  | error e =>
      rw [hfold] at herror
      cases herror
  | ok r => exact ⟨r.1, r.2, rfl⟩

/-- What a calculation that is completed without an error leaves. -/
structure Completed (F : RealFunctions) (m e : Engine) : Prop where
  result : (m.pending.fold (m.mode.binary F) none m.settle.current).result = .ok (e.current, [])
  held : e.held = m.settle.current
  lastOperator : e.lastOperator = m.pending.lastOperator?
  pending : e.pending = []
  mode : e.mode = m.mode
  afterEquals : e.afterEquals = true
  entering : e.entering = false

/-- A calculation that is completed without an error has been folded, and nothing is left of it. -/
theorem exists_fold_of_complete
    (herror : (complete F m).error = none) :
    ∃ v, (m.pending.fold (m.mode.binary F) none m.settle.current).result = .ok (v, []) := by
  simp only [complete, foldPending_noted] at herror
  cases hfold : (m.pending.fold (m.mode.binary F) none m.settle.current).result with
  | error e =>
      rw [hfold] at herror
      cases herror
  | ok r =>
      obtain ⟨v, rest⟩ := r
      obtain rfl := Chain.eq_nil_of_fold_none hfold
      exact ⟨v, rfl⟩

theorem completed_of_error_eq_none
    (herror : (complete F m).error = none) :
    Completed F m (complete F m).engine := by
  obtain ⟨v, hfold⟩ := exists_fold_of_complete herror
  obtain ⟨hequals, hop, hheld, hmode⟩ := complete_keeps ((foldPending_settle m none).trans hfold)
  have hyields := complete_of_fold hfold
  constructor
  case result => rw [hyields.current, hfold]
  case held => exact hheld
  case lastOperator => exact hop
  case pending => simp only [complete, foldPending_noted, hfold]
  case mode => exact hmode
  case afterEquals => exact hequals
  case entering => exact hyields.entering

/-- What is left when the open groups are closed. -/
structure GroupsClosed (F : RealFunctions) (m e : Engine) : Prop where
  groups : e.groups = []
  pending : e.pending = m.outermost
  operand : Chain.outermostOperand (m.mode.binary F) (m.groups.map (·.pending)) m.pending
    m.settle.current = .ok e.settle.current
  mode : e.mode = m.mode

theorem closeGroups_closed
    {groups : List Group} (hgroups : m.groups = groups)
    (herror : (closeGroups F groups.length m).error = none) :
    GroupsClosed F m (closeGroups F groups.length m).engine := by
  induction groups generalizing m with
  | nil =>
      constructor
      case groups => exact hgroups
      case pending => simp [closeGroups, outermost, hgroups]
      case operand => simp [closeGroups, hgroups, Chain.outermostOperand]
      case mode => rfl
  | cons group groups ih =>
      rw [List.length_cons, closeGroups] at herror ⊢
      obtain ⟨hfirst, hrest, hengine⟩ := Reaction.andThen_of_error_eq_none herror
      obtain ⟨v, left, hfold⟩ := exists_fold_of_closeGroup hgroups hfirst
      obtain ⟨hyields, hgroups', hpending, hmode⟩ := closeGroup_of_fold hgroups hfold
      have hclosed := ih hgroups' hrest
      rw [hengine]
      constructor
      case groups => exact hclosed.groups
      case pending =>
        rw [hclosed.pending]
        simp [outermost, hgroups, hgroups', hpending, List.getLast?_cons]
      case operand =>
        have hoperand := hclosed.operand
        rw [hmode, hgroups', hpending, hyields.settle_current] at hoperand
        rw [hgroups, List.map_cons, Chain.outermostOperand, hfold]
        exact hoperand
      case mode => exact hclosed.mode.trans hmode

/-! ### Further equals keys -/

/-- The value at hand is a result, and no error has occurred. -/
structure ShowsResult (m : Engine) : Prop where
  failed : m.failed = false
  afterEquals : m.afterEquals = true
  entering : m.entering = false

/-- The line that a repetition with the left operand `a` and the result `v` adds. -/
def repetitionLine (m : Engine) (op : Operator) (a v : Ratio) : JournalEntry :=
  ⟨s!"{m.lineText a} {op.symbol} {m.lineText m.held} =", m.lineText v⟩

/-- Without an operator a result stays as it is. -/
theorem ShowsResult.step_equals_of_none
    (h : ShowsResult m) (hop : m.lastOperator = none) :
    m.step F .equals = (m, [m.showCurrent]) := by
  simp [step, execute, equals, repeatEquals, h.failed, h.afterEquals, hop]

/-- A repetition that fails leaves the last result at hand and adds no line. -/
theorem ShowsResult.step_equals_of_error
    (h : ShowsResult m) {op : Operator} (hop : m.lastOperator = some op) {e : CalcError}
    (hvalue : m.mode.binary F op m.current m.held = .error e) :
    (m.step F .equals).1 = { m with failed := true } ∧
      (m.step F .equals).2.filterMap Event.journalEntry? = [] := by
  have hrepeat : m.repeatEquals F = { engine := m, error := some e } := by
    simp only [repeatEquals, hop, settle_of_not_entering h.entering, hvalue]
  have hstep : m.step F .equals = ((m.fail e).1, [(m.fail e).2]) := by
    simp [step, execute, equals, hrepeat, h.failed, h.afterEquals]
  rw [hstep]
  simp [fail, Event.journalEntry?, h.entering]

/-- A repetition puts the next result at hand and adds its line. -/
theorem ShowsResult.step_equals_of_ok
    (h : ShowsResult m) {op : Operator} (hop : m.lastOperator = some op) {v : Ratio}
    (hvalue : m.mode.binary F op m.current m.held = .ok v) :
    (m.step F .equals).1 =
        { m with current := v, tokens := [(m.repetitionLine op m.current v).expression] } ∧
      (m.step F .equals).2.filterMap Event.journalEntry? = [m.repetitionLine op m.current v] := by
  have hequals : m.execute F .equals = m.repeatEquals F := by
    simp [execute, equals, h.afterEquals]
  simp only [step, h.failed, hequals, repeatEquals, hop, settle_of_not_entering h.entering, hvalue]
  exact ⟨rfl, rfl⟩

/-- The results of one operation applied again and again, `n` times or until it fails. -/
def results (apply : Ratio → Except CalcError Ratio) : Nat → Ratio → List Ratio
  | 0, _ => []
  | n + 1, v =>
      match apply v with
      | .error _ => []
      | .ok w => w :: results apply n w

/-- Without an operator any number of equals keys does nothing. -/
theorem ShowsResult.run_equals_of_none
    (h : ShowsResult m) (hop : m.lastOperator = none) (n : Nat) :
    m.run F (List.replicate n .equals) = m ∧ m.recorded F (List.replicate n .equals) = [] := by
  have hstep := h.step_equals_of_none (F := F) hop
  induction n with
  | zero => exact ⟨rfl, rfl⟩
  | succ n ih =>
      rw [List.replicate_succ, run_cons, recorded_cons, hstep]
      exact ih

/--
Equals keys put one result after the other at hand and add a line for each, until
a repetition fails; nothing else changes but the words of the expression line.
-/
theorem ShowsResult.run_equals
    (h : ShowsResult m) {op : Operator} (hop : m.lastOperator = some op) (n : Nat) :
    (∃ tokens, m.run F (List.replicate n .equals) =
        { m with
          current := ((results (m.mode.binary F op · m.held) n m.current).getLast?).getD m.current
          tokens
          failed := decide ((results (m.mode.binary F op · m.held) n m.current).length < n) }) ∧
      m.recorded F (List.replicate n .equals) =
        List.zipWith (m.repetitionLine op)
          (m.current :: results (m.mode.binary F op · m.held) n m.current)
          (results (m.mode.binary F op · m.held) n m.current) := by
  induction n generalizing m with
  | zero =>
      exact ⟨⟨m.tokens, congrArg (fun b => { m with failed := b }) h.failed⟩, rfl⟩
  | succ n ih =>
      rw [List.replicate_succ, run_cons, recorded_cons]
      cases hvalue : m.mode.binary F op m.current m.held with
      | error e =>
          obtain ⟨hengine, hlines⟩ := h.step_equals_of_error hop hvalue
          have hrest : ∀ c ∈ List.replicate n Command.equals, c.isClearing = false := by
            intro c hc
            rw [List.eq_of_mem_replicate hc]
            rfl
          rw [hengine, hlines, run_of_failed F rfl hrest, recorded_of_failed rfl hrest]
          simp only [results, hvalue]
          exact ⟨⟨m.tokens, by simp⟩, rfl⟩
      | ok v =>
          obtain ⟨hengine, hlines⟩ := h.step_equals_of_ok hop hvalue
          have hnext := ih (m := (m.step F .equals).1)
            (by rw [hengine]; exact ⟨h.failed, h.afterEquals, h.entering⟩)
            (by rw [hengine]; exact hop)
          rw [hlines]
          rw [hengine] at hnext ⊢
          obtain ⟨⟨tokens, hrun⟩, hrecorded⟩ := hnext
          simp only [results, hvalue]
          refine ⟨⟨tokens, ?_⟩, ?_⟩
          · rw [hrun]
            simp only [List.getLast?_cons, Option.getD_some, List.length_cons,
              Nat.add_lt_add_iff_right]
            rfl
          · rw [hrecorded]
            rfl

/-! ### The first equals key and all further ones -/

/-- An equals key that does not fail closes the groups and completes the calculation. -/
theorem exists_closed_of_step_equals
    (hm : m.failed = false) (hequals : m.afterEquals = false)
    (hok : (m.step F .equals).1.failed = false) :
    ∃ closed, GroupsClosed F m closed ∧ Completed F closed (m.step F .equals).1 := by
  have hexecute : m.execute F .equals =
      (closeGroups F m.groups.length m).andThen (complete F) := by
    rw [execute, equals, if_neg (by simp [hequals])]
  rw [step_eq F hm, hexecute] at hok ⊢
  cases herror : ((closeGroups F m.groups.length m).andThen (complete F)).error with
  | some e =>
      rw [herror] at hok
      cases hok
  | none =>
      obtain ⟨hclose, hcomplete, hengine⟩ := Reaction.andThen_of_error_eq_none herror
      refine ⟨_, closeGroups_closed rfl hclose, ?_⟩
      dsimp only
      rw [hengine]
      exact completed_of_error_eq_none hcomplete

/--
If `=` completes a calculation without an error, then the value `b` that the
groups come to, or else the value at hand, is the right operand of the outermost
chain, and the result is that chain folded with it.  If the chain has no
operator, further equals keys do nothing.  If `op` is its last operator, they
put `op` applied to the last result and `b` at hand, again and again, and add a
line for each result, until `op` fails: then the last result stays at hand in a
state after an error.  The chain stays empty and `b` is kept.
-/
theorem repeated_equals
    (hm : m.failed = false) (hequals : m.afterEquals = false) {e : Engine}
    (he : (m.step F .equals).1 = e) (hok : e.failed = false) :
    ∃ b, Chain.outermostOperand (m.mode.binary F) (m.groups.map (·.pending)) m.pending
        m.settle.current = .ok b ∧
      (m.outermost.fold (m.mode.binary F) none b).result = .ok (e.current, []) ∧
      e.held = b ∧ e.pending = [] ∧
      match m.outermost.lastOperator? with
      | none => ∀ n, e.run F (List.replicate n .equals) = e ∧
          e.recorded F (List.replicate n .equals) = []
      | some op => ∀ n rs, rs = results (m.mode.binary F op · b) n e.current →
          (∃ tokens, e.run F (List.replicate n .equals) =
            { e with
              current := rs.getLast?.getD e.current, tokens
              failed := decide (rs.length < n) }) ∧
          e.recorded F (List.replicate n .equals) =
            List.zipWith (e.repetitionLine op) (e.current :: rs) rs := by
  subst he
  obtain ⟨closed, hclosed, hdone⟩ := exists_closed_of_step_equals hm hequals hok
  generalize (m.step F .equals).1 = e at hok hdone
  have hmode : e.mode = m.mode := hdone.mode.trans hclosed.mode
  have hshows : ShowsResult e := ⟨hok, hdone.afterEquals, hdone.entering⟩
  have hresult := hdone.result
  have hop := hdone.lastOperator
  rw [hclosed.pending] at hresult hop
  rw [hclosed.mode] at hresult
  refine ⟨closed.settle.current, hclosed.operand, hresult, hdone.held, hdone.pending, ?_⟩
  cases hlast : m.outermost.lastOperator? with
  | none => exact hshows.run_equals_of_none (hop.trans hlast)
  | some op =>
      rintro n rs rfl
      rw [← hmode, ← hdone.held]
      exact hshows.run_equals (hop.trans hlast) n

/-! ### A difference -/

/-- Folding a single operation that succeeds. -/
theorem fold_single
    {apply : Operator → Ratio → Ratio → Except CalcError Ratio} {op : Operator} {a b v : Ratio}
    (hvalue : apply op a b = .ok v) :
    (Chain.fold apply none [(a, op)] b).result = .ok (v, []) := by
  rw [← List.nil_append [_], Chain.fold_concat apply rfl (by simp) b, hvalue]
  exact Chain.fold_of_not_eligible apply (by simp) v

theorem qword_xor_seven :
    WordSize.qword.mode.binary .native .xor (.ofNat 300) (.ofNat 7) = .ok (.ofNat 299) :=
  CalculationMode.binary_xor (w := .qword) (x := (300 : BitVec 64)) (y := (7 : BitVec 64))

theorem qword_sub_299
    (x : BitVec 64) :
    WordSize.qword.mode.binary .native .sub (ofBits x) (.ofNat 299) = .ok (ofBits (x - 299)) :=
  CalculationMode.binary_sub (w := .qword) (x := x) (y := (299 : BitVec 64))

/-- The group comes to 299, and the outermost chain is the subtraction. -/
theorem outermost_sampleDifference :
    sampleDifference.mode = WordSize.qword.mode ∧
      Chain.outermostOperand (WordSize.qword.mode.binary .native)
        (sampleDifference.groups.map (·.pending)) sampleDifference.pending
        sampleDifference.settle.current = .ok (.ofNat 299) ∧
      sampleDifference.outermost = [(ofBits (5 : BitVec 64), .sub)] := by
  obtain ⟨tokens, h⟩ := sampleDifference_hasOperand
  refine ⟨h.same.mode_eq, ?_, ?_⟩
  · rw [h.groups, h.pending, h.current]
    simp only [List.map_cons, List.map_nil, Chain.outermostOperand, fold_single qword_xor_seven]
  · rw [outermost, h.groups]
    rfl

/-- The first equals key subtracts. -/
theorem equals_sampleDifference :
    Yields (sampleDifference.equals .native) sampleDifference (ofBits (5 - 299 : BitVec 64)) := by
  obtain ⟨tokens, h⟩ := sampleDifference_hasOperand
  refine equals_of_foldOpen h.afterEquals ?_
  rw [h.same.mode_eq, h.groups, h.pending, h.current]
  show Chain.foldOpen (WordSize.qword.mode.binary .native) [[(ofBits (5 : BitVec 64), .sub)]]
    [(.ofNat 300, .xor)] (.ofNat 7) = _
  simp only [Chain.foldOpen, fold_single qword_xor_seven, fold_single (qword_sub_299 5)]
  rfl

/-- After `5 - (300 xor 7` the first `=` subtracts 299 from five, and each further one again. -/
theorem sampleDifference_repeated_equals :
    sampleDifference.failed = false ∧ sampleDifference.afterEquals = false ∧
      (sampleDifference.step .native .equals).1.failed = false ∧
      (sampleDifference.step .native .equals).1.held = .ofNat 299 ∧
      (sampleDifference.run .native [.equals, .equals, .equals]).failed = false ∧
      (sampleDifference.run .native [.equals, .equals, .equals]).current =
        ofBits (5 - 299 - 299 - 299 : BitVec 64) ∧
      ((sampleDifference.step .native .equals).1.recorded .native [.equals, .equals]).length =
        2 := by
  obtain ⟨tokens, h⟩ := sampleDifference_hasOperand
  obtain ⟨hmode, hoperand, houter⟩ := outermost_sampleDifference
  have hstep := equals_sampleDifference.step_equals h.failed
  have hok : (sampleDifference.step .native .equals).1.failed = false := by
    rw [hstep, equals_sampleDifference.failed, h.failed]
  obtain ⟨b, hb, -, hheld, -, hrest⟩ := repeated_equals h.failed h.afterEquals rfl hok
  rw [hmode, hoperand] at hb
  obtain rfl := Except.ok.inj hb
  rw [houter, hmode, hstep, equals_sampleDifference.current] at hrest
  -- Two further results: each is the one before less 299.
  have htwo : [ofBits (5 - 299 - 299 : BitVec 64), ofBits (5 - 299 - 299 - 299 : BitVec 64)] =
      results (WordSize.qword.mode.binary .native .sub · (.ofNat 299)) 2
        (ofBits (5 - 299 : BitVec 64)) := by
    simp only [results, qword_sub_299]
  obtain ⟨⟨shown, hrun⟩, hlines⟩ := hrest 2 _ htwo
  rw [← hstep] at hrun hlines
  refine ⟨h.failed, h.afterEquals, hok, hheld, ?_⟩
  rw [run_cons, show [Command.equals, .equals] = List.replicate 2 .equals from rfl, hrun, hlines]
  exact ⟨rfl, rfl, rfl⟩

end Engine
end DeskCalculator
