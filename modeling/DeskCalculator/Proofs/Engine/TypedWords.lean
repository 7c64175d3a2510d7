import DeskCalculator.Host.Keyboard
import DeskCalculator.Proofs.Engine.Equals
import DeskCalculator.Proofs.Engine.MachineWords
import DeskCalculator.Proofs.Engine.Recovery
import DeskCalculator.Proofs.Engine.Typing
import DeskCalculator.Proofs.Entry.Word

/-!
# Typing words on the calculator

On words a number is typed with the digit, sign and backspace keys only, so that
it holds a word in every reachable state.  A digit that would make it larger
than any word changes nothing.  The keyboard has a key for every digit of the
text of a word; typed on a cleared calculator, the text is read as the word, and
shown again by the equals key.

**Results.**
* `Engine.Reachable.typedBy`: which keys have made the number being typed.
* `Engine.Awaits.run_digitKeys`: typing the digits of a word.
* `typed_words`: which digits are accepted, and what comes of typing a text.
-/

namespace DeskCalculator

variable {F : RealFunctions}

/-! ### Texts of words -/

/-- The text of a natural number. -/
theorem Ratio.truncatedText_ofNat
    (b : Base) (n : Nat) :
    (Ratio.ofNat n).truncatedText b.radix = digitsOf b.radix n := by
  obtain ⟨htwo, hradix⟩ := b.radix_bounds
  have htruncate : (Ratio.ofNat n).truncate = .ofNat n := by
    rw [← ofRat_natCast, truncate_ofRat, towardZero_natCast, ofInt_natCast, ofRat_natCast]
  have hneg : (Ratio.ofNat n).isNegative = false := by
    rw [← ofInt_natCast, ← Bool.not_eq_true, isNegative_ofInt]
    omega
  have hdigits : (Ratio.ofNat n).num.toDigits b.radix = digitsOf b.radix n :=
    ScaledNumber.toDigits_ofNat htwo hradix n
  simp only [truncatedText, htruncate, hneg, hdigits, signed, Bool.false_eq_true, if_false]

/-! ### Keys -/

theorem Command.ofCharIn?_digitChar
    (b : Base) {d : Nat} (hd : d < b.radix) :
    ofCharIn? b (digitChar d) = some (.digit d) := by
  have hall : ∀ b : Base, ∀ d < 16, d < b.radix →
      ofCharIn? b (digitChar d) = some (.digit d) := by
    intro b
    cases b <;> decide
  exact hall b d (hd.trans_le b.radix_bounds.2) hd

/-- The keyboard has the keys of digit strings. -/
theorem DigitsOf.filterMap_ofCharIn?
    {b : Base} {cs : List Char} (h : DigitsOf b.radix cs) :
    cs.filterMap (Command.ofCharIn? b) = (cs.map Entry.digitKey).map EntryKey.command := by
  induction cs with
  | nil => rfl
  | cons c cs ih =>
      obtain ⟨⟨d, hd, rfl⟩, htail⟩ := h.of_cons
      have hdigit : digitNat (digitChar d) = d :=
        digitNat_digitChar (hd.trans_le b.radix_bounds.2)
      rw [List.filterMap_cons_some (Command.ofCharIn?_digitChar b hd), ih htail, List.map_cons,
        List.map_cons, Entry.digitKey, hdigit, EntryKey.command]

namespace Engine

variable {m m₀ : Engine}

theorem entryRules_of_onWords
    (hwords : m.config.onWords = true) :
    m.entryRules = .ofWords m.base m.wordSize := by
  simp only [entryRules, EntryRules.ofWords, hwords, if_true]

/-- On words no other keys are accepted while a number is typed. -/
theorem kept_typedBy
    (rules : EntryRules) :
    Entry.Kept (fun rules e => rules.onWords = true → Entry.TypedBy rules e) rules where
  empty _ := .empty
  press := by
    intro e e' k h hk hwords
    cases k with
    | digit d => exact (h hwords).digit hk
    | point => simp [Entry.press?, hwords] at hk
    | exponent => simp [Entry.press?, hwords] at hk
  toggleSign h hk hwords := (h hwords).sign hk
  backspace h hk hwords := (h hwords).backspace hk

/-- On words digit, sign and backspace keys have made the number being typed, or a digit begins one. -/
theorem Reachable.typedBy
    (h : Reachable F m) (hwords : m.config.onWords = true) :
    Entry.TypedBy (.ofWords m.base m.wordSize) m.startEntry.entry := by
  rw [← entryRules_of_onWords hwords]
  exact (h.whileTyping fun m _ => kept_typedBy m.entryRules).startEntry (kept_typedBy _) hwords

theorem mode_of_onWords
    (hwords : m.config.onWords = true) :
    m.mode = m.wordSize.mode := by
  rw [mode, hwords, WordSize.mode]

/-- A word is not chopped. -/
theorem adjust_of_lt
    (hwords : m.config.onWords = true) {n : Nat} (hn : n < 2 ^ m.wordSize.bits) :
    m.mode.adjust (.ofNat n) = .ofNat n := by
  rw [mode_of_onWords hwords, CalculationMode.adjust_ofNat, Ratio.ofBits, BitVec.toNat_ofNat,
    Nat.mod_eq_of_lt hn]

/-- The digits of a word, typed where an operand is awaited. -/
theorem Awaits.run_digitKeys
    {groups : List Group} {pending : Chain Ratio} (h : Awaits m₀ m groups pending)
    (hwords : m₀.config.onWords = true) {cs : List Char} (hcs : DigitsOf m₀.base.radix cs)
    (hne : cs ≠ []) (hlt : natOf m₀.base.radix cs < 2 ^ m₀.wordSize.bits) :
    HasOperand m₀ (m.run F ((cs.map Entry.digitKey).map EntryKey.command)) groups pending
      (.ofNat (natOf m₀.base.radix cs)) := by
  have hrules := entryRules_of_onWords hwords
  obtain ⟨e, hkeys, hbounded, hsign, hmagnitude⟩ :=
    (Entry.Bounded.empty m₀.base m₀.wordSize).typeDigits hcs
      (by simpa [Entry.magnitude] using Nat.le_sub_one_of_lt hlt)
  have hvalue : e.value m₀.base.radix = .ofNat (natOf m₀.base.radix cs) := by
    have hzero : Entry.magnitude m₀.base.radix {} = 0 := natOf_nil _
    rw [hbounded.value_eq, hsign, if_neg Bool.false_ne_true, hmagnitude, hzero, Nat.zero_mul,
      Nat.zero_add, Ratio.ofInt_natCast]
  have hmax : 0 < m₀.entryRules.maxDigits := by
    rw [hrules]
    exact Nat.zero_lt_succ 63
  let l : Literal m₀.entryRules := {
    keys := cs.map Entry.digitKey
    entry := e
    keys_ne_nil := by simpa using hne
    accepted := by rw [hrules]; exact hkeys }
  have htyped := run_literal_keys (F := F) hmax h l
  have hliteral : (m₀.meaning F).literal l = .ofNat (natOf m₀.base.radix cs) := by
    show m₀.mode.adjust (e.value m₀.base.radix) = _
    rw [hvalue, adjust_of_lt hwords hlt]
  rwa [hliteral] at htyped

/-- A text without a point is shown as it is, if digits are not grouped. -/
theorem localize_of_no_point
    {text : List Char} (h : '.' ∉ text) :
    m.localize text false = String.ofList text := by
  have hsplit : splitFirst? (fun c => decide (c = '.')) text = none :=
    splitFirst?_eq_none fun c hc => by
      simp only [decide_eq_false_iff_not]
      rintro rfl
      exact h hc
  simp [localize, hsplit]

/-- On words, without groups, the primary line shows the text of a natural number. -/
theorem displayText_ofNat
    (hwords : m.config.onWords = true) (hgrouping : m.config.grouping = false) (n : Nat) :
    m.displayText (.ofNat n) = String.ofList (digitsOf m.base.radix n) := by
  obtain ⟨htwo, hradix⟩ := m.base.radix_bounds
  have hpoint := ((areDigits_digitsOf htwo n).readable hradix).not_mem.1
  rw [displayText, plainText, if_pos hwords, Ratio.truncatedText_ofNat, hgrouping,
    localize_of_no_point hpoint]

end Engine

/-! ### Sessions and hosts -/

namespace Session

theorem observe_engine
    (s : Session) (event : Event) :
    (s.observe event).engine = s.engine := by
  cases event <;> rfl

@[simp] theorem observeAll_engine
    (s : Session) (events : List Event) :
    (s.observeAll events).engine = s.engine := by
  induction events generalizing s with
  | nil => rfl
  | cons event events ih => exact (ih (s.observe event)).trans (s.observe_engine event)

@[simp] theorem obey_engine
    (s : Session) (c : Command) :
    (s.obey F c).engine = (s.engine.step F c).1 := by
  simp [obey]

/-- The primary line after the equals key. -/
theorem obey_equals_primary
    {s : Session} (hfailed : s.engine.failed = false) (herror : (s.engine.equals F).error = none) :
    (s.obey F .equals).screen.primary =
        (s.engine.equals F).engine.displayText (s.engine.equals F).engine.current ∧
      (s.obey F .equals).screen.isError = false := by
  obtain ⟨before, hevents⟩ := Engine.equals_shows herror
  have hstep : s.engine.step F .equals =
      ((s.engine.equals F).engine, before ++ [(s.engine.equals F).engine.showCurrent]) := by
    rw [← hevents]
    simp [Engine.step, hfailed, Engine.execute, herror]
  simp only [obey, hstep, observeAll, List.foldl_append, List.foldl_cons, List.foldl_nil]
  exact ⟨rfl, rfl⟩

end Session

namespace Host

theorem obeyAll_engine
    (h : Host) (cs : List Command) :
    (h.obeyAll F cs).session.engine = h.session.engine.run F cs := by
  induction cs generalizing h with
  | nil => rfl
  | cons c cs ih => exact (ih (h.obey F c)).trans (by rw [obey, Session.obey_engine]; rfl)

theorem obeyAll_append
    (h : Host) (cs ds : List Command) :
    h.obeyAll F (cs ++ ds) = (h.obeyAll F cs).obeyAll F ds :=
  List.foldl_append

end Host

namespace Engine

/-- The equals key after a single operand leaves it at hand, in the same modes. -/
theorem HasOperand.equals
    {m₀ m : Engine} {v : Ratio} (h : HasOperand m₀ m [] [] v) :
    Yields (m.equals F) m v ∧ SameModes m₀ (m.equals F).engine := by
  have hyields : Yields (m.equals F) m v := by
    refine equals_of_foldOpen h.afterEquals ?_
    rw [h.groups, h.pending, h.current]
    rfl
  have hrenewed := equals_renewed (F := F) m
  exact ⟨hyields, (equals_config F m).trans h.same.config,
    (congrArg Engine.base hrenewed).trans h.same.base,
    (congrArg Engine.wordSize hrenewed).trans h.same.wordSize⟩

end Engine

/-- A text typed on a cleared calculator, and the enter key. -/
theorem Host.typeFrame_word
    {h : Host} (hcleared : Engine.Cleared F h.session.engine)
    (hwords : h.session.engine.config.onWords = true)
    (hgrouping : h.session.engine.config.grouping = false) {n : Nat}
    (hn : n < 2 ^ h.session.engine.wordSize.bits) {typed : Session}
    (htyped : (h.typeFrame F ((Ratio.ofNat n).truncatedText h.session.engine.base.radix)
      [.enter]).session = typed) :
    typed.engine.current = .ofNat n ∧
      typed.screen.primary =
        String.ofList ((Ratio.ofNat n).truncatedText h.session.engine.base.radix) ∧
      typed.screen.isError = false := by
  obtain ⟨htwo, hradix⟩ := h.session.engine.base.radix_bounds
  have hdigits := areDigits_digitsOf htwo n
  have hvalue := natOf_digitsOf htwo hradix n
  rw [Ratio.truncatedText_ofNat] at htyped ⊢
  rw [Host.typeFrame, hdigits.filterMap_ofCharIn?, Host.obeyAll_append] at htyped
  -- before the enter key the digits have been typed
  have hoperand := hcleared.awaits.run_digitKeys (F := F) hwords hdigits (digitsOf_ne_nil n)
    (by rwa [hvalue])
  rw [hvalue, ← Host.obeyAll_engine] at hoperand
  generalize h.obeyAll F _ = before at htyped hoperand
  change before.session.obey F .equals = typed at htyped
  subst htyped
  obtain ⟨hyields, hsame⟩ := hoperand.equals (F := F)
  obtain ⟨hprimary, herror⟩ := Session.obey_equals_primary hoperand.failed hyields.error
  refine ⟨?_, ?_, herror⟩
  · rw [Session.obey_engine, hyields.step_equals hoperand.failed, hyields.current]
  · rw [hprimary, hyields.current, Engine.displayText_ofNat (by rw [hsame.config, hwords])
      (by rw [hsame.config, hgrouping]), hsame.base]

/-! ### Digits on words -/

/-- The first digit is never refused. -/
theorem Entry.typeDigit?_empty
    {b : Base} {d : Nat} (hd : d < b.radix) (w : WordSize) :
    ({} : Entry).typeDigit? (.ofWords b w) d ≠ none := by
  have hradix := b.radix_bounds.2
  have hmax : 16 ≤ 2 ^ w.bits - 1 := by
    cases w <;> decide
  have hzero : Entry.magnitude b.radix {} = 0 := natOf_nil _
  rw [(Bounded.empty b w).typeDigit?_eq hd, hzero, if_pos (by omega)]
  exact Option.some_ne_none _

/-- A digit key hands the digit to the number being typed; a refused one changes nothing. -/
theorem Session.obey_digit
    {s : Session} (hfailed : s.engine.failed = false) (hwords : s.engine.config.onWords = true)
    {d : Nat} (hd : d < s.engine.base.radix) :
    match s.engine.startEntry.entry.typeDigit?
        (.ofWords s.engine.base s.engine.wordSize) d with
    | none => s.obey F (.digit d) = s
    | some e => (s.obey F (.digit d)).engine = { s.engine.startEntry with entry := e } := by
  have hstep : s.engine.step F (.digit d) =
      ((s.engine.startEntry.updateEntry (s.engine.startEntry.entry.typeDigit?
          (.ofWords s.engine.base s.engine.wordSize) d)).engine,
        (s.engine.startEntry.updateEntry (s.engine.startEntry.entry.typeDigit?
          (.ofWords s.engine.base s.engine.wordSize) d)).events) := by
    simp only [Engine.step, hfailed, Bool.false_eq_true, false_and, if_false, Engine.execute,
      Engine.digit, if_neg (Nat.not_le.mpr hd), Engine.entryRules_of_onWords hwords,
      Engine.updateEntry_error]
  cases htyped : s.engine.startEntry.entry.typeDigit?
      (.ofWords s.engine.base s.engine.wordSize) d with
  | none =>
      -- a number is being typed, since its first digit would not have been refused
      have hentering : s.engine.entering = true := by
        by_contra hnot
        rw [Engine.startEntry, if_neg hnot] at htyped
        exact Entry.typeDigit?_empty hd _ htyped
      have hstart : s.engine.startEntry = s.engine := by
        rw [Engine.startEntry, if_pos hentering]
      rw [htyped] at hstep
      rw [Session.obey, hstep]
      show { s with engine := s.engine.startEntry } = s
      rw [hstart]
  | some e =>
      rw [htyped] at hstep
      rw [Session.obey_engine, hstep]
      rfl

/--
On words, in every base and width:
of the entries that digit, sign and backspace keys make, one accepts a digit
exactly if the number that the digit makes of its own is a word, and then holds
that number; every number typed on the calculator is such an entry, and a digit
that it refuses changes nothing, on the screen either; and the text of every
word, typed on a cleared calculator without groups, is read as the word by the
equals key, which shows the same text.
-/
theorem typed_words
    (F : RealFunctions) :
    (∀ (b : Base) (w : WordSize) (e : Entry), e.TypedBy (.ofWords b w) →
      e.value b.radix =
          .ofInt (if e.negative then -e.magnitude b.radix else e.magnitude b.radix) ∧
        ∀ d < b.radix,
          ((e.typeDigit? (.ofWords b w) d).isSome = true ↔
            e.magnitude b.radix * b.radix + d ≤ 2 ^ w.bits - 1) ∧
          ∀ e' ∈ e.typeDigit? (.ofWords b w) d,
            e'.magnitude b.radix = e.magnitude b.radix * b.radix + d) ∧
    (∀ s : Session, Engine.Reachable F s.engine → s.engine.failed = false →
      s.engine.config.onWords = true →
      s.engine.startEntry.entry.TypedBy (.ofWords s.engine.base s.engine.wordSize) ∧
        ∀ d < s.engine.base.radix,
          match s.engine.startEntry.entry.typeDigit?
              (.ofWords s.engine.base s.engine.wordSize) d with
          | none => s.obey F (.digit d) = s
          | some e => (s.obey F (.digit d)).engine = { s.engine.startEntry with entry := e }) ∧
    (∀ h : Host, Engine.Cleared F h.session.engine → h.session.engine.config.onWords = true →
      h.session.engine.config.grouping = false → ∀ n < 2 ^ h.session.engine.wordSize.bits,
        ∀ typed : Session,
          (h.typeFrame F ((Ratio.ofNat n).truncatedText h.session.engine.base.radix)
            [.enter]).session = typed →
          typed.engine.current = .ofNat n ∧
            typed.screen.primary =
              String.ofList ((Ratio.ofNat n).truncatedText h.session.engine.base.radix) ∧
            typed.screen.isError = false) := by
  refine ⟨fun b w e he => ?_, fun s hs hfailed hwords => ?_,
    fun h hcleared hwords hgrouping n hn typed htyped =>
      Host.typeFrame_word hcleared hwords hgrouping hn htyped⟩
  · have hbounded := he.bounded
    refine ⟨hbounded.value_eq, fun d hd => ?_⟩
    rw [hbounded.typeDigit?_eq hd]
    refine ⟨by simp, fun e' he' => ?_⟩
    obtain ⟨-, heq⟩ := Option.ite_none_right_eq_some.mp he'
    rw [← Option.some.inj heq]
    exact (hbounded.extended_digits hd).2
  · exact ⟨hs.typedBy hwords, fun d hd => Session.obey_digit hfailed hwords hd⟩

/-- What a host that works on words starts with. -/
def wordHost : Host := { session := .new { onWords := true } }

theorem cleared_wordHost :
    Engine.Cleared F wordHost.session.engine := by
  have hengine : wordHost.session.engine = Engine.new { onWords := true } {} :=
    Session.observeAll_engine _ _
  rw [hengine]
  exact .new _ _

/-- The digits `25` of a byte. -/
theorem typedBy_twentyFive :
    ({ digits := ['2', '5'] } : Entry).TypedBy (.ofWords .decimal .byte) := by
  have htwo := (Entry.Bounded.empty .decimal .byte).typeDigit?_eq (d := 2) (by decide)
  rw [if_pos (by decide)] at htwo
  have hbounded := (Entry.TypedBy.digit .empty htwo).bounded
  have hfive := hbounded.typeDigit?_eq (d := 5) (by decide)
  rw [if_pos (by decide)] at hfive
  exact .digit (.digit .empty htwo) hfive

/--
To the digits `25` of a byte a five may be added but no six; and the largest
word of 64 bits may be typed and is shown again.
-/
theorem largest_words_typed :
    ({ digits := ['2', '5'] } : Entry).TypedBy (.ofWords .decimal .byte) ∧
      (({ digits := ['2', '5'] } : Entry).typeDigit? (.ofWords .decimal .byte) 5).isSome = true ∧
      ¬(({ digits := ['2', '5'] } : Entry).typeDigit? (.ofWords .decimal .byte) 6).isSome = true ∧
      Engine.Reachable .native wordHost.session.engine ∧
      wordHost.session.engine.failed = false ∧ wordHost.session.engine.config.onWords = true ∧
      wordHost.session.engine.startEntry.entry.TypedBy (.ofWords .decimal .qword) ∧
      Engine.Cleared .native wordHost.session.engine ∧
      wordHost.session.engine.config.grouping = false ∧
      2 ^ 64 - 1 < 2 ^ wordHost.session.engine.wordSize.bits ∧
      (wordHost.typeFrame .native ((Ratio.ofNat (2 ^ 64 - 1)).truncatedText 10)
        [.enter]).session.engine.current = .ofNat (2 ^ 64 - 1) := by
  have hcleared := cleared_wordHost (F := .native)
  have hreachable := hcleared.reachable
  have hbits : 2 ^ 64 - 1 < 2 ^ wordHost.session.engine.wordSize.bits := by decide
  obtain ⟨hdigits, hsessions, htexts⟩ := typed_words .native
  have hbyte := (hdigits .decimal .byte _ typedBy_twentyFive).2
  refine ⟨typedBy_twentyFive, ?_, ?_, hreachable, rfl, rfl,
    (hsessions wordHost.session hreachable rfl rfl).1, hcleared, rfl, hbits,
    (htexts wordHost hcleared rfl rfl (2 ^ 64 - 1) hbits _ rfl).1⟩
  · rw [(hbyte 5 (by decide)).1]
    decide
  · rw [(hbyte 6 (by decide)).1]
    decide

end DeskCalculator
