import DeskCalculator.Proofs.Entry.Reading

/-!
# An entry in registers

An entry may be kept in seven registers that are written one after the other: a
place for the point even if there is none, digits and a sign for the exponent
even if it is closed.  Keys answer whether they are accepted.  A digit or a sign
is first written and then, if the number does not fit in a word, put back.

Every key does with the registers what it does with the entry, so that a refused
key leaves all of them as they were, and what is unused stays at rest.

**Results.**
* `operated_tidy`: where the point, the exponent and zeros in front may stand.
* `EntryRegisters.press_registers`: keys on an entry and on its registers agree.
* `EntryRegisters.press_refused`: a refused key changes no register.
* `EntryRegisters.operated_coherent`: the registers after any operations.
-/

namespace DeskCalculator

/-- What can be done with an entry: a key is struck, or typing starts again from nothing. -/
inductive EntryOperation where
  | key (k : Keystroke)
  | reset
deriving Repr

/-- A digit key is one of the radix. -/
def EntryOperation.InRadix (radix : Nat) : EntryOperation → Prop
  | .key k => k.InRadix radix
  | .reset => True

namespace Entry

variable {e e' : Entry} {k : Keystroke}

/-- The entry after an operation. -/
def operate (e : Entry) : EntryOperation → Entry
  | .key k => e.strike k
  | .reset => {}

/-- The entry that operations make of an empty one. -/
def operated (ops : List EntryOperation) : Entry := ops.foldl operate {}

/-- Only the keys since typing last started count. -/
theorem exists_typed_eq_operated
    (ops : List EntryOperation) :
    ∃ keys, (∀ k ∈ keys, .key k ∈ ops) ∧ operated ops = typed keys := by
  induction ops using List.reverseRecOn with
  | nil => exact ⟨[], by simp, rfl⟩
  | append_singleton ops op ih =>
      rw [operated, List.foldl_append]
      cases op with
      | reset => exact ⟨[], by simp, rfl⟩
      | key k =>
          obtain ⟨keys, hkeys, heq⟩ := ih
          refine ⟨keys ++ [k], ?_, ?_⟩
          · intro k' hk'
            rcases List.mem_append.mp hk' with hold | hnew
            · exact List.mem_append_left _ (hkeys k' hold)
            · rw [List.mem_singleton.mp hnew]
              simp
          · rw [typed, List.foldl_append]
            exact congrArg (fun e => strike e k) heq

/-! ### Where the parts of an entry may stand -/

/--
The point stands behind a digit and not beyond the digits, an exponent follows a
mantissa, and the mantissa begins with a zero only if there is nothing else or
the point follows.
-/
structure Tidy (e : Entry) : Prop where
  point_bounds : ∀ index ∈ e.point, 1 ≤ index ∧ index ≤ e.digits.length
  exponent_digits : ∀ x ∈ e.exponent, e.digits ≠ []
  leading_zero : e.digits.head? = some '0' → e.digits = ['0'] ∨ e.point = some 1

theorem tidy_empty : Tidy {} where
  point_bounds := by simp
  exponent_digits := by simp
  leading_zero := by simp

/-- A zero put before nothing is the only digit. -/
theorem Tidy.digitsOrZero
    (h : Tidy e) (hzero : e.digitsOrZero.head? = some '0') :
    e.digitsOrZero = ['0'] ∨ e.point = some 1 := by
  unfold Entry.digitsOrZero at hzero ⊢
  split
  · exact Or.inl rfl
  · rename_i hne
    rw [if_neg hne] at hzero
    exact h.leading_zero hzero

/-- A zero in front that is not replaced has the point behind it. -/
theorem Tidy.leading_zero_concat
    (h : Tidy e) (c : Char)
    (hzero : ((if e.isLoneZero then [] else e.digits) ++ [c]).head? = some '0') :
    (if e.isLoneZero then [] else e.digits) ++ [c] = ['0'] ∨ e.point = some 1 := by
  cases hlone : e.isLoneZero with
  | true =>
      simp only [hlone, if_true, List.nil_append, List.head?_cons, Option.some.injEq] at hzero ⊢
      exact Or.inl (by rw [hzero])
  | false =>
      simp only [hlone, Bool.false_eq_true, if_false] at hzero ⊢
      cases hdigits : e.digits with
      | nil =>
          rw [hdigits] at hzero
          exact Or.inl (congrArg (fun d => [d]) (Option.some.inj hzero))
      | cons d rest =>
          rw [hdigits, List.cons_append, List.head?_cons] at hzero
          have hfirst : e.digits.head? = some '0' := by rw [hdigits, List.head?_cons, hzero]
          rcases h.leading_zero hfirst with hsingle | hpoint
          · -- a single zero that is not replaced has a point, and the point follows it
            simp only [isLoneZero, hsingle, decide_true, Bool.true_and,
              Option.isNone_eq_false_iff] at hlone
            obtain ⟨index, hindex⟩ := Option.isSome_iff_exists.mp hlone
            have hbounds := h.point_bounds index hindex
            rw [hsingle, List.length_singleton] at hbounds
            exact Or.inr (by rw [hindex, le_antisymm hbounds.2 hbounds.1])
          · exact Or.inr hpoint

/-- Accepted keys keep an entry tidy. -/
theorem Tidy.accepted
    (h : Tidy e) (haccepted : Accepted e k e') :
    Tidy e' := by
  have hle := haccepted.point_le fun index hindex => (h.point_bounds index hindex).2
  cases haccepted with
  | mantissaDigit _ hx =>
      exact ⟨fun index hindex => ⟨(h.point_bounds index hindex).1, hle index hindex⟩,
        by simp [hx], h.leading_zero_concat _⟩
  | exponentDigit _ hx => exact ⟨h.point_bounds, fun _ _ => h.exponent_digits _ hx, h.leading_zero⟩
  | point hx hpoint =>
      refine ⟨?_, by simp [hx], fun hzero => ?_⟩
      · rintro index ⟨⟩
        exact ⟨List.length_pos_iff.mpr e.digitsOrZero_ne_nil, le_rfl⟩
      · rcases h.digitsOrZero hzero with hsingle | hone
        · exact Or.inl hsingle
        · rw [hpoint] at hone
          cases hone
  | exponent =>
      exact ⟨fun index hindex => ⟨(h.point_bounds index hindex).1, hle index hindex⟩,
        fun _ _ => e.digitsOrZero_ne_nil, h.digitsOrZero⟩
  | sign => exact ⟨h.point_bounds, h.exponent_digits, h.leading_zero⟩
  | exponentSign hx => exact ⟨h.point_bounds, fun _ _ => h.exponent_digits _ hx, h.leading_zero⟩
  | dropDigit hx =>
      refine ⟨fun index hindex => ⟨(h.point_bounds index hindex).1, hle index hindex⟩,
        by simp [hx], fun hzero => ?_⟩
      -- the first digit is still there, so that it was not the only one
      have hfirst : e.digits.head? = some '0' := by
        rw [List.head?_dropLast] at hzero
        split at hzero
        · exact hzero
        · cases hzero
      rcases h.leading_zero hfirst with hsingle | hpoint
      · simp [hsingle] at hzero
      · exact Or.inr hpoint
  | dropPoint hx hpoint =>
      refine ⟨by simp, by simp [hx], fun hzero => Or.inl ?_⟩
      rcases h.leading_zero hzero with hsingle | hone
      · exact hsingle
      · rw [hpoint] at hone
        obtain ⟨d, hd⟩ := List.length_eq_one_iff.mp (Option.some.inj hone)
        rw [hd] at hzero ⊢
        exact congrArg (fun c => [c]) (Option.some.inj hzero)
  | dropExponentDigit hx =>
      exact ⟨h.point_bounds, fun _ _ => h.exponent_digits _ hx, h.leading_zero⟩
  | closeExponent => exact ⟨h.point_bounds, by simp, h.leading_zero⟩

/-- Whatever is done with it, an entry is tidy. -/
theorem operated_tidy
    (ops : List EntryOperation) :
    Tidy (operated ops) := by
  obtain ⟨keys, -, heq⟩ := exists_typed_eq_operated ops
  rw [heq]
  exact typed_invariant tidy_empty fun _ he _ _ _ haccepted => he.accepted haccepted

/-- An entry holds nothing but digits of its radix, however often typing starts again. -/
theorem operated_digital
    {radix : Nat} (hpos : 0 < radix) {ops : List EntryOperation}
    (hops : ∀ op ∈ ops, op.InRadix radix) :
    Digital radix (operated ops) := by
  obtain ⟨keys, hkeys, heq⟩ := exists_typed_eq_operated ops
  rw [heq]
  exact typed_digital hpos fun k hk => hops _ (hkeys k hk)

end Entry

/-! ### Registers -/

/-- The parts of an entry, each in its own place whether it is used or not. -/
structure EntryRegisters where
  digits : List Char := []
  hasPoint : Bool := false
  /-- Number of digits before the point. -/
  pointIndex : Nat := 0
  negative : Bool := false
  exponentOpen : Bool := false
  exponentDigits : List Char := []
  exponentNegative : Bool := false
deriving DecidableEq, Repr

/-- The registers of an entry; those that are not used are empty. -/
def Entry.registers (e : Entry) : EntryRegisters where
  digits := e.digits
  hasPoint := e.point.isSome
  pointIndex := e.point.getD 0
  negative := e.negative
  exponentOpen := e.exponent.isSome
  exponentDigits := (e.exponent.map (·.digits)).getD []
  exponentNegative := (e.exponent.map (·.negative)).getD false

namespace EntryRegisters

/-- A digit for the exponent. -/
def typeExponentDigit (r : EntryRegisters) (c : Char) : Bool × EntryRegisters :=
  if Entry.maxExponentDigits ≤ r.exponentDigits.length then (false, r)
  else
    let kept := if r.exponentDigits = ['0'] then [] else r.exponentDigits
    (true, { r with exponentDigits := kept ++ [c] })

/-- A digit for the mantissa, put back if the number does not fit in a word. -/
def typeMantissaDigit (r : EntryRegisters) (rules : EntryRules) (c : Char) :
    Bool × EntryRegisters :=
  let replaces := r.digits = ['0'] && !r.hasPoint
  if !replaces && Entry.digitLimit rules ≤ r.digits.length then (false, r)
  else
    let before := r.digits
    let r := if replaces then { r with digits := [] } else r
    let r := { r with digits := r.digits ++ [c] }
    if rules.onWords && !Entry.fitsWord rules r.digits then (false, { r with digits := before })
    else (true, r)

/-- The digit key. -/
def typeDigit (r : EntryRegisters) (rules : EntryRules) (d : Nat) : Bool × EntryRegisters :=
  if rules.radix ≤ d then (false, r)
  else if r.exponentOpen then r.typeExponentDigit (digitChar d)
  else r.typeMantissaDigit rules (digitChar d)

/-- Writes a zero if there are no digits. -/
def writeZero (r : EntryRegisters) : EntryRegisters :=
  if r.digits = [] then { r with digits := ['0'] } else r

/-- The point key. -/
def typePoint (r : EntryRegisters) : Bool × EntryRegisters :=
  if r.exponentOpen || r.hasPoint then (false, r)
  else
    let r := r.writeZero
    (true, { r with hasPoint := true, pointIndex := r.digits.length })

/-- The key that opens the exponent. -/
def openExponent (r : EntryRegisters) : Bool × EntryRegisters :=
  if r.exponentOpen then (false, r) else (true, { r.writeZero with exponentOpen := true })

/-- The sign key; a sign of the mantissa is put back if the number does not fit in a word. -/
def toggleSign (r : EntryRegisters) (rules : EntryRules) : Bool × EntryRegisters :=
  if r.exponentOpen then (true, { r with exponentNegative := !r.exponentNegative })
  else
    let r := { r with negative := !r.negative }
    if rules.onWords && !Entry.fitsWord rules r.digits then
      (false, { r with negative := !r.negative })
    else (true, r)

/-- The key that takes back the last one. -/
def backspace (r : EntryRegisters) : Bool × EntryRegisters :=
  if r.exponentOpen then
    if r.exponentDigits = [] then
      (true, { r with exponentOpen := false, exponentNegative := false })
    else (true, { r with exponentDigits := r.exponentDigits.dropLast })
  else if r.hasPoint && r.pointIndex = r.digits.length then
    (true, { r with hasPoint := false, pointIndex := 0 })
  else if r.digits = [] then (false, r)
  else
    let r := { r with digits := r.digits.dropLast }
    (true, if r.digits = [] then { r with negative := false } else r)

/-- The answer to a key, and the registers after it. -/
def press (r : EntryRegisters) : Keystroke → Bool × EntryRegisters
  | .digit rules d => r.typeDigit rules d
  | .point => r.typePoint
  | .exponent => r.openExponent
  | .sign rules => r.toggleSign rules
  | .backspace => r.backspace

/-- The registers after an operation. -/
def operate (r : EntryRegisters) : EntryOperation → EntryRegisters
  | .key k => (r.press k).2
  | .reset => {}

/-- The registers that operations make of empty ones. -/
def operated (ops : List EntryOperation) : EntryRegisters := ops.foldl operate {}

/-! ### Keys on registers and on entries -/

variable {r : EntryRegisters}

/-- The digits that are put back are those from before. -/
theorem typeMantissaDigit_eq
    (r : EntryRegisters) (rules : EntryRules) (c : Char) :
    r.typeMantissaDigit rules c =
      let replaces := r.digits = ['0'] && !r.hasPoint
      let digits := (if replaces then [] else r.digits) ++ [c]
      if !replaces && Entry.digitLimit rules ≤ r.digits.length then (false, r)
      else if rules.onWords && !Entry.fitsWord rules digits then (false, r)
      else (true, { r with digits }) := by
  unfold typeMantissaDigit
  cases decide (r.digits = ['0']) && !r.hasPoint <;> rfl

/-- The sign that is put back is the one from before. -/
theorem toggleSign_eq
    (r : EntryRegisters) (rules : EntryRules) :
    r.toggleSign rules =
      if r.exponentOpen then (true, { r with exponentNegative := !r.exponentNegative })
      else if rules.onWords && !Entry.fitsWord rules r.digits then (false, r)
      else (true, { r with negative := !r.negative }) := by
  simp only [toggleSign, Bool.not_not]

/-- A key that is refused changes no register. -/
theorem press_refused
    {k : Keystroke} (h : (r.press k).1 = false) :
    (r.press k).2 = r := by
  cases k with
  | digit rules d =>
      simp only [press, typeDigit, typeExponentDigit, typeMantissaDigit_eq] at h ⊢
      grind
  | point =>
      simp only [press, typePoint] at h ⊢
      grind
  | exponent =>
      simp only [press, openExponent] at h ⊢
      grind
  | sign rules =>
      simp only [press, toggleSign_eq] at h ⊢
      grind
  | backspace =>
      simp only [press, backspace] at h ⊢
      grind

/-- The answer for a key that makes `edited` of an entry, and the registers after it. -/
def answer (e : Entry) (edited : Option Entry) : Bool × EntryRegisters :=
  (edited.isSome, (edited.getD e).registers)

theorem typeDigit_registers
    (e : Entry) (rules : EntryRules) (d : Nat) :
    e.registers.typeDigit rules d = answer e (e.typeDigit? rules d) := by
  simp only [typeDigit, Entry.typeDigit?]
  split
  · rfl
  · cases hx : e.exponent with
    | some x =>
        simp only [Entry.registers, hx, Option.isSome_some, if_true, typeExponentDigit,
          Entry.typeExponentDigit?, Option.map_some, Option.getD_some]
        split <;> simp [answer, Entry.registers, hx]
    | none =>
        simp only [typeMantissaDigit_eq, Entry.typeMantissaDigit?, Entry.registers, hx]
        grind [answer, Entry.registers, Entry.isLoneZero]

theorem writeZero_registers
    (e : Entry) :
    e.registers.writeZero = { e.registers with digits := e.digitsOrZero } := by
  unfold writeZero Entry.digitsOrZero
  grind [Entry.registers]

theorem typePoint_registers
    (e : Entry) :
    e.registers.typePoint = answer e e.typePoint? := by
  simp only [typePoint, Entry.typePoint?, writeZero_registers]
  grind [answer, Entry.registers]

theorem openExponent_registers
    (e : Entry) :
    e.registers.openExponent = answer e e.openExponent? := by
  simp only [openExponent, Entry.openExponent?, writeZero_registers]
  cases hx : e.exponent <;> simp [answer, Entry.registers, hx]

theorem toggleSign_registers
    (e : Entry) (rules : EntryRules) :
    e.registers.toggleSign rules = answer e (e.toggleSign? rules) := by
  simp only [toggleSign_eq, Entry.toggleSign?]
  grind [answer, Entry.registers]

theorem backspace_registers
    (e : Entry) :
    e.registers.backspace = answer e e.backspace? := by
  unfold backspace Entry.backspace?
  cases hx : e.exponent with
  | some x =>
      by_cases hnil : x.digits = [] <;> simp [answer, Entry.registers, hx, hnil]
  | none =>
      have hpoint : (e.registers.hasPoint && e.registers.pointIndex = e.registers.digits.length) =
          decide (e.point = some e.digits.length) := by
        cases hp : e.point <;> simp [Entry.registers, hp]
      rw [hpoint]
      by_cases hdrop : e.point = some e.digits.length
      · simp [answer, Entry.registers, hx, hdrop]
      · rw [if_neg (by simp [Entry.registers, hx]), if_neg (by simpa using hdrop), if_neg hdrop]
        by_cases hnil : e.digits = []
        · rw [if_pos hnil, if_pos (show e.registers.digits = [] from hnil)]
          rfl
        · rw [if_neg hnil, if_neg (show e.registers.digits ≠ [] from hnil)]
          by_cases hlast : e.digits.dropLast = [] <;> simp [answer, Entry.registers, hx, hlast]

/-- A key is accepted on registers if it is on the entry, and then does the same. -/
theorem press_registers
    (e : Entry) (k : Keystroke) :
    e.registers.press k = answer e (e.strike? k) := by
  cases k with
  | digit rules d => exact typeDigit_registers e rules d
  | point => exact typePoint_registers e
  | exponent => exact openExponent_registers e
  | sign rules => exact toggleSign_registers e rules
  | backspace => exact backspace_registers e

/-- Operations on registers keep those of the entry. -/
theorem operated_eq
    (ops : List EntryOperation) :
    operated ops = (Entry.operated ops).registers := by
  induction ops using List.reverseRecOn with
  | nil => rfl
  | append_singleton ops op ih =>
      rw [operated, Entry.operated, List.foldl_append, List.foldl_append, ← operated,
        ← Entry.operated, ih]
      cases op with
      | reset => rfl
      | key k => exact congrArg Prod.snd (press_registers _ k)

/-! ### Registers that fit together -/

/--
The point is behind a digit and not beyond the digits, registers that are not
used are at rest, an exponent follows a mantissa and is short, and the mantissa
is made of digits of the radix, with a zero in front only if there is nothing
else or the point follows.
-/
structure Coherent (radix : Nat) (r : EntryRegisters) : Prop where
  point_bounds : r.hasPoint = true → 1 ≤ r.pointIndex ∧ r.pointIndex ≤ r.digits.length
  no_point : r.hasPoint = false → r.pointIndex = 0
  exponent_closed : r.exponentOpen = false → r.exponentDigits = [] ∧ r.exponentNegative = false
  exponent_open : r.exponentOpen = true → r.digits ≠ []
  exponent_length : r.exponentDigits.length ≤ Entry.maxExponentDigits
  digits : DigitsOf radix r.digits
  leading_zero : r.digits.head? = some '0' →
    r.digits = ['0'] ∨ r.hasPoint = true ∧ r.pointIndex = 1

/-- The registers of a tidy entry of digits fit together. -/
theorem coherent_registers
    {radix : Nat} {e : Entry} (htidy : e.Tidy) (hdigital : e.Digital radix) :
    Coherent radix e.registers where
  point_bounds hpoint := by
    obtain ⟨index, hindex⟩ := Option.isSome_iff_exists.mp hpoint
    simpa [Entry.registers, hindex] using htidy.point_bounds index hindex
  no_point hpoint := by
    have hnone : e.point = none :=
      Option.isNone_iff_eq_none.mp (Option.isSome_eq_false_iff.mp hpoint)
    simp [Entry.registers, hnone]
  exponent_closed hclosed := by
    have hnone : e.exponent = none :=
      Option.isNone_iff_eq_none.mp (Option.isSome_eq_false_iff.mp hclosed)
    simp [Entry.registers, hnone]
  exponent_open hopen := by
    obtain ⟨x, hx⟩ := Option.isSome_iff_exists.mp hopen
    exact htidy.exponent_digits x hx
  exponent_length := by
    cases hx : e.exponent with
    | none => simp [Entry.registers, hx]
    | some x => simpa [Entry.registers, hx] using (hdigital.exponent x hx).2
  digits := hdigital.digits
  leading_zero hzero := by
    rcases htidy.leading_zero hzero with hsingle | hone
    · exact Or.inl hsingle
    · exact Or.inr (by simp [Entry.registers, hone])

/--
Whatever operations with digit keys of one radix are done, the registers fit
together, they are those of the entry that the same operations make, and a key
is accepted by both or by neither.  On any registers, a key that is refused
leaves every register as it was.
-/
theorem operated_coherent
    {radix : Nat} (hpos : 0 < radix) {ops : List EntryOperation}
    (hops : ∀ op ∈ ops, op.InRadix radix) :
    Coherent radix (operated ops) ∧ operated ops = (Entry.operated ops).registers ∧
      (∀ k, ((operated ops).press k).1 = ((Entry.operated ops).strike? k).isSome) ∧
      ∀ (r : EntryRegisters) (k : Keystroke), (r.press k).1 = false → (r.press k).2 = r := by
  have heq := operated_eq ops
  refine ⟨?_, heq, fun k => ?_, fun r k h => press_refused h⟩
  · rw [heq]
    exact coherent_registers (Entry.operated_tidy ops) (Entry.operated_digital hpos hops)
  · rw [heq, press_registers]
    rfl

/-- A number typed before the last reset, and behind it `-0.Be-2` in radix sixteen. -/
def sampleOperations : List EntryOperation :=
  [.key (.digit (Entry.plainRules 16) 7), .reset, .key (.digit (Entry.plainRules 16) 0),
    .key .point, .key (.digit (Entry.plainRules 16) 11), .key (.sign (Entry.plainRules 16)),
    .key .exponent, .key (.sign (Entry.plainRules 16)), .key (.digit (Entry.plainRules 16) 2)]

/-- All registers are in use, and another point is refused. -/
theorem sampleOperations_coherent :
    0 < 16 ∧ (∀ op ∈ sampleOperations, op.InRadix 16) ∧
      operated sampleOperations = ⟨['0', 'B'], true, 1, true, true, ['2'], true⟩ ∧
      Coherent 16 (operated sampleOperations) ∧
      ((operated sampleOperations).press .point).1 = false ∧
      ((operated sampleOperations).press .point).2 = operated sampleOperations := by
  have hops : ∀ op ∈ sampleOperations, op.InRadix 16 := by
    simp [sampleOperations, EntryOperation.InRadix, Keystroke.InRadix, Entry.plainRules]
  obtain ⟨hcoherent, -, -, hrefused⟩ := operated_coherent (by decide) hops
  have hpoint : ((operated sampleOperations).press .point).1 = false := by decide
  exact ⟨by decide, hops, by decide, hcoherent, hpoint, hrefused _ _ hpoint⟩

end EntryRegisters
end DeskCalculator
