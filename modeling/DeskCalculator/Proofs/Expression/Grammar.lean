import DeskCalculator.Proofs.Engine.Reachable
import DeskCalculator.Proofs.Entry.Legible
import DeskCalculator.Proofs.Expression.Folding

/-!
# Typed expressions and what they are worth

An expression is an operand followed by operators with operands, as in
`E ::= T | E op T`, and an operand is a literal or an expression between
parentheses.  A literal is a sequence of keys that an empty entry accepts one
after the other, so that the grammar depends on the rules for typing.

**Keys.**  `Expression.keys` types an expression from left to right.

**Value.**  `Expression.value` evaluates the operands first and then the level
that they form with the operators.  It has no result if an operation fails
anywhere.
-/

namespace DeskCalculator

/-- The command of a key. -/
def EntryKey.command : EntryKey → Command
  | .digit d => .digit d
  | .point => .point
  | .exponent => .exponent

/-- Keys of which an empty entry accepts every one, and the entry they make. -/
structure Literal (rules : EntryRules) where
  keys : List EntryKey
  entry : Entry
  keys_ne_nil : keys ≠ []
  accepted : keys.foldlM (Entry.press? rules) {} = some entry

namespace Literal

/-- What a literal makes is legible. -/
theorem legible
    {rules : EntryRules} (hradix : 0 < rules.radix) (hmax : 0 < rules.maxDigits)
    (l : Literal rules) :
    l.entry.Legible rules := by
  have hpress : ∀ (ks : List EntryKey) (e e' : Entry), e.Legible rules →
      ks.foldlM (Entry.press? rules) e = some e' → e'.Legible rules := by
    intro ks
    induction ks with
    | nil =>
        rintro e e' h ⟨⟩
        exact h
    | cons k ks ih =>
        intro e e' h hks
        rw [List.foldlM_cons] at hks
        obtain ⟨e₁, hk, hks⟩ := Option.bind_eq_some_iff.mp hks
        obtain ⟨haccepted, hunder⟩ := Entry.accepted_of_press? hk
        exact ih e₁ e' (h.accepted hradix hmax haccepted hunder) hks
  exact hpress l.keys {} l.entry Entry.Legible.empty l.accepted

end Literal

mutual

/-- A literal or a group. -/
inductive Operand (rules : EntryRules) : Type
  | literal (l : Literal rules) : Operand rules
  | group (e : Expression rules) : Operand rules

/-- Operands with operators between them. -/
inductive Expression (rules : EntryRules) : Type
  | operand (t : Operand rules) : Expression rules
  | extend (e : Expression rules) (op : Operator) (t : Operand rules) : Expression rules

end

/-- What the value of an expression depends on. -/
structure Meaning (rules : EntryRules) where
  precedence : Bool
  apply : Operator → Ratio → Ratio → Option Ratio
  literal : Literal rules → Ratio

section

variable {rules : EntryRules}

/-! ### Keys -/

mutual

/-- The keys that type an operand. -/
def Operand.keys : Operand rules → List Command
  | .literal l => l.keys.map EntryKey.command
  | .group e => .openParen :: (e.keys ++ [.closeParen])

/-- The keys that type an expression. -/
def Expression.keys : Expression rules → List Command
  | .operand t => t.keys
  | .extend e op t => e.keys ++ .binary op :: t.keys

end

mutual

/-- Number of parentheses that are open at once while an operand is typed. -/
def Operand.depth : Operand rules → Nat
  | .literal _ => 0
  | .group e => e.depth + 1

/-- Number of parentheses that are open at once while an expression is typed. -/
def Expression.depth : Expression rules → Nat
  | .operand t => t.depth
  | .extend e _ t => max e.depth t.depth

end

mutual

/-- No key of an operand clears anything. -/
theorem Operand.keys_not_clearing :
    ∀ t : Operand rules, ∀ c ∈ t.keys, c.isClearing = false
  | .literal l, c, hc => by
      obtain ⟨k, _, rfl⟩ := List.mem_map.mp hc
      cases k <;> rfl
  | .group e, c, hc => by
      have ih := e.keys_not_clearing
      simp only [Operand.keys, List.mem_cons, List.mem_append, List.not_mem_nil,
        or_false] at hc
      rcases hc with rfl | hc | rfl
      · rfl
      · exact ih c hc
      · rfl

/-- No key of an expression clears anything. -/
theorem Expression.keys_not_clearing :
    ∀ e : Expression rules, ∀ c ∈ e.keys, c.isClearing = false
  | .operand t, c, hc => t.keys_not_clearing c hc
  | .extend e op t, c, hc => by
      have ihe := e.keys_not_clearing
      have iht := t.keys_not_clearing
      simp only [Expression.keys, List.mem_append, List.mem_cons] at hc
      rcases hc with hc | rfl | hc
      · exact ihe c hc
      · rfl
      · exact iht c hc

end

/-! ### Value -/

mutual

/-- The value of an operand. -/
def Operand.value (M : Meaning rules) : Operand rules → Option Ratio
  | .literal l => some (M.literal l)
  | .group e => (e.level M).bind (Level.value M.apply M.precedence)

/-- The operators of an expression with the values of its operands. -/
def Expression.level (M : Meaning rules) : Expression rules → Option (Level Ratio)
  | .operand t => (t.value M).map fun v => (v, [])
  | .extend e op t =>
      (e.level M).bind fun l => (t.value M).map fun w => (l.1, l.2 ++ [(op, w)])

end

/-- The value of an expression. -/
def Expression.value (M : Meaning rules) (e : Expression rules) : Option Ratio :=
  (e.level M).bind (Level.value M.apply M.precedence)

end

/-- The meaning of expressions in the modes of an engine. -/
def Engine.meaning (F : RealFunctions) (m : Engine) : Meaning m.entryRules where
  precedence := m.config.precedence
  apply := Chain.successOf (m.mode.binary F)
  literal l := m.mode.adjust (l.entry.value m.base.radix)

end DeskCalculator
