import DeskCalculator.Chain
import Mathlib.Tactic

/-!
# The value of a level

A level is what is typed between two parentheses: an operand, then operators
with their right operands.  This module says what a level is worth, without a
chain of pending operations.

**With precedences.**  A stretch of arithmetic operators is worth what the
school rule says: the powers are applied first, then the products, then the
sums, those of one rank from left to right.  A bit operator ends a stretch: it
is applied to the value of everything before it and to the one operand after
it, and the result begins the next stretch.

**Without precedences.**  All operators are applied from left to right.

Operations may fail; then the level has no value.

**Results.**
* `value_join_step`: an operator that waits for nothing on its right and stands
  after operators that wait for it may be applied first.
-/

namespace DeskCalculator

/-- An operand, followed by operators with their right operands. -/
abbrev Level (α : Type) := α × List (Operator × α)

namespace Level

variable {α : Type}

section Value

variable (apply : Operator → α → α → Option α)

/-- Applies the operators of rank `p` from left to right; the others stay. -/
def pass (p : Operator → Bool) : α → List (Operator × α) → Option (Level α)
  | v, [] => some (v, [])
  | v, (op, w) :: rest =>
      if p op then (apply op v w).bind fun r => pass p r rest
      else (pass p w rest).map fun l => (v, (op, l.1) :: l.2)

/-- One pass for each of the given precedences. -/
def reduce : List Nat → Level α → Option (Level α)
  | [], l => some l
  | p :: ps, l => (pass apply (·.precedence = p) l.1 l.2).bind (reduce ps)

/-- Powers, then products, then sums. -/
def arithmetic (l : Level α) : Option α := (reduce apply [3, 2, 1] l).map (·.1)

/-- The value of a level; `l` has been read since the last bit operator. -/
def valueFrom : Level α → List (Operator × α) → Option α
  | l, [] => arithmetic apply l
  | l, (op, w) :: rest =>
      if op.precedence = 0 then
        (arithmetic apply l).bind fun a =>
          (apply op a w).bind fun r => valueFrom (r, []) rest
      else valueFrom (l.1, l.2 ++ [(op, w)]) rest

/-- The value of a level, with or without precedences. -/
def value (precedence : Bool) (l : Level α) : Option α :=
  if precedence then valueFrom apply (l.1, []) l.2
  else (pass apply (fun _ => true) l.1 l.2).map (·.1)

end Value

/-- Whether an operator waits for an operator on its right to be applied first. -/
def WaitsFor (precedence : Bool) (op later : Operator) : Prop :=
  precedence = true ∧ 0 < op.precedence ∧ op.precedence < later.precedence

instance (precedence : Bool) (op later : Operator) :
    Decidable (WaitsFor precedence op later) :=
  inferInstanceAs (Decidable (_ ∧ _ ∧ _))

/-- The level with the operands and operators of a chain in front. -/
def join : Chain α → Level α → Level α
  | [], l => l
  | t :: c, l => (t.1, (t.2, (join c l).1) :: (join c l).2)

@[simp] theorem join_nil
    (l : Level α) :
    join [] l = l := by
  rfl

@[simp] theorem join_cons
    (t : α × Operator) (c : Chain α) (l : Level α) :
    join (t :: c) l = (t.1, (t.2, (join c l).1) :: (join c l).2) := by
  rfl

theorem join_concat
    (c : Chain α) (v : α) (op : Operator) (l : Level α) :
    join (c ++ [(v, op)]) l = join c (v, (op, l.1) :: l.2) := by
  induction c with
  | nil =>
      rfl
  | cons t c ih =>
      simp [ih]

/-- What follows a level does not depend on the chain in front. -/
theorem join_append
    (c : Chain α) (l : Level α) (more : List (Operator × α)) :
    join c (l.1, l.2 ++ more) = ((join c l).1, (join c l).2 ++ more) := by
  induction c with
  | nil =>
      rfl
  | cons t c ih =>
      simp [ih]

/-- An operator of a level with a chain in front is one of the chain or of the level. -/
theorem mem_join_ops
    {c : Chain α} {l : Level α} {op : Operator}
    (h : op ∈ (join c l).2.map (·.1)) :
    op ∈ c.map (·.2) ∨ op ∈ l.2.map (·.1) := by
  induction c with
  | nil =>
      exact Or.inr h
  | cons t c ih =>
      rcases List.mem_cons.mp h with heq | htail
      · exact Or.inl (by simp [heq])
      · rcases ih htail with hc | hl
        · exact Or.inl (List.mem_cons_of_mem _ hc)
        · exact Or.inr hl

section Steps

variable (apply : Operator → α → α → Option α)

/-- A pass goes through operators of other ranks. -/
theorem pass_join
    {p : Operator → Bool} {c : Chain α}
    (hc : ∀ t ∈ c, p t.2 = false)
    (l : Level α) :
    pass apply p (join c l).1 (join c l).2 =
      (pass apply p l.1 l.2).map (join c) := by
  induction c with
  | nil =>
      show _ = (pass apply p l.1 l.2).map id
      rw [Option.map_id]
      rfl
  | cons t c ih =>
      have ht := hc t (by simp)
      have ih := ih fun s hs => hc s (by simp [hs])
      simp only [join_cons, pass, ht, ih, Bool.false_eq_true, if_false, Option.map_map]
      rfl

/-- So do the passes of which it is the first. -/
theorem reduce_cons_join
    {p : Nat} {c : Chain α}
    (hc : ∀ t ∈ c, t.2.precedence ≠ p)
    (ps : List Nat) (l : Level α) :
    reduce apply (p :: ps) (join c l) =
      (pass apply (·.precedence = p) l.1 l.2).bind
        fun l => reduce apply ps (join c l) := by
  have hfree : ∀ t ∈ c, decide (t.2.precedence = p) = false := by
    intro t ht
    simpa using hc t ht
  rw [reduce, pass_join apply (p := (·.precedence = p)) hfree, Option.bind_map]
  rfl

/--
The passes may begin with an operator whose rank lies above those of the
operators in front and not below that of the operator behind.
-/
theorem reduce_join_step
    {ranks : List Nat} (hranks : ranks.Pairwise (· > ·))
    {c : Chain α} {op : Operator} (hop : op.precedence ∈ ranks)
    (hc : ∀ t ∈ c, t.2.precedence < op.precedence)
    (v x : α) {more : List (Operator × α)}
    (hmore : ∀ t ∈ more.head?, t.1.precedence ≤ op.precedence) :
    reduce apply ranks (join c (v, (op, x) :: more)) =
      (apply op v x).bind fun r => reduce apply ranks (join c (r, more)) := by
  induction ranks generalizing more with
  | nil =>
      simp at hop
  | cons p ps ih =>
      obtain ⟨hp, hps⟩ := List.pairwise_cons.mp hranks
      have hle : op.precedence ≤ p := by
        rcases List.mem_cons.mp hop with heq | hmem
        · exact heq.le
        · exact Nat.le_of_lt (hp _ hmem)
      have hfree : ∀ t ∈ c, t.2.precedence ≠ p := by
        intro t ht
        have := hc t ht
        omega
      simp only [reduce_cons_join apply hfree, pass, decide_eq_true_eq]
      by_cases heq : op.precedence = p
      · -- this pass applies the operator
        rw [if_pos heq, Option.bind_assoc]
      · -- this pass applies neither the operator nor the one behind it
        rw [if_neg heq, Option.bind_map]
        have hmem : op.precedence ∈ ps := (List.mem_cons.mp hop).resolve_left heq
        cases more with
        | nil =>
            exact ih hps hmem (by simp)
        | cons t rest =>
            have hle' := hmore t (by simp)
            have hne : ¬t.1.precedence = p := by omega
            simp only [pass, decide_eq_true_eq, if_neg hne]
            cases pass apply (·.precedence = p) t.2 rest with
            | none =>
                cases apply op v x <;> rfl
            | some l =>
                exact ih hps hmem (by simpa using hle')

theorem arithmetic_join_step
    {c : Chain α} {op : Operator} (hop : 0 < op.precedence)
    (hc : ∀ t ∈ c, t.2.precedence < op.precedence)
    (v x : α) {more : List (Operator × α)}
    (hmore : ∀ t ∈ more.head?, t.1.precedence ≤ op.precedence) :
    arithmetic apply (join c (v, (op, x) :: more)) =
      (apply op v x).bind fun r => arithmetic apply (join c (r, more)) := by
  have hmem : op.precedence ∈ [3, 2, 1] := by
    cases op <;> simp [Operator.precedence] at hop ⊢
  simp only [arithmetic]
  rw [reduce_join_step apply (by decide) hmem hc v x hmore, Option.map_bind]
  rfl

/-- Arithmetic operators only lengthen the stretch. -/
theorem valueFrom_append
    {rest : List (Operator × α)}
    (hrest : ∀ t ∈ rest, 0 < t.1.precedence)
    (l : Level α) (more : List (Operator × α)) :
    valueFrom apply l (rest ++ more) = valueFrom apply (l.1, l.2 ++ rest) more := by
  induction rest generalizing l with
  | nil =>
      simp
  | cons t rest ih =>
      have ht := hrest t (by simp)
      rw [List.cons_append, valueFrom, if_neg (by omega)]
      rw [ih fun s hs => hrest s (by simp [hs])]
      simp

/-- A chain and a stretch of arithmetic operators are read without applying anything. -/
theorem valueFrom_join
    {c : Chain α} (hc : ∀ t ∈ c, 0 < t.2.precedence)
    (l : Level α) (hl : ∀ t ∈ l.2, 0 < t.1.precedence)
    (more : List (Operator × α)) :
    valueFrom apply ((join c (l.1, l.2 ++ more)).1, []) (join c (l.1, l.2 ++ more)).2 =
      valueFrom apply (join c l) more := by
  have hops : ∀ t ∈ (join c l).2, 0 < t.1.precedence := by
    intro t ht
    rcases mem_join_ops (List.mem_map_of_mem ht) with hmem | hmem
    · obtain ⟨s, hs, heq⟩ := List.mem_map.mp hmem
      exact heq ▸ hc s hs
    · obtain ⟨s, hs, heq⟩ := List.mem_map.mp hmem
      exact heq ▸ hl s hs
  rw [join_append, valueFrom_append apply hops]
  rfl

/-- The first step of a stretch, followed by more of the stretch and by further stretches. -/
theorem valueFrom_join_step
    {c : Chain α} {op : Operator} (hop : 0 < op.precedence)
    (hc : ∀ t ∈ c, t.2.precedence < op.precedence)
    (v x : α) (stretch more : List (Operator × α))
    (hmore : ∀ t ∈ (stretch ++ more).head?, t.1.precedence ≤ op.precedence) :
    valueFrom apply (join c (v, (op, x) :: stretch)) more =
      (apply op v x).bind fun r => valueFrom apply (join c (r, stretch)) more := by
  induction more generalizing stretch with
  | nil =>
      exact arithmetic_join_step apply hop hc v x (by simpa using hmore)
  | cons t more ih =>
      simp only [valueFrom]
      split
      · -- a bit operator ends the stretch
        have hhead : ∀ s ∈ stretch.head?, s.1.precedence ≤ op.precedence := by
          cases stretch <;> simp_all
        rw [arithmetic_join_step apply hop hc v x hhead, Option.bind_assoc]
      · have := ih (stretch ++ [t]) (by simpa using hmore)
        have happ := fun r => join_append c (r, stretch) [t]
        have happ' := join_append c (v, (op, x) :: stretch) [t]
        simp only [List.cons_append] at happ' this
        rw [happ'] at this
        simpa only [happ] using this

/--
An operator that waits for nothing on its right, after operators that wait for
it, may be applied first.
-/
theorem value_join_step
    {precedence : Bool} {c : Chain α} {op : Operator}
    (hc : ∀ t ∈ c, WaitsFor precedence t.2 op)
    (v x : α) {more : List (Operator × α)}
    (hmore : ∀ t ∈ more.head?, ¬WaitsFor precedence op t.1) :
    value apply precedence (join c (v, (op, x) :: more)) =
      (apply op v x).bind fun r => value apply precedence (join c (r, more)) := by
  cases precedence with
  | false =>
      -- nothing waits, so nothing is in front
      have hnil : c = [] := by
        cases c with
        | nil => rfl
        | cons t c => simpa [WaitsFor] using hc t (by simp)
      subst hnil
      simp only [value, join_nil, pass, Bool.false_eq_true, if_false, if_true]
      rw [Option.map_bind]
      rfl
  | true =>
      simp only [value, if_true]
      by_cases hop : op.precedence = 0
      · -- a bit operator is waited for by none
        have hnil : c = [] := by
          cases c with
          | nil => rfl
          | cons t c => simpa [WaitsFor, hop] using hc t (by simp)
        subst hnil
        simp [valueFrom, hop, arithmetic, reduce, pass]
      · have hlt : ∀ t ∈ c, t.2.precedence < op.precedence := fun t ht => (hc t ht).2.2
        have hle : ∀ t ∈ more.head?, t.1.precedence ≤ op.precedence := by
          intro t ht
          have := hmore t ht
          simp only [WaitsFor, true_and] at this
          omega
        have hpos : 0 < op.precedence := Nat.pos_of_ne_zero hop
        have hwaiting : ∀ t ∈ c, 0 < t.2.precedence := fun t ht => (hc t ht).2.1
        have hleft := valueFrom_join apply hwaiting (v, [(op, x)]) (by simpa using hpos) more
        have hright := fun r => valueFrom_join apply hwaiting (r, []) (by simp) more
        simp only [List.cons_append, List.nil_append] at hleft hright
        simp only [hleft, hright]
        exact valueFrom_join_step apply hpos hlt v x [] more hle

end Steps

end Level
end DeskCalculator
