import DeskCalculator.CalcError

/-!
# Chains of pending operations

While `v₀ op₀ v₁ op₁ …` is being typed, operands and operators wait in a chain;
the value at hand is the right operand of the last operator.

**Folding.**  A new operator folds the chain with its own precedence as the
threshold; an operator is eligible if its precedence is not below the threshold
or is zero.  Without a threshold every operator is eligible.  As long as there
is an eligible operator, the leftmost of those with the highest precedence is
applied to its two neighbours, and the result takes their place.

The value type and the operation are parameters.  The operation may fail; then
the chain is lost.
-/

namespace DeskCalculator

/-- Operands with the operators to their right, from left to right. -/
abbrev Chain (α : Type) := List (α × Operator)

/-- One application of an operator to two values. -/
structure Application (α : Type) where
  op : Operator
  left : α
  right : α
deriving Repr

/-- The outcome of a fold: what was applied in which order, and the value with what still waits. -/
structure Folded (α : Type) where
  applied : List (Application α)
  result : Except CalcError (α × Chain α)

namespace Chain

variable {α : Type}

/-- Number of operations that may wait in a chain, and of groups that may be open. -/
def capacity : Nat := 25

/-- The last operator waiting. -/
def lastOperator? (c : Chain α) : Option Operator := c.getLast?.map (·.2)

/-- The left operand of the last operator waiting. -/
def lastOperand? (c : Chain α) : Option α := c.getLast?.map (·.1)

/-- Adds an operand and its operator at the right end. -/
def push (c : Chain α) (v : α) (op : Operator) : Except CalcError (Chain α) :=
  if capacity ≤ c.length then .error .overflow else .ok (c ++ [(v, op)])

/-- Changes every operand. -/
def mapOperands (f : α → α) (c : Chain α) : Chain α := c.map fun (v, op) => (f v, op)

/-- Whether an operator is to be applied before an operator of precedence `threshold`. -/
def isEligible (threshold : Option Nat) (op : Operator) : Bool :=
  match threshold with
  | none => true
  | some s => op.precedence = 0 || s ≤ op.precedence

/-- The highest precedence of an eligible operator. -/
def topPrecedence? (threshold : Option Nat) (c : Chain α) : Option Nat :=
  ((c.map (·.2)).filter (isEligible threshold)).map (·.precedence) |>.max?

/-- A chain cut at one of its terms. -/
structure Cut (α : Type) where
  before : Chain α
  left : α
  op : Operator
  after : Chain α

/-- Cuts a chain at the leftmost eligible operator of the highest precedence. -/
def cut? (threshold : Option Nat) (c : Chain α) : Option (Cut α) :=
  (topPrecedence? threshold c).bind fun top =>
    let skipped : α × Operator → Bool := fun (_, op) =>
      !(isEligible threshold op && op.precedence = top)
    match c.dropWhile skipped with
    | [] => none
    | (left, op) :: after => some ⟨c.takeWhile skipped, left, op, after⟩

namespace Cut

/-- The right neighbour of the operator at the cut; `last` stands right of the chain. -/
def right (k : Cut α) (last : α) : α :=
  match k.after with
  | [] => last
  | (v, _) :: _ => v

/-- The chain and the value right of it when `v` replaces the operator and its neighbours. -/
def contract (k : Cut α) (last v : α) : Chain α × α :=
  match k.after with
  | [] => (k.before, v)
  | (_, op) :: after => (k.before ++ (v, op) :: after, last)

end Cut

/-- Applies eligible operators as long as there are any, `steps` of them at most. -/
def foldSteps (apply : Operator → α → α → Except CalcError α) (threshold : Option Nat) :
    Nat → Chain α → α → Folded α
  | 0, c, last => ⟨[], .ok (last, c)⟩
  | steps + 1, c, last =>
      match cut? threshold c with
      | none => ⟨[], .ok (last, c)⟩
      | some k =>
          let step : Application α := ⟨k.op, k.left, k.right last⟩
          match apply k.op k.left (k.right last) with
          | .error e => ⟨[step], .error e⟩
          | .ok v =>
              let (c', last') := k.contract last v
              let rest := foldSteps apply threshold steps c' last'
              ⟨step :: rest.applied, rest.result⟩

/-- Folds a chain with `last` as the right operand of its last operator. -/
def fold (apply : Operator → α → α → Except CalcError α) (threshold : Option Nat)
    (c : Chain α) (last : α) : Folded α :=
  foldSteps apply threshold c.length c last

end Chain
end DeskCalculator
