import DeskCalculator.Proofs.Chain.Operands
import DeskCalculator.Proofs.Checked.Scientific
import DeskCalculator.Proofs.Engine.Calculation

/-!
# Checked calculations

Operators, functions and the folding of chains with all their arithmetic
checked.  A fold applies its operation to operands of the chain and to results
of the operation; if it holds ratios in lowest terms, it goes on doing so.

**Results.**
* `checkedBinary_eq`, `checkedUnary_eq`: operators and functions in any mode.
* `AllOperands.checkedFold_eq`: a fold, from what is known of one application.
-/

namespace DeskCalculator

open Ratio

namespace CalculationMode

variable {F : RealFunctions} {c : CalculationMode} {a b v : Ratio}

/-- Checked adjustment to the mode. -/
def checkedAdjust (c : CalculationMode) (v : Ratio) : Option Ratio :=
  if c.onWords then v.checkedChop c.bits else some v

/-- Checked result of an operator before it is checked for its size and adjusted. -/
def checkedCombine (F : RealFunctions) (c : CalculationMode) (op : Operator) (a b : Ratio) :
    Option (Except CalcError Ratio) :=
  match op with
  | .add => (a.checkedAdd b).map .ok
  | .sub => (a.checkedSub b).map .ok
  | .mul => (a.checkedMul b).map .ok
  | .div =>
      Checked.andThen (a.checkedDiv b) fun q =>
        if c.onWords then q.checkedTruncate.map .ok else some (.ok q)
  | .mod => a.checkedMod b
  | .pow =>
      if c.onWords then (checkedWords (fun x y => mulPow (· * ·) 1 x y.toNat) a b).map .ok
      else Scientific.checkedPow F a b
  | .root => Scientific.checkedNthRoot F a b
  | .and => (checkedWords (· &&& ·) a b).map .ok
  | .or => (checkedWords (· ||| ·) a b).map .ok
  | .xor => (checkedWords (· ^^^ ·) a b).map .ok
  | .shiftLeft => (checkedWords (fun x n => if 64 ≤ n then 0 else x <<< n) a b).map .ok
  | .shiftRight => (checkedWords (fun x n => if 64 ≤ n then 0 else x >>> n) a b).map .ok

/-- Checked result of an operator. -/
def checkedBinary (F : RealFunctions) (c : CalculationMode) (op : Operator) (a b : Ratio) :
    Option (Except CalcError Ratio) :=
  Checked.andThen (checkedCombine F c op a b) fun r =>
    Checked.andThen (some r.checkSize) fun s => (c.checkedAdjust s).map .ok

/-- Checked result of a function. -/
def checkedUnary (F : RealFunctions) (c : CalculationMode) (f : ScientificFunction) (x : Ratio)
    (inverse : Bool) (u : AngleUnit) : Option (Except CalcError Ratio) :=
  let result :=
    if c.onWords ∧ f = .factorial then
      (checkedWord (fun w => Scientific.mulRangeMod 1 2 (w.toNat - 1)) x).map .ok
    else Scientific.checkedApply F f x inverse u
  Checked.andThen result fun r => (c.checkedAdjust r).map .ok

theorem checkedAdjust_eq
    (c : CalculationMode) (hv : LowestTerms v) :
    c.checkedAdjust v = some (c.adjust v) := by
  unfold checkedAdjust adjust
  split
  · exact checkedChop_eq hv c.bits
  · rfl

theorem checkedCombine_eq
    (F : RealFunctions) (c : CalculationMode) (op : Operator) (ha : LowestTerms a)
    (hb : LowestTerms b) :
    c.checkedCombine F op a b = some (c.combine F op a b) := by
  have hwords : ∀ f, (checkedWords f a b).map Except.ok =
      some (.ok (ofWord (f a.toWordMod b.toWordMod)) : Except CalcError Ratio) := by
    intro f
    rw [checkedWords_eq f ha hb]
    rfl
  cases op with
  | add => exact congrArg (Option.map Except.ok) (checkedAdd_eq ha.wellFormed hb.wellFormed)
  | sub => exact congrArg (Option.map Except.ok) (checkedSub_eq ha.wellFormed hb.wellFormed)
  | mul => exact congrArg (Option.map Except.ok) (checkedMul_eq ha.wellFormed hb.wellFormed)
  | div =>
      simp only [checkedCombine, combine]
      rw [checkedDiv_eq ha.wellFormed hb.wellFormed]
      refine Checked.andThen_eq fun q hq => ?_
      split
      · rw [checkedTruncate_eq (ha.div hb hq)]
        rfl
      · rfl
  | mod => exact checkedMod_eq ha hb
  | pow =>
      simp only [checkedCombine, combine]
      split
      · exact hwords _
      · exact Scientific.checkedPow_eq F ha hb
  | root => exact Scientific.checkedNthRoot_eq F ha hb
  | and | or | xor | shiftLeft | shiftRight => exact hwords _

/-- Every operator keeps within the domains of exact arithmetic. -/
theorem checkedBinary_eq
    (F : RealFunctions) (c : CalculationMode) (op : Operator) (ha : LowestTerms a)
    (hb : LowestTerms b) :
    c.checkedBinary F op a b = some (c.binary F op a b) := by
  rw [checkedBinary, checkedCombine_eq F c op ha hb]
  refine Checked.andThen_eq fun r hr => Checked.andThen_eq fun s hs => ?_
  have hlowest : LowestTerms s := by
    rw [eq_of_checkSize hs]
    exact combine_lowestTerms ha hb hr
  rw [checkedAdjust_eq c hlowest]
  rfl

/-- Every function keeps within the domains of exact arithmetic. -/
theorem checkedUnary_eq
    (F : RealFunctions) (c : CalculationMode) (f : ScientificFunction) (ha : LowestTerms a)
    (inverse : Bool) (u : AngleUnit) :
    c.checkedUnary F f a inverse u = some (c.unary F f a inverse u) := by
  unfold checkedUnary unary
  split
  · rw [checkedWord_eq _ ha]
    refine (congrArg (Option.map Except.ok) (checkedAdjust_eq c (lowestTerms_ofNat _))).trans ?_
    rfl
  · rw [Scientific.checkedApply_eq F f ha]
    refine Checked.andThen_eq fun r hr => ?_
    rw [checkedAdjust_eq c (Scientific.apply_lowestTerms ha hr)]
    rfl

end CalculationMode

/-! ### Chains -/

/-- A checked function of every element of a list. -/
theorem Checked.mapM_eq
    {α β : Type} {f : α → Option β} {g : α → β} {l : List α} (h : ∀ a ∈ l, f a = some (g a)) :
    l.mapM f = some (l.map g) := by
  induction l with
  | nil => rfl
  | cons a l ih =>
      rw [List.mapM_cons, h a List.mem_cons_self, ih fun b hb => h b (List.mem_cons_of_mem a hb)]
      rfl

namespace Chain

variable {α : Type} {P : α → Prop} {c : Chain α}

/-- Changes every operand by a checked function. -/
def checkedMapOperands (f : α → Option α) (c : Chain α) : Option (Chain α) :=
  c.mapM fun (v, op) => (f v).map fun w => (w, op)

theorem AllOperands.checkedMapOperands_eq
    {f : α → Option α} {g : α → α} (hf : ∀ {v}, P v → f v = some (g v)) (hc : AllOperands P c) :
    Chain.checkedMapOperands f c = some (c.mapOperands g) := by
  refine Checked.mapM_eq fun t ht => ?_
  obtain ⟨v, op⟩ := t
  simp only [hf (hc (v, op) ht), Option.map_some]

/-- Folding with a checked operation, `steps` applications at most. -/
def checkedFoldSteps (apply : Operator → α → α → Option (Except CalcError α))
    (threshold : Option Nat) :
    Nat → Chain α → α → Option (Except CalcError (α × Chain α))
  | 0, c, last => some (.ok (last, c))
  | steps + 1, c, last =>
      match cut? threshold c with
      | none => some (.ok (last, c))
      | some k =>
          Checked.andThen (apply k.op k.left (k.right last)) fun v =>
            checkedFoldSteps apply threshold steps (k.contract last v).1 (k.contract last v).2

/-- Folding with a checked operation. -/
def checkedFold (apply : Operator → α → α → Option (Except CalcError α))
    (threshold : Option Nat) (c : Chain α) (last : α) :
    Option (Except CalcError (α × Chain α)) :=
  checkedFoldSteps apply threshold c.length c last

section Fold

variable {apply : Operator → α → α → Except CalcError α}
variable {checked : Operator → α → α → Option (Except CalcError α)}

theorem AllOperands.checkedFoldSteps_eq
    (happly : ∀ {op a b r}, P a → P b → apply op a b = .ok r → P r)
    (hchecked : ∀ op {a b}, P a → P b → checked op a b = some (apply op a b))
    (threshold : Option Nat) {steps : Nat} {last : α} (hc : AllOperands P c) (hlast : P last) :
    Chain.checkedFoldSteps checked threshold steps c last =
      some (Chain.foldSteps apply threshold steps c last).result := by
  induction steps generalizing c last with
  | zero => rfl
  | succ steps ih =>
      unfold Chain.checkedFoldSteps Chain.foldSteps
      cases hcut : cut? threshold c with
      | none => rfl
      | some k =>
          rw [eq_of_cut? hcut] at hc
          obtain ⟨hleft, hright, hcontract⟩ := hc.contract hlast
          dsimp only
          rw [hchecked k.op hleft hright]
          cases hr : apply k.op k.left (k.right last) with
          | error e => rfl
          | ok v =>
              obtain ⟨hrest, hlast'⟩ := hcontract v (happly hleft hright hr)
              exact ih hrest hlast'

/-- If an operation keeps within its domain on operands with a property, so does a fold. -/
theorem AllOperands.checkedFold_eq
    (happly : ∀ {op a b r}, P a → P b → apply op a b = .ok r → P r)
    (hchecked : ∀ op {a b}, P a → P b → checked op a b = some (apply op a b))
    (threshold : Option Nat) {last : α} (hc : AllOperands P c) (hlast : P last) :
    Chain.checkedFold checked threshold c last =
      some (Chain.fold apply threshold c last).result :=
  hc.checkedFoldSteps_eq happly hchecked threshold hlast

end Fold

end Chain
end DeskCalculator
