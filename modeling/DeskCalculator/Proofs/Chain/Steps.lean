import DeskCalculator.Proofs.Chain.Operands
import Mathlib.Data.List.TakeWhile
import Mathlib.Tactic

/-!
# One step of folding after the other

A fold cuts the chain at an eligible operator, applies it and goes on with the
rest, which is shorter by one.  This module says where the cut is and what a
fold does after its first step, whatever the chain.

Among operators of positive precedence a lower threshold only makes more of the
looser operators eligible.  The tighter ones still come first, so that a fold
with the lower threshold begins as one with the higher threshold does, and goes
on where that one stops.

**Results.**
* `cut?_eq_some_iff`: where a chain is cut.
* `IsCut.fold_eq`: the first step of a fold, and what is left to do.
* `operators_of_fold`: the operators that still wait after a fold.
* `fold_mapOperands`: a change of operands that the operation commutes with.
* `Arithmetic.fold_resume`: a fold with a lower threshold resumes one with a
  higher threshold.
-/

namespace DeskCalculator

/-- Goes on after a fold that did not fail. -/
def Folded.resume {α : Type} (r : Folded α) (next : α → Chain α → Folded α) : Folded α :=
  match r.result with
  | .error e => ⟨r.applied, .error e⟩
  | .ok (v, c) => ⟨r.applied ++ (next v c).applied, (next v c).result⟩

namespace Chain

variable {α : Type} {threshold : Option Nat} {c d : Chain α} {v last : α} {op : Operator}

/-- The operators of a chain. -/
def operators (c : Chain α) : List Operator := c.map (·.2)

@[simp] theorem operators_nil :
    operators ([] : Chain α) = [] := by
  rfl

@[simp] theorem operators_cons
    (t : α × Operator) (c : Chain α) :
    operators (t :: c) = t.2 :: operators c := by
  rfl

@[simp] theorem operators_append
    (c d : Chain α) :
    operators (c ++ d) = operators c ++ operators d :=
  List.map_append

@[simp] theorem length_operators
    (c : Chain α) :
    (operators c).length = c.length :=
  List.length_map _

theorem forall_mem_operators
    {P : Operator → Prop} :
    (∀ op ∈ operators c, P op) ↔ ∀ t ∈ c, P t.2 :=
  List.forall_mem_map

@[simp] theorem operators_mapOperands
    (f : α → α) (c : Chain α) :
    operators (c.mapOperands f) = operators c := by
  simp only [operators, mapOperands, List.map_map]
  rfl

/-! ### Cuts -/

/-- The highest precedence is that of an eligible operator, and no other one is higher. -/
theorem topPrecedence?_eq_some_iff
    {top : Nat} :
    topPrecedence? threshold c = some top ↔
      (∃ op ∈ operators c, isEligible threshold op = true ∧ op.precedence = top) ∧
        ∀ op ∈ operators c, isEligible threshold op = true → op.precedence ≤ top := by
  simp only [topPrecedence?, List.max?_eq_some_iff, List.mem_map, List.mem_filter, operators,
    and_assoc, forall_exists_index, and_imp]
  grind

/-- What a cut is: eligible, above all eligible operators before it and not below those after it. -/
structure IsCut (threshold : Option Nat) (c : Chain α) (k : Cut α) : Prop where
  eq : c = k.before ++ (k.left, k.op) :: k.after
  eligible : isEligible threshold k.op = true
  before : ∀ op ∈ operators k.before,
    isEligible threshold op = true → op.precedence < k.op.precedence
  after : ∀ op ∈ operators k.after,
    isEligible threshold op = true → op.precedence ≤ k.op.precedence

namespace IsCut

variable {k : Cut α}

theorem operators_eq
    (h : IsCut threshold c k) :
    operators c = operators k.before ++ k.op :: operators k.after := by
  rw [h.eq, operators_append, operators_cons]

theorem op_mem
    (h : IsCut threshold c k) :
    k.op ∈ operators c := by
  rw [h.operators_eq]
  exact List.mem_append_right _ List.mem_cons_self

theorem mem_of_mem_before
    (h : IsCut threshold c k) {op : Operator} (hop : op ∈ operators k.before) :
    op ∈ operators c := by
  rw [h.operators_eq]
  exact List.mem_append_left _ hop

theorem mem_of_mem_after
    (h : IsCut threshold c k) {op : Operator} (hop : op ∈ operators k.after) :
    op ∈ operators c := by
  rw [h.operators_eq]
  exact List.mem_append_right _ (List.mem_cons_of_mem _ hop)

/-- The operator at the cut has the highest precedence. -/
theorem precedence_le
    (h : IsCut threshold c k) {op : Operator} (hop : op ∈ operators c)
    (heligible : isEligible threshold op = true) :
    op.precedence ≤ k.op.precedence := by
  rw [h.operators_eq] at hop
  rcases List.mem_append.mp hop with hbefore | hrest
  · exact (h.before op hbefore heligible).le
  · rcases List.mem_cons.mp hrest with rfl | hafter
    · exact le_rfl
    · exact h.after op hafter heligible

theorem topPrecedence?_eq
    (h : IsCut threshold c k) :
    topPrecedence? threshold c = some k.op.precedence :=
  topPrecedence?_eq_some_iff.mpr
    ⟨⟨k.op, h.op_mem, h.eligible, rfl⟩, fun _ hop => h.precedence_le hop⟩

/-- A chain is cut there. -/
theorem cut?_eq
    (h : IsCut threshold c k) :
    cut? threshold c = some k := by
  have hskip : ∀ t ∈ k.before, (!(isEligible threshold t.2 &&
      decide (t.2.precedence = k.op.precedence))) = true := by
    intro t ht
    have hlt := forall_mem_operators.mp h.before t ht
    simp only [Bool.not_eq_true', Bool.and_eq_false_imp, decide_eq_false_iff_not]
    intro heligible
    exact (hlt heligible).ne
  have htop := h.topPrecedence?_eq
  obtain ⟨before, left, op, after⟩ := k
  simp only [cut?, htop, Option.bind_some]
  rw [h.eq, List.dropWhile_append_of_pos hskip, List.takeWhile_append_of_pos hskip]
  simp [h.eligible]

end IsCut

/-- Every cut is one, and there is only one. -/
theorem cut?_eq_some_iff
    {k : Cut α} :
    cut? threshold c = some k ↔ IsCut threshold c k := by
  refine ⟨fun h => ?_, IsCut.cut?_eq⟩
  have heq := eq_of_cut? h
  obtain ⟨top, htop, hcut⟩ := Option.bind_eq_some_iff.mp h
  have hle := (topPrecedence?_eq_some_iff.mp htop).2
  dsimp only at hcut
  split at hcut
  · cases hcut
  · rename_i left op after hrest
    cases hcut
    have hhead := List.head?_dropWhile_not (fun t : α × Operator =>
      !(isEligible threshold t.2 && decide (t.2.precedence = top))) c
    simp only [hrest, List.head?_cons, Bool.not_eq_false', Bool.and_eq_true,
      decide_eq_true_eq] at hhead
    obtain ⟨heligible, rfl⟩ := hhead
    refine ⟨heq, heligible, fun op' hop' heligible' => ?_, fun op' hop' heligible' => ?_⟩
    · -- what stands before the cut has been skipped
      obtain ⟨t, ht, rfl⟩ := List.mem_map.mp hop'
      have hskipped := List.mem_takeWhile_imp ht
      simp only [heligible', Bool.true_and, Bool.not_eq_true', decide_eq_false_iff_not] at hskipped
      have hmem := List.mem_map_of_mem (f := (·.2)) ((List.takeWhile_prefix _).subset ht)
      exact lt_of_le_of_ne (hle t.2 hmem heligible') hskipped
    · refine hle op' ?_ heligible'
      rw [heq, operators_append, operators_cons]
      exact List.mem_append_right _ (List.mem_cons_of_mem _ hop')

/-- Without an eligible operator there is no highest precedence. -/
theorem topPrecedence?_eq_none_iff :
    topPrecedence? threshold c = none ↔ ∀ op ∈ operators c, isEligible threshold op = false := by
  rw [topPrecedence?, List.max?_eq_none_iff, List.map_eq_nil_iff, List.filter_eq_nil_iff]
  simp only [Bool.not_eq_true, operators]

/-- Nothing is cut exactly if no operator is eligible. -/
theorem cut?_eq_none_iff :
    cut? threshold c = none ↔ ∀ op ∈ operators c, isEligible threshold op = false := by
  rw [← topPrecedence?_eq_none_iff]
  refine ⟨fun h => ?_, fun h => by rw [cut?, h, Option.bind_none]⟩
  by_contra hsome
  obtain ⟨top, htop⟩ := Option.ne_none_iff_exists'.mp hsome
  obtain ⟨⟨op, hop, heligible, hprecedence⟩, -⟩ := topPrecedence?_eq_some_iff.mp htop
  obtain ⟨t, ht, rfl⟩ := List.mem_map.mp hop
  simp only [cut?, htop, Option.bind_some] at h
  split at h
  · rename_i hrest
    -- everything would have been skipped, the operator of the highest precedence, too
    have hskipped := List.dropWhile_eq_nil_iff.mp hrest t ht
    simp [heligible, hprecedence] at hskipped
  · cases h

/-! ### Steps -/

/-- The result takes the place of one operator. -/
theorem Cut.operators_contract
    (k : Cut α) (last v : α) :
    operators (k.contract last v).1 = operators k.before ++ operators k.after := by
  obtain ⟨before, left, op, after⟩ := k
  cases after with
  | nil =>
      simp [Cut.contract]
  | cons t after =>
      simp [Cut.contract]

theorem IsCut.length_contract
    {k : Cut α} (h : IsCut threshold c k) (last v : α) :
    (k.contract last v).1.length + 1 = c.length := by
  rw [← length_operators, ← length_operators c, k.operators_contract, h.operators_eq]
  simp only [List.length_append, List.length_cons]
  omega

theorem IsCut.mem_operators
    {k : Cut α} (h : IsCut threshold c k) {last v : α} {op : Operator}
    (hop : op ∈ operators (k.contract last v).1) :
    op ∈ operators c := by
  rw [k.operators_contract] at hop
  rw [h.operators_eq]
  exact (List.sublist_cons_self _ _).append_left _ |>.subset hop

/-- A chain is reached from those that one step leaves of it. -/
@[elab_as_elim]
theorem cut_induction
    (threshold : Option Nat) {motive : Chain α → α → Prop}
    (stop : ∀ c last, cut? threshold c = none → motive c last)
    (step : ∀ c last k, IsCut threshold c k →
      (∀ v, motive (k.contract last v).1 (k.contract last v).2) → motive c last)
    (c : Chain α) (last : α) :
    motive c last := by
  induction hlength : c.length generalizing c last with
  | zero =>
      rw [List.eq_nil_of_length_eq_zero hlength]
      exact stop [] last rfl
  | succ n ih =>
      cases hcut : cut? threshold c with
      | none => exact stop c last hcut
      | some k =>
          have hk := cut?_eq_some_iff.mp hcut
          refine step c last k hk fun v => ih _ _ ?_
          exact Nat.succ_injective ((hk.length_contract last v).trans hlength)

variable {apply : Operator → α → α → Except CalcError α}

/-- The application at a cut. -/
def Cut.application (k : Cut α) (last : α) : Application α := ⟨k.op, k.left, k.right last⟩

/-- With nothing eligible a fold does nothing. -/
theorem fold_of_cut?_eq_none
    (h : cut? threshold c = none) (last : α) :
    fold apply threshold c last = ⟨[], .ok (last, c)⟩ := by
  unfold fold
  cases c.length with
  | zero => rfl
  | succ steps => rw [foldSteps, h]

/-- A fold applies the operator at the cut, and goes on with the rest if this does not fail. -/
theorem IsCut.fold_eq
    {k : Cut α} (h : IsCut threshold c k) (last : α) :
    fold apply threshold c last =
      match apply k.op k.left (k.right last) with
      | .error e => ⟨[k.application last], .error e⟩
      | .ok v =>
          let rest := fold apply threshold (k.contract last v).1 (k.contract last v).2
          ⟨k.application last :: rest.applied, rest.result⟩ := by
  obtain ⟨steps, hsteps⟩ : ∃ steps, c.length = steps + 1 := ⟨_, (h.length_contract last last).symm⟩
  have hlength : ∀ v, (k.contract last v).1.length = steps := fun v =>
    Nat.succ_injective ((h.length_contract last v).trans hsteps)
  unfold fold
  simp only [hsteps, foldSteps, h.cut?_eq, hlength]
  cases apply k.op k.left (k.right last) with
  | error e => rfl
  | ok v => rfl

/-! ### The operators that still wait -/

/-- What is left of the operators are those that are not eligible, in their order. -/
theorem operators_of_fold
    (h : (fold apply threshold c last).result = .ok (v, d)) :
    operators d = (operators c).filter fun op => !isEligible threshold op := by
  induction c, last using cut_induction threshold with
  | stop c last hcut =>
      rw [fold_of_cut?_eq_none hcut] at h
      cases h
      symm
      rw [List.filter_eq_self]
      intro op hop
      rw [cut?_eq_none_iff.mp hcut op hop]
      rfl
  | step c last k hk ih =>
      rw [hk.fold_eq] at h
      split at h
      · cases h
      · rw [ih _ h, k.operators_contract, hk.operators_eq, List.filter_append,
          List.filter_append, List.filter_cons_of_neg (by simp [hk.eligible])]

/-- Without a threshold nothing waits any longer. -/
theorem eq_nil_of_fold_none
    (h : (fold apply none c last).result = .ok (v, d)) :
    d = [] := by
  have hnone := operators_of_fold h
  rw [List.filter_eq_nil_iff.mpr (by simp [isEligible])] at hnone
  exact List.map_eq_nil_iff.mp hnone

/-! ### Changed operands -/

/-- A cut of a chain with changed operands. -/
def Cut.mapOperands (f : α → α) (k : Cut α) : Cut α :=
  ⟨k.before.mapOperands f, f k.left, k.op, k.after.mapOperands f⟩

@[simp] theorem Cut.right_mapOperands
    (f : α → α) (k : Cut α) (last : α) :
    (k.mapOperands f).right (f last) = f (k.right last) := by
  obtain ⟨before, left, op, after⟩ := k
  cases after <;> rfl

@[simp] theorem Cut.contract_mapOperands
    (f : α → α) (k : Cut α) (last v : α) :
    (k.mapOperands f).contract (f last) (f v) =
      ((k.contract last v).1.mapOperands f, f (k.contract last v).2) := by
  obtain ⟨before, left, op, after⟩ := k
  cases after with
  | nil => rfl
  | cons t after => simp [Cut.mapOperands, Cut.contract, Chain.mapOperands]

/-- The operands do not matter for where a chain is cut. -/
theorem IsCut.mapOperands
    {k : Cut α} (h : IsCut threshold c k) (f : α → α) :
    IsCut threshold (c.mapOperands f) (k.mapOperands f) where
  eq := by simp [h.eq, Chain.mapOperands, Cut.mapOperands]
  eligible := h.eligible
  before := by simpa [Cut.mapOperands] using h.before
  after := by simpa [Cut.mapOperands] using h.after

/--
If every application of an operator of the chain succeeds and commutes with a
change of the operands, then so does the fold.
-/
theorem fold_mapOperands
    (threshold : Option Nat) {apply' : Operator → α → α → Except CalcError α} {f : α → α} {P : α → Prop}
    (happly : ∀ op ∈ operators c, ∀ a b, P a → P b →
      ∃ v, P v ∧ apply op a b = .ok v ∧ apply' op (f a) (f b) = .ok (f v))
    (hc : AllOperands P c) (hlast : P last) :
    ∃ v d, P v ∧ (fold apply threshold c last).result = .ok (v, d) ∧
      (fold apply' threshold (c.mapOperands f) (f last)).result = .ok (f v, d.mapOperands f) := by
  induction c, last using cut_induction threshold with
  | stop c last hcut =>
      have hcut' : cut? threshold (c.mapOperands f) = none := by
        rw [cut?_eq_none_iff, operators_mapOperands]
        exact cut?_eq_none_iff.mp hcut
      exact ⟨last, c, hlast, by rw [fold_of_cut?_eq_none hcut],
        by rw [fold_of_cut?_eq_none hcut']⟩
  | step c last k hk ih =>
      rw [hk.eq] at hc
      obtain ⟨hleft, hright, hcontract⟩ := hc.contract hlast
      obtain ⟨u, hu, hresult, hresult'⟩ := happly k.op hk.op_mem _ _ hleft hright
      rw [← Cut.right_mapOperands f k] at hresult'
      obtain ⟨hrest, hnext⟩ := hcontract u hu
      obtain ⟨v, d, hv, hfold, hfold'⟩ :=
        ih u (fun op hop => happly op (hk.mem_operators hop)) hrest hnext
      refine ⟨v, d, hv, ?_, ?_⟩
      · rw [hk.fold_eq, hresult]
        exact hfold
      · rw [(hk.mapOperands f).fold_eq]
        change apply' (k.mapOperands f).op (k.mapOperands f).left _ = _ at hresult'
        simp only [hresult', Cut.contract_mapOperands]
        exact hfold'

/-! ### Resuming a fold -/

/-- All operators have a positive precedence; there is no bit operator among them. -/
def Arithmetic (c : Chain α) : Prop := ∀ op ∈ operators c, 0 < op.precedence

namespace Arithmetic

/-- A threshold makes the operators eligible that are not below it. -/
theorem isEligible_iff
    (hc : Arithmetic c) (hop : op ∈ operators c) (s : Nat) :
    isEligible (some s) op = true ↔ s ≤ op.precedence := by
  have hpos := hc op hop
  simp only [isEligible, Bool.or_eq_true, decide_eq_true_eq]
  omega

theorem contract
    (hc : Arithmetic c) {k : Cut α} (hk : IsCut threshold c k) (last v : α) :
    Arithmetic (k.contract last v).1 :=
  fun op hop => hc op (hk.mem_operators hop)

/-- With a lower threshold the same operator is applied first. -/
theorem isCut_of_le
    (hc : Arithmetic c) {s : Nat} {lower : Option Nat} (hlower : ∀ t ∈ lower, t ≤ s)
    {k : Cut α} (hk : IsCut (some s) c k) :
    IsCut lower c k := by
  have hle := (hc.isEligible_iff hk.op_mem s).mp hk.eligible
  -- what the lower threshold adds lies below the higher one
  have hadded : ∀ op ∈ operators c, isEligible (some s) op = false →
      op.precedence < k.op.precedence := by
    intro op hop hnot
    have hlt := mt (hc.isEligible_iff hop s).mpr (Bool.eq_false_iff.mp hnot)
    omega
  refine ⟨hk.eq, ?_, fun op h _ => ?_, fun op h _ => ?_⟩
  · cases lower with
    | none => rfl
    | some t => exact (hc.isEligible_iff hk.op_mem t).mpr ((hlower t rfl).trans hle)
  · cases heligible : isEligible (some s) op with
    | true => exact hk.before op h heligible
    | false => exact hadded op (hk.mem_of_mem_before h) heligible
  · cases heligible : isEligible (some s) op with
    | true => exact hk.after op h heligible
    | false => exact (hadded op (hk.mem_of_mem_after h) heligible).le

/-- A fold with a lower threshold resumes one with a higher threshold. -/
theorem fold_resume
    (hc : Arithmetic c) {s : Nat} {lower : Option Nat} (hlower : ∀ t ∈ lower, t ≤ s) (last : α) :
    fold apply lower c last =
      (fold apply (some s) c last).resume fun v d => fold apply lower d v := by
  induction c, last using cut_induction (some s) with
  | stop c last hcut =>
      rw [fold_of_cut?_eq_none hcut]
      rfl
  | step c last k hk ih =>
      rw [(hc.isCut_of_le hlower hk).fold_eq, hk.fold_eq]
      cases apply k.op k.left (k.right last) with
      | error e => rfl
      | ok v =>
          simp only [ih v (hc.contract hk last v), Folded.resume]
          cases (fold apply (some s) (k.contract last v).1 (k.contract last v).2).result with
          | error e => rfl
          | ok r => rfl

end Arithmetic
end Chain
end DeskCalculator
