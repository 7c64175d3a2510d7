import DeskCalculator.Proofs.Expression.Folding

/-!
# Folding while typing and folding at once

While a level is typed, every operator folds what does not wait for it, so that
applications are made as soon as they can be.  The same level can be put into a
chain as a whole and folded once.  Of arithmetic operators both apply the same
ones to the same operands, in different orders: they share the value of the
level, and fail together.

**Results.**
* `Arithmetic.value_fold`: a chain of arithmetic operators that is folded at once
  is worth the value of its level.
* `value_foldAsTyped`: so is a level that is folded as it is typed.
* `folds_agree`: both agree, what a threshold leaves, and that a fold without a
  threshold resumes one with a threshold.
-/

namespace DeskCalculator

variable {α : Type}

/-- Two chains in front of a level are one chain. -/
theorem Level.join_chains
    (c d : Chain α) (l : Level α) :
    join (c ++ d) l = join c (join d l) := by
  induction c with
  | nil =>
      rfl
  | cons t c ih =>
      simp [ih]

namespace Chain

variable {apply : Operator → α → α → Except CalcError α} {c : Chain α} {v last : α}

/-! ### Folding at once -/

/-- The level of a chain, seen from an operator of it. -/
theorem Cut.join_eq
    (k : Cut α) (last : α) :
    Level.join (k.before ++ (k.left, k.op) :: k.after) (last, []) =
      Level.join k.before (k.left, (k.op, k.right last) ::
        (Level.join k.after (last, [])).2) := by
  obtain ⟨before, left, op, after⟩ := k
  rw [Level.join_chains, Level.join_cons]
  cases after <;> rfl

/-- The level that is left when the operator has been applied. -/
theorem Cut.join_contract
    (k : Cut α) (last v : α) :
    Level.join (k.contract last v).1 ((k.contract last v).2, []) =
      Level.join k.before (v, (Level.join k.after (last, [])).2) := by
  obtain ⟨before, left, op, after⟩ := k
  cases after with
  | nil => rfl
  | cons t after => exact Level.join_chains _ _ _

/-- A chain of arithmetic operators that is folded at once is worth the value of its level. -/
theorem Arithmetic.value_fold
    (hc : Arithmetic c) (last : α) :
    Level.value (successOf apply) true (Level.join c (last, [])) =
      (fold apply none c last).result.toOption.map (·.1) := by
  induction c, last using cut_induction none with
  | stop c last hcut =>
      have hnil : c = [] := by
        cases c with
        | nil => rfl
        | cons t c => simpa [isEligible] using cut?_eq_none_iff.mp hcut t.2 (by simp)
      rw [fold_of_cut?_eq_none hcut, hnil]
      rfl
  | step c last k hk ih =>
      have hbefore : ∀ op ∈ operators k.before, Level.WaitsFor true op k.op := fun op hop =>
        ⟨rfl, hc op (hk.mem_of_mem_before hop), hk.before op hop rfl⟩
      have hafter : ∀ t ∈ (Level.join k.after (last, [])).2.head?,
          ¬Level.WaitsFor true k.op t.1 := by
        intro t ht hwait
        have hop := Level.mem_join_ops (List.mem_map_of_mem (f := (·.1)) (List.mem_of_mem_head? ht))
        have hle := hk.after t.1 (hop.resolve_right (by simp)) rfl
        exact absurd hwait.2.2 (Nat.not_lt.mpr hle)
      rw [hk.fold_eq, hk.eq, k.join_eq,
        Level.value_join_step _ (forall_mem_operators.mp hbefore) _ _ hafter]
      cases happly : apply k.op k.left (k.right last) with
      | error e => simp [successOf, happly, Except.toOption]
      | ok v =>
          have hrest := ih v (hc.contract hk last v)
          rw [k.join_contract] at hrest
          simp only [successOf, happly, Except.toOption, Option.bind_some] at hrest ⊢
          exact hrest

/-! ### Folding as typed -/

/-- Folds a level as it is typed: each operator folds what does not wait for it, and waits. -/
def foldAsTyped (apply : Operator → α → α → Except CalcError α) :
    Chain α → α → List (Operator × α) → Except CalcError α
  | c, v, [] => (fold apply none c v).result.map (·.1)
  | c, v, (op, w) :: more => do
      let (r, d) ← (fold apply (some op.precedence) c v).result
      foldAsTyped apply (← d.push r op) w more

/-- Puts a level into a chain, with the last operand right of it. -/
def ofLevel : α → List (Operator × α) → Chain α × α
  | v, [] => ([], v)
  | v, (op, w) :: more => ((v, op) :: (ofLevel w more).1, (ofLevel w more).2)

/-- A level in a chain is the level. -/
theorem join_ofLevel
    (v : α) (more : List (Operator × α)) :
    Level.join (ofLevel v more).1 ((ofLevel v more).2, []) = (v, more) := by
  induction more generalizing v with
  | nil =>
      rfl
  | cons t more ih =>
      simp [ofLevel, ih]

theorem operators_ofLevel
    (v : α) (more : List (Operator × α)) :
    operators (ofLevel v more).1 = more.map (·.1) := by
  induction more generalizing v with
  | nil =>
      rfl
  | cons t more ih =>
      simp [ofLevel, ih]

/-- What is left of a chain that an operator folds waits for the operator. -/
theorem Waiting.concat_folded
    {op : Operator} {d : Chain α} (hc : Waiting true c)
    (h : (fold apply (some op.precedence) c last).result = .ok (v, d)) :
    Waiting true (d ++ [(v, op)]) := by
  obtain ⟨hinitial, hrest⟩ := hc.fold_remainder h
  refine waiting_concat_iff.mpr ⟨hc.sublist hinitial.sublist, fun s hs => ?_⟩
  have hnot := hrest s hs
  simp only [isEligible, Bool.or_eq_false_iff, decide_eq_false_iff_not, Nat.not_le] at hnot
  exact ⟨rfl, Nat.pos_of_ne_zero hnot.1, hnot.2⟩

/-- A level that is folded as it is typed keeps its value. -/
theorem Waiting.value_foldAsTyped
    (hc : Waiting true c) (v : α) (more : List (Operator × α)) :
    (foldAsTyped apply c v more).toOption =
      Level.value (successOf apply) true (Level.join c (v, more)) := by
  induction more generalizing c v with
  | nil =>
      rw [foldAsTyped, hc.value_fold apply none [] (by simp)]
      cases hfold : (fold apply none c v).result with
      | error e => rfl
      | ok r =>
          show some r.1 = Level.value _ _ (Level.join r.2 (r.1, []))
          rw [eq_nil_of_fold_none hfold]
          rfl
  | cons t more ih =>
      obtain ⟨op, w⟩ := t
      have hthreshold : ∀ t ∈ ((op, w) :: more).head?, ∀ op' : Operator,
          isEligible (some op.precedence) op' = true → ¬Level.WaitsFor true op' t.1 := by
        rintro _ ⟨⟩ op' heligible ⟨-, hpos, hlt⟩
        simp only [isEligible, Bool.or_eq_true, decide_eq_true_eq] at heligible
        rcases heligible with hzero | hle
        · exact absurd hzero hpos.ne'
        · exact absurd hlt (Nat.not_lt.mpr hle)
      rw [foldAsTyped, hc.value_fold apply _ _ hthreshold]
      cases hfold : (fold apply (some op.precedence) c v).result with
      | error e => rfl
      | ok r =>
          have hrest := hc.concat_folded hfold
          have hpush := hc.push_folded hfold op
          have hvalue := ih hrest w
          rw [Level.join_concat] at hvalue
          show (r.2.push r.1 op >>= fun d => foldAsTyped apply d w more).toOption = _
          rw [hpush]
          exact hvalue

/--
For every operation, which may fail:
a level of arithmetic operators has the same value when it is folded as it is
typed and when it is folded at once, and neither has one if the other has none;
and of a chain of arithmetic operators a threshold leaves those below it in
their order, and a fold without a threshold makes the same applications in the
same order as one with the threshold, followed by a fold of what that one leaves.
-/
theorem folds_agree
    (apply : Operator → α → α → Except CalcError α) :
    (∀ (v : α) (more : List (Operator × α)), (∀ t ∈ more, 0 < t.1.precedence) →
        (foldAsTyped apply [] v more).toOption =
          (fold apply none (ofLevel v more).1 (ofLevel v more).2).result.toOption.map (·.1)) ∧
      ∀ (c : Chain α) (s : Nat) (last : α), Arithmetic c →
        (∀ v d, (fold apply (some s) c last).result = .ok (v, d) →
            operators d = (operators c).filter (·.precedence < s)) ∧
          fold apply none c last =
            (fold apply (some s) c last).resume fun v d => fold apply none d v := by
  refine ⟨fun v more hmore => ?_, fun c s last hc => ⟨fun v d hfold => ?_, ?_⟩⟩
  · have hlevel : Arithmetic (ofLevel v more).1 := by
      intro op hop
      rw [operators_ofLevel] at hop
      obtain ⟨t, ht, rfl⟩ := List.mem_map.mp hop
      exact hmore t ht
    rw [(waiting_nil true).value_foldAsTyped, Level.join_nil, ← hlevel.value_fold, join_ofLevel]
  · rw [operators_of_fold hfold]
    refine List.filter_congr fun op hop => ?_
    rw [Bool.eq_iff_iff, Bool.not_eq_true', ← Bool.not_eq_true, hc.isEligible_iff hop, Nat.not_le,
      decide_eq_true_eq]
  · exact hc.fold_resume (by simp) last

/-- Integer arithmetic, in which quotients may fail. -/
def sampleOperation : Operator → Int → Int → Except CalcError Int
  | .add, a, b => .ok (a + b)
  | .sub, a, b => .ok (a - b)
  | .mul, a, b => .ok (a * b)
  | .div, a, b => if b = 0 then .error .divisionByZero else .ok (a / b)
  | _, _, _ => .error .overflow

/-- In `2 + 3 × 4 - 5` the product is applied first, and all of it is worth nine. -/
theorem sampleLevel_folds_agree :
    (∀ t ∈ [(Operator.add, (3 : Int)), (.mul, 4), (.sub, 5)], 0 < t.1.precedence) ∧
      (foldAsTyped sampleOperation [] 2 [(.add, 3), (.mul, 4), (.sub, 5)]).toOption = some 9 ∧
      Arithmetic [((2 : Int), Operator.add), (3, .mul)] ∧
      (fold sampleOperation none [(2, .add), (3, .mul)] 4).applied =
        (fold sampleOperation (some 2) [(2, .add), (3, .mul)] 4).applied ++
          (fold sampleOperation none [(2, .add)] 12).applied := by
  obtain ⟨htyped, hresume⟩ := folds_agree sampleOperation
  have hpositive : ∀ t ∈ [(Operator.add, (3 : Int)), (.mul, 4), (.sub, 5)], 0 < t.1.precedence := by
    decide
  have hchain : Arithmetic [((2 : Int), Operator.add), (3, .mul)] := by
    unfold Arithmetic
    decide
  refine ⟨hpositive, ?_, hchain, ?_⟩
  · rw [htyped 2 _ hpositive]
    rfl
  · rw [(hresume _ 2 4 hchain).2]
    rfl

end Chain
end DeskCalculator
