import DeskCalculator.Proofs.Chain.Steps
import DeskCalculator.Proofs.Expression.Level

/-!
# Folding a chain does not change the value of its level

A chain in which every operator waits for the ones on its right is folded from
its right end: as long as the last operator is eligible, it is applied.  What
is left, with any continuation, is worth as much as what was there.

**Results.**
* `fold_concat`: one step of folding such a chain.
* `Waiting.fold_remainder`, `Waiting.fold_resume`: what a fold leaves, and how
  another one goes on with it.
* `value_fold`: the level that a folded chain and its continuation stand for
  has the value of the level before folding, or none if folding fails.
-/

namespace DeskCalculator
namespace Chain

variable {α : Type}

/-- A chain in which every operator waits for all the later ones. -/
def Waiting (precedence : Bool) (c : Chain α) : Prop :=
  c.Pairwise fun s t => Level.WaitsFor precedence s.2 t.2

@[simp] theorem waiting_nil
    (precedence : Bool) :
    Waiting precedence ([] : Chain α) :=
  List.Pairwise.nil

theorem waiting_concat_iff
    {precedence : Bool} {c : Chain α} {t : α × Operator} :
    Waiting precedence (c ++ [t]) ↔
      Waiting precedence c ∧ ∀ s ∈ c, Level.WaitsFor precedence s.2 t.2 := by
  simp [Waiting, List.pairwise_append]

theorem Waiting.sublist
    {precedence : Bool} {c d : Chain α} (h : Waiting precedence c) (hd : d.Sublist c) :
    Waiting precedence d :=
  List.Pairwise.sublist hd h

/-- Precedences rise along a waiting chain, so that it cannot be long. -/
theorem Waiting.length_le
    {precedence : Bool} {c : Chain α} (h : Waiting precedence c) :
    c.length ≤ 3 := by
  have hrank : ∀ op : Operator, op.precedence ≤ 3 := by
    intro op
    cases op <;> decide
  match c, h with
  | [], _ | [_], _ | [_, _], _ | [_, _, _], _ => simp
  | s :: t :: u :: v :: _, h =>
      simp only [Waiting, List.pairwise_cons, List.mem_cons, forall_eq_or_imp] at h
      have hst := h.1.1
      have htu := h.2.1.1
      have huv := h.2.2.1.1
      have := hrank v.2
      simp only [Level.WaitsFor] at hst htu huv
      omega

/-! ### One step -/

/-- A chain with rising precedences is cut at its last operator. -/
theorem isCut_concat
    {threshold : Option Nat} {c : Chain α} {v : α} {op : Operator}
    (hop : isEligible threshold op = true)
    (hc : ∀ s ∈ c, s.2.precedence < op.precedence) :
    IsCut threshold (c ++ [(v, op)]) ⟨c, v, op, []⟩ where
  eq := rfl
  eligible := hop
  before := forall_mem_operators.mpr fun s hs _ => hc s hs
  after := by simp

/-- What waits for an operator that is not eligible is not eligible either. -/
theorem isEligible_eq_false_of_waitsFor
    {precedence : Bool} {threshold : Option Nat} {op later : Operator}
    (hwait : Level.WaitsFor precedence op later)
    (hlater : isEligible threshold later = false) :
    isEligible threshold op = false := by
  cases threshold with
  | none =>
      simp [isEligible] at hlater
  | some s =>
      obtain ⟨_, hpos, hlt⟩ := hwait
      simp only [isEligible, Bool.or_eq_false_iff, decide_eq_false_iff_not] at hlater ⊢
      omega

/-- If the last operator of a waiting chain is not eligible, none is. -/
theorem Waiting.not_eligible
    {precedence : Bool} {threshold : Option Nat} {c : Chain α} {t : α × Operator}
    (h : Waiting precedence (c ++ [t])) (ht : isEligible threshold t.2 = false) :
    ∀ s ∈ c ++ [t], isEligible threshold s.2 = false := by
  intro s hs
  rcases List.mem_append.mp hs with hc | hlast
  · exact isEligible_eq_false_of_waitsFor ((waiting_concat_iff.mp h).2 s hc) ht
  · rw [List.mem_singleton.mp hlast]
    exact ht

/-- With nothing eligible a chain stays as it is. -/
theorem fold_of_not_eligible
    (apply : Operator → α → α → Except CalcError α)
    {threshold : Option Nat} {c : Chain α}
    (h : ∀ t ∈ c, isEligible threshold t.2 = false) (last : α) :
    (fold apply threshold c last).result = .ok (last, c) := by
  rw [fold_of_cut?_eq_none (cut?_eq_none_iff.mpr (forall_mem_operators.mpr h))]

/-- Folding applies the last of the operators if it is eligible, and goes on. -/
theorem fold_concat
    (apply : Operator → α → α → Except CalcError α)
    {threshold : Option Nat} {c : Chain α} {v : α} {op : Operator}
    (hop : isEligible threshold op = true)
    (hc : ∀ s ∈ c, s.2.precedence < op.precedence) (last : α) :
    (fold apply threshold (c ++ [(v, op)]) last).result =
      apply op v last >>= fun r => (fold apply threshold c r).result := by
  rw [(isCut_concat hop hc).fold_eq]
  simp only [Cut.right, Cut.contract]
  cases apply op v last <;> rfl

/-- What is left of a waiting chain is a beginning of it without eligible operators. -/
theorem Waiting.fold_remainder
    {apply : Operator → α → α → Except CalcError α}
    {precedence : Bool} {threshold : Option Nat} {c : Chain α}
    (hc : Waiting precedence c) {last v : α} {rest : Chain α}
    (h : (fold apply threshold c last).result = .ok (v, rest)) :
    rest <+: c ∧ ∀ t ∈ rest, isEligible threshold t.2 = false := by
  induction c using List.reverseRecOn generalizing last with
  | nil =>
      rw [fold_of_not_eligible apply (by simp)] at h
      cases h
      simp
  | append_singleton c t ih =>
      obtain ⟨hinit, hlast⟩ := waiting_concat_iff.mp hc
      cases ht : isEligible threshold t.2 with
      | true =>
          rw [fold_concat apply ht fun s hs => (hlast s hs).2.2] at h
          obtain ⟨r, -, hfold⟩ := CalcError.bind_eq_ok_iff.mp h
          obtain ⟨hinitial, hrest⟩ := ih hinit hfold
          exact ⟨hinitial.trans (List.prefix_append _ _), hrest⟩
      | false =>
          have hnone := hc.not_eligible ht
          rw [fold_of_not_eligible apply hnone] at h
          cases h
          exact ⟨List.prefix_rfl, hnone⟩

/-- What is left of a waiting chain has room for one more operation. -/
theorem Waiting.push_folded
    {apply : Operator → α → α → Except CalcError α}
    {precedence : Bool} {threshold : Option Nat} {c : Chain α}
    (hc : Waiting precedence c) {last v : α} {rest : Chain α}
    (h : (fold apply threshold c last).result = .ok (v, rest)) (op : Operator) :
    rest.push v op = .ok (rest ++ [(v, op)]) := by
  have hlength := (hc.sublist (hc.fold_remainder h).1.sublist).length_le
  rw [push, if_neg (by simp only [capacity]; omega)]

/-- A fold that makes more operators eligible resumes one that makes fewer eligible. -/
theorem Waiting.fold_resume
    {apply : Operator → α → α → Except CalcError α}
    {precedence : Bool} {threshold lower : Option Nat} {c : Chain α}
    (hc : Waiting precedence c)
    (hlower : ∀ t ∈ c, isEligible threshold t.2 = true → isEligible lower t.2 = true)
    {last v : α} {rest : Chain α} (h : (fold apply threshold c last).result = .ok (v, rest)) :
    (fold apply lower rest v).result = (fold apply lower c last).result := by
  induction c using List.reverseRecOn generalizing last with
  | nil =>
      rw [fold_of_not_eligible apply (by simp)] at h
      cases h
      rfl
  | append_singleton c t ih =>
      obtain ⟨hinit, hlast⟩ := waiting_concat_iff.mp hc
      cases ht : isEligible threshold t.2 with
      | true =>
          have ht' := hlower t (by simp) ht
          rw [fold_concat apply ht fun s hs => (hlast s hs).2.2] at h
          rw [fold_concat apply ht' fun s hs => (hlast s hs).2.2]
          obtain ⟨r, happly, hfold⟩ := CalcError.bind_eq_ok_iff.mp h
          rw [happly]
          exact ih hinit (fun s hs => hlower s (by simp [hs])) hfold
      | false =>
          rw [fold_of_not_eligible apply (hc.not_eligible ht)] at h
          cases h
          rfl

/-! ### The value of the level -/

/-- An operation that may fail, without the error. -/
def successOf (apply : Operator → α → α → Except CalcError α) :
    Operator → α → α → Option α :=
  fun op a b => (apply op a b).toOption

/--
Folding with a threshold that makes no operator eligible which waits for the
continuation.
-/
theorem Waiting.value_fold
    (apply : Operator → α → α → Except CalcError α) {precedence : Bool}
    (threshold : Option Nat) (more : List (Operator × α))
    (hmore : ∀ t ∈ more.head?, ∀ op : Operator,
      isEligible threshold op = true → ¬Level.WaitsFor precedence op t.1)
    {c : Chain α} (hc : Waiting precedence c) (last : α) :
    Level.value (successOf apply) precedence (Level.join c (last, more)) =
      (fold apply threshold c last).result.toOption.bind fun r =>
        Level.value (successOf apply) precedence (Level.join r.2 (r.1, more)) := by
  induction c using List.reverseRecOn generalizing last with
  | nil =>
      rw [fold_of_not_eligible apply (by simp)]
      rfl
  | append_singleton c t ih =>
      obtain ⟨hinit, hlast⟩ := waiting_concat_iff.mp hc
      cases ht : isEligible threshold t.2 with
      | true =>
          rw [fold_concat apply ht fun s hs => (hlast s hs).2.2, Level.join_concat,
            Level.value_join_step _ hlast t.1 last fun s hs => hmore s hs t.2 ht]
          cases happly : apply t.2 t.1 last with
          | error e =>
              simp [successOf, happly, Except.toOption, bind, Except.bind]
          | ok r =>
              simp [successOf, happly, Except.toOption, bind, Except.bind, ih hinit r]
      | false =>
          rw [fold_of_not_eligible apply (hc.not_eligible ht)]
          rfl

end Chain
end DeskCalculator
