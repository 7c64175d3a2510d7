import DeskCalculator.Chain

/-!
# The operands of a chain

A fold takes the operands of its results from the chain and from results before
them.  So a property of all operands that the operation keeps is a property of
the value and of all operands that still wait.

**Results.**
* `eq_of_cut?`: a cut only takes a chain apart.
* `AllOperands.fold`: what folding keeps.
-/

namespace DeskCalculator
namespace Chain

variable {α : Type} {P : α → Prop} {c d : Chain α}

/-- Every operand of a chain has a property. -/
def AllOperands (P : α → Prop) (c : Chain α) : Prop :=
  ∀ t ∈ c, P t.1

@[simp] theorem allOperands_nil :
    AllOperands P ([] : Chain α) := by
  simp [AllOperands]

@[simp] theorem allOperands_cons
    {t : α × Operator} :
    AllOperands P (t :: c) ↔ P t.1 ∧ AllOperands P c := by
  simp [AllOperands]

@[simp] theorem allOperands_append :
    AllOperands P (c ++ d) ↔ AllOperands P c ∧ AllOperands P d := by
  simp [AllOperands, or_imp, forall_and]

theorem AllOperands.dropLast
    (hc : AllOperands P c) :
    AllOperands P c.dropLast :=
  fun t ht => hc t ((List.dropLast_sublist c).subset ht)

/-- Changed operands have the property that the change gives them. -/
theorem AllOperands.mapOperands
    {Q : α → Prop} {f : α → α} (hf : ∀ v, P v → Q (f v)) (hc : AllOperands P c) :
    AllOperands Q (c.mapOperands f) := by
  intro t ht
  obtain ⟨s, hs, rfl⟩ := List.mem_map.mp ht
  exact hf s.1 (hc s hs)

theorem AllOperands.push
    {v : α} {op : Operator} (hc : AllOperands P c) (hv : P v) (h : c.push v op = .ok d) :
    AllOperands P d := by
  unfold Chain.push at h
  split at h
  · cases h
  · rw [← Except.ok.inj h]
    simp [hc, hv]

/-! ### Folding -/

/-- A cut takes a chain apart and changes nothing. -/
theorem eq_of_cut?
    {threshold : Option Nat} {k : Cut α} (h : cut? threshold c = some k) :
    c = k.before ++ (k.left, k.op) :: k.after := by
  obtain ⟨top, _, hcut⟩ := Option.bind_eq_some_iff.mp h
  dsimp only at hcut
  split at hcut
  · cases hcut
  · rename_i left op after hrest
    rw [← Option.some.inj hcut, ← hrest]
    exact List.takeWhile_append_dropWhile.symm

/-- The operands around a cut, and those that are left when a result replaces them. -/
theorem AllOperands.contract
    {k : Cut α} {last : α} (hk : AllOperands P (k.before ++ (k.left, k.op) :: k.after))
    (hlast : P last) :
    P k.left ∧ P (k.right last) ∧
      ∀ v, P v → AllOperands P (k.contract last v).1 ∧ P (k.contract last v).2 := by
  obtain ⟨before, left, op, after⟩ := k
  cases after with
  | nil =>
      simp only [allOperands_append, allOperands_cons] at hk
      exact ⟨hk.2.1, hlast, fun v hv => ⟨hk.1, hv⟩⟩
  | cons t after =>
      simp only [allOperands_append, allOperands_cons] at hk
      refine ⟨hk.2.1, hk.2.2.1, fun v hv => ⟨?_, hlast⟩⟩
      simp only [Cut.contract, allOperands_append, allOperands_cons]
      exact ⟨hk.1, hv, hk.2.2.2⟩

theorem AllOperands.foldSteps
    {apply : Operator → α → α → Except CalcError α} {threshold : Option Nat}
    (happly : ∀ {op a b r}, P a → P b → apply op a b = .ok r → P r)
    {steps : Nat} {last v : α} (hc : AllOperands P c) (hlast : P last)
    (h : (foldSteps apply threshold steps c last).result = .ok (v, d)) :
    P v ∧ AllOperands P d := by
  induction steps generalizing c last with
  | zero =>
      cases h
      exact ⟨hlast, hc⟩
  | succ steps ih =>
      unfold Chain.foldSteps at h
      split at h
      · cases h
        exact ⟨hlast, hc⟩
      · rename_i k hcut
        rw [eq_of_cut? hcut] at hc
        obtain ⟨hleft, hright, hcontract⟩ := hc.contract hlast
        dsimp only at h
        split at h
        · cases h
        · rename_i r hr
          obtain ⟨hrest, hlast'⟩ := hcontract r (happly hleft hright hr)
          exact ih hrest hlast' h

/-- What the operation keeps, folding keeps. -/
theorem AllOperands.fold
    {apply : Operator → α → α → Except CalcError α} {threshold : Option Nat}
    (happly : ∀ {op a b r}, P a → P b → apply op a b = .ok r → P r)
    {last v : α} (hc : AllOperands P c) (hlast : P last)
    (h : (fold apply threshold c last).result = .ok (v, d)) :
    P v ∧ AllOperands P d :=
  hc.foldSteps happly hlast h

end Chain
end DeskCalculator
