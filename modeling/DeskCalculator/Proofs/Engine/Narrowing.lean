import DeskCalculator.Proofs.Engine.TypedWords
import DeskCalculator.Proofs.Engine.Values

/-!
# Narrowing words

A change of the width chops every value that an engine holds.  The low bits of a
sum, a difference, a product and of the operations bit by bit depend on the low
bits of the operands only.  So with these operators it does not matter whether
the values are chopped before the calculation is completed or the result after.

**Results.**
* `Operator.KeepsLowBits.binary`: an operator commutes with chopping.
* `Chopped.equals`: what the equals key computes from chopped values.
* `Reachable.narrowing_commutes_with_equals`: a narrower width before and after
  `=` comes to the same.
-/

namespace DeskCalculator

open Ratio

/-- The low bits of the result depend on the low bits of the operands only. -/
def Operator.KeepsLowBits (op : Operator) : Prop :=
  op ∈ [Operator.add, .sub, .mul, .and, .or, .xor]

instance (op : Operator) : Decidable op.KeepsLowBits :=
  inferInstanceAs (Decidable (op ∈ _))

/-! ### Chopping and operators -/

namespace CalculationMode

variable {F : RealFunctions} {w w' : WordSize}

/-- A word is chopped to its low bits. -/
theorem adjust_ofBits
    (w' : WordSize) (x : BitVec w.bits) :
    w'.mode.adjust (ofBits x) = ofBits (x.setWidth w'.bits) := by
  rw [ofBits, adjust_ofNat, BitVec.ofNat_toNat]

theorem setWidth_sub
    {v w : Nat} (x y : BitVec v) (h : w ≤ v) :
    (x - y).setWidth w = x.setWidth w - y.setWidth w := by
  rw [BitVec.sub_eq_add_neg, BitVec.setWidth_add _ _ h, BitVec.setWidth_neg_of_le h,
    ← BitVec.sub_eq_add_neg]

end CalculationMode

open CalculationMode in
/-- On words such an operator succeeds, and commutes with chopping to a narrower width. -/
theorem Operator.KeepsLowBits.binary
    {F : RealFunctions} {w w' : WordSize} {op : Operator} (hop : op.KeepsLowBits)
    (hw : w'.bits ≤ w.bits) {a b : Ratio} (ha : IsWord w.bits a) (hb : IsWord w.bits b) :
    ∃ v, IsWord w.bits v ∧ w.mode.binary F op a b = .ok v ∧
      w'.mode.binary F op (w'.mode.adjust a) (w'.mode.adjust b) = .ok (w'.mode.adjust v) := by
  obtain ⟨x, rfl⟩ := isWord_iff_exists_ofBits.mp ha
  obtain ⟨y, rfl⟩ := isWord_iff_exists_ofBits.mp hb
  suffices h : ∃ z : BitVec w.bits, w.mode.binary F op (ofBits x) (ofBits y) = .ok (ofBits z) ∧
      w'.mode.binary F op (ofBits (x.setWidth w'.bits)) (ofBits (y.setWidth w'.bits)) =
        .ok (ofBits (z.setWidth w'.bits)) by
    obtain ⟨z, hresult, hresult'⟩ := h
    refine ⟨ofBits z, isWord_iff_exists_ofBits.mpr ⟨z, rfl⟩, hresult, ?_⟩
    rw [adjust_ofBits, adjust_ofBits, adjust_ofBits, hresult']
  cases op with
  | add => exact ⟨x + y, binary_add, by rw [binary_add, BitVec.setWidth_add _ _ hw]⟩
  | sub => exact ⟨x - y, binary_sub, by rw [binary_sub, setWidth_sub _ _ hw]⟩
  | mul => exact ⟨x * y, binary_mul, by rw [binary_mul, BitVec.setWidth_mul _ _ hw]⟩
  | and => exact ⟨x &&& y, binary_and, by rw [binary_and, BitVec.setWidth_and]⟩
  | or => exact ⟨x ||| y, binary_or, by rw [binary_or, BitVec.setWidth_or]⟩
  | xor => exact ⟨x ^^^ y, binary_xor, by rw [binary_xor, BitVec.setWidth_xor]⟩
  | _ => simp [Operator.KeepsLowBits] at hop

namespace Engine

variable {F : RealFunctions} {m : Engine}

/-! ### A narrower width -/

/-- All that the equals key reads is that of `m`, settled and chopped to the width `w`. -/
structure Chopped (w : WordSize) (m n : Engine) : Prop where
  mode : n.mode = w.mode
  current : n.current = w.mode.adjust m.settle.current
  held : n.held = w.mode.adjust m.held
  lastOperator : n.lastOperator = m.lastOperator
  pending : n.pending = m.pending.mapOperands w.mode.adjust
  groups : n.groups.map (·.pending) =
    (m.groups.map (·.pending)).map (·.mapOperands w.mode.adjust)
  entering : n.entering = false
  afterEquals : n.afterEquals = m.afterEquals
  failed : n.failed = m.failed

/-- On words a change of the width chops all of it. -/
theorem chopped_step_wordSize
    (hm : m.failed = false) (hwords : m.config.onWords = true) (w : WordSize) :
    Chopped w m (m.step F (.wordSize w)).1 := by
  have hsettle : m.settle.config.onWords = true := by
    rwa [settle_config]
  have hmode : mode { m.settle with wordSize := w } = w.mode := mode_of_onWords hsettle
  have hstep : (m.step F (.wordSize w)).1 = { m.settle with wordSize := w }.adjustValues := by
    rw [step_eq F hm]
    simp only [execute, setWordSize, hsettle, if_true]
  have hkeeps : m.settle.held = m.held ∧ m.settle.lastOperator = m.lastOperator ∧
      m.settle.afterEquals = m.afterEquals := by
    unfold settle
    split <;> exact ⟨rfl, rfl, rfl⟩
  rw [hstep]
  simp only [adjustValues, hmode]
  exact {
    mode := hmode
    current := rfl
    held := by rw [hkeeps.1]
    lastOperator := hkeeps.2.1
    pending := by rw [settle_pending]
    groups := by simp [Function.comp_def]
    entering := m.settle_entering
    afterEquals := hkeeps.2.2
    failed := m.settle_failed }

/-- The operators that the equals key applies keep low bits. -/
structure AppliesLowBits (m : Engine) : Prop where
  pending : ∀ op ∈ m.pending.operators, op.KeepsLowBits
  groups : ∀ g ∈ m.groups, ∀ op ∈ g.pending.operators, op.KeepsLowBits
  repeated : m.afterEquals = true → ∀ op ∈ m.lastOperator, op.KeepsLowBits

/-- What the equals key computes from chopped values is the chopped result. -/
theorem Chopped.equals
    {n : Engine} {w : WordSize} (h : Chopped w m n) (hm : Reachable F m)
    (hfailed : m.failed = false) (hwords : m.config.onWords = true) (hops : AppliesLowBits m)
    (hw : w.bits ≤ m.wordSize.bits) :
    ∃ v, Yields (m.equals F) m v ∧ Yields (n.equals F) n (w.mode.adjust v) := by
  have hholds : HoldsIn m.mode (IsWord m.mode.bits) m := ⟨hm.holdsWords_of_onWords hwords, rfl⟩
  have hmode := mode_of_onWords hwords
  have hcurrent : IsWord m.wordSize.bits m.settle.current :=
    (hholds.settle (settlesIn_of_closed (CalculationMode.closed_isWord hwords) m)).current
  have happly : ∀ op, Operator.KeepsLowBits op → ∀ a b, IsWord m.wordSize.bits a →
      IsWord m.wordSize.bits b → ∃ v, IsWord m.wordSize.bits v ∧
        m.mode.binary F op a b = .ok v ∧
        n.mode.binary F op (w.mode.adjust a) (w.mode.adjust b) = .ok (w.mode.adjust v) := by
    intro op hop a b ha hb
    rw [hmode, h.mode]
    exact hop.binary hw ha hb
  cases hequals : m.afterEquals with
  | false =>
      have houter : ∀ d ∈ m.groups.map (·.pending),
          d.AllOperands (IsWord m.wordSize.bits) ∧ ∀ op ∈ d.operators, op.KeepsLowBits := by
        intro d hd
        obtain ⟨g, hg, rfl⟩ := List.mem_map.mp hd
        exact ⟨hholds.groups g hg, hops.groups g hg⟩
      obtain ⟨v, hfold, hfold'⟩ :=
        Chain.foldOpen_mapOperands happly houter hholds.pending hops.pending hcurrent
      refine ⟨v, equals_of_foldOpen hequals hfold, ?_⟩
      refine equals_of_foldOpen (h.afterEquals.trans hequals) ?_
      rwa [h.groups, h.pending, settle_of_not_entering h.entering, h.current]
  | true =>
      have hentering := ((hm.coherent hfailed).afterEquals hequals).2.2
      have hnext := h.current
      rw [settle_of_not_entering hentering] at hnext hcurrent
      cases hlast : m.lastOperator with
      | none =>
          refine ⟨m.current, equals_of_afterEquals hequals hentering (by rw [hlast]), ?_⟩
          refine equals_of_afterEquals (h.afterEquals.trans hequals) h.entering ?_
          rw [h.lastOperator, hlast]
          exact hnext.symm
      | some op =>
          obtain ⟨v, -, hresult, hresult'⟩ :=
            happly op (hops.repeated hequals op hlast) _ _ hcurrent hholds.held
          refine ⟨v, equals_of_afterEquals hequals hentering (by rwa [hlast]), ?_⟩
          refine equals_of_afterEquals (h.afterEquals.trans hequals) h.entering ?_
          rw [h.lastOperator, hlast, hnext, h.held]
          exact hresult'

/--
On words, if all operators that wait inside and outside of groups, and after a
result the one that is repeated, keep low bits, then `=` does not fail, and it
comes to the same to change to a width that is not larger before it or after it.
-/
theorem Reachable.narrowing_commutes_with_equals
    (h : Reachable F m) (hm : m.failed = false) (hwords : m.config.onWords = true)
    (hops : AppliesLowBits m) {w : WordSize} (hw : w.bits ≤ m.wordSize.bits) :
    (m.run F [.wordSize w, .equals]).failed = false ∧
      (m.run F [.equals, .wordSize w]).failed = false ∧
      (m.run F [.wordSize w, .equals]).current = (m.run F [.equals, .wordSize w]).current ∧
      (m.run F [.wordSize w, .equals]).current =
        w.mode.adjust (m.run F [.equals]).current := by
  have hchopped := chopped_step_wordSize (F := F) hm hwords w
  obtain ⟨v, hwide, hnarrow⟩ := hchopped.equals h hm hwords hops hw
  have hfirst : m.run F [.equals] = (m.equals F).engine := hwide.step_equals hm
  have hbefore : m.run F [.wordSize w, .equals] =
      ((m.step F (.wordSize w)).1.equals F).engine :=
    hnarrow.step_equals (hchopped.failed.trans hm)
  have hafter := chopped_step_wordSize (F := F) (hwide.failed.trans hm)
    (by rw [equals_config, hwords]) w
  rw [← hfirst] at hafter
  have hresult : (m.run F [.equals, .wordSize w]).current = w.mode.adjust v := by
    rw [run_cons, run_cons, run_nil]
    exact hafter.current.trans (by rw [hfirst, hwide.settle_current])
  refine ⟨?_, ?_, ?_, ?_⟩
  · rw [hbefore, hnarrow.failed, hchopped.failed, hm]
  · exact hafter.failed.trans (by rw [hfirst, hwide.failed, hm])
  · rw [hbefore, hnarrow.current, hresult]
  · rw [hbefore, hnarrow.current, hfirst, hwide.current]

/-- The difference `5 - (300 xor 7)` on words of 64 bits, before its result is asked for. -/
def sampleDifference : Engine :=
  (Engine.new { onWords := true } {}).run .native
    [.digit 5, .binary .sub, .openParen, .digit 3, .digit 0, .digit 0, .binary .xor, .digit 7]

/-- What is pending inside and outside the group. -/
theorem sampleDifference_hasOperand :
    ∃ tokens, HasOperand (Engine.new { onWords := true } {}) sampleDifference
      [⟨[(.ofNat 5, .sub)], tokens⟩] [(.ofNat 300, .xor)] (.ofNat 7) := by
  have hcleared : Cleared .native (Engine.new { onWords := true } {}) := .new _ _
  have hdigits : ∀ cs ∈ [['5'], ['3', '0', '0'], ['7']], DigitsOf 10 cs := by
    decide
  have hfive := hcleared.awaits.run_digitKeys (F := .native) rfl
    (hdigits ['5'] (by simp)) (by simp) (by decide)
  have hsub : Awaits _ _ [] [(Ratio.ofNat 5, Operator.sub)] :=
    hfive.step_binary (F := .native) (Chain.waiting_nil _) .sub
  obtain ⟨tokens, hopen⟩ := hsub.step_openParen (F := .native) (by decide)
  have hlong := hopen.run_digitKeys (F := .native) rfl
    (hdigits ['3', '0', '0'] (by simp)) (by simp) (by decide)
  have hxor : Awaits _ _ _ [(Ratio.ofNat 300, Operator.xor)] :=
    hlong.step_binary (F := .native) (Chain.waiting_nil _) .xor
  exact ⟨tokens, hxor.run_digitKeys (F := .native) rfl
    (hdigits ['7'] (by simp)) (by simp) (by decide)⟩

/-- The difference may be narrowed to bytes before the equals key or after. -/
theorem sampleDifference_narrowing :
    Reachable .native sampleDifference ∧ sampleDifference.failed = false ∧
      sampleDifference.config.onWords = true ∧ AppliesLowBits sampleDifference ∧
      WordSize.byte.bits ≤ sampleDifference.wordSize.bits ∧
      (sampleDifference.run .native [.wordSize .byte, .equals]).current =
        (sampleDifference.run .native [.equals, .wordSize .byte]).current := by
  obtain ⟨tokens, h⟩ := sampleDifference_hasOperand
  have hreachable : Reachable .native sampleDifference := Reachable.run .native (.new _ _) _
  have hwords : sampleDifference.config.onWords = true := by
    rw [h.same.config]
    rfl
  have hops : AppliesLowBits sampleDifference := {
    pending := by
      rw [h.pending]
      decide
    groups := by
      rw [h.groups]
      simp [Operator.KeepsLowBits]
    repeated := by simp [h.afterEquals] }
  have hw : WordSize.byte.bits ≤ sampleDifference.wordSize.bits := by
    rw [h.same.wordSize]
    decide
  exact ⟨hreachable, h.failed, hwords, hops, hw,
    (hreachable.narrowing_commutes_with_equals h.failed hwords hops hw).2.2.1⟩

end Engine
end DeskCalculator
