import DeskCalculator.Proofs.Engine.Replacement
import DeskCalculator.Proofs.Engine.Values
import DeskCalculator.Proofs.Numeral.Order

/-!
# The size of the values that an engine holds

A ratio is sized if neither of its terms has more bits than the limit.  A number
of at most 64 digits with an exponent of four is far below it, and operators and
functions refuse results above it.  Percentages and memory sums are not checked:
they are the only way to a larger value.

**Results.**
* `Entry.Legible.value_sized`: numbers being typed are sized.
* `CalculationMode.keeps_fits`: operators and functions result in sized values.
* `Reachable.holdsSized_step_iff`: which commands keep the values sized.
* `run_holdsSized_iff`: which runs do.
* `samplePercentages_not_sized`: a run that does not.
-/

namespace DeskCalculator

namespace Ratio

/-- Neither term has more bits than the limit. -/
def Sized (v : Ratio) : Prop := v.bitLength ≤ bitLimit

instance (v : Ratio) : Decidable v.Sized :=
  inferInstanceAs (Decidable (v.bitLength ≤ bitLimit))

theorem checkSize_of_not_sized
    {v : Ratio} (h : ¬v.Sized) :
    v.checkSize = .error .overflow :=
  if_pos (Nat.not_le.mp h)

theorem sized_of_checkSize
    {v w : Ratio} (h : v.checkSize = .ok w) :
    v.Sized := by
  by_contra hsized
  rw [checkSize_of_not_sized hsized] at h
  cases h

theorem sized_ofRat_iff
    {q : ℚ} :
    (ofRat q).Sized ↔ q.num.natAbs < 2 ^ bitLimit ∧ q.den < 2 ^ bitLimit :=
  bitLength_ofRat_le_iff q bitLimit

theorem sized_neg_ofRat
    {q : ℚ} :
    (ofRat (-q)).Sized ↔ (ofRat q).Sized := by
  rw [sized_ofRat_iff, sized_ofRat_iff, Rat.num_neg_eq_neg_num, Rat.den_neg_eq_den,
    Int.natAbs_neg]

theorem sized_zero : Sized zero := by
  have hpos : 0 < bitLimit := by decide
  rw [← ofRat_zero, sized_ofRat_iff]
  exact ⟨Nat.two_pow_pos _, Nat.one_lt_two_pow hpos.ne'⟩

theorem not_sized_ofNat
    {n : Nat} (hn : 2 ^ bitLimit ≤ n) :
    ¬(ofNat n).Sized := by
  rw [← ofRat_natCast, sized_ofRat_iff, Rat.num_natCast, Int.natAbs_natCast]
  exact fun h => absurd h.1 (Nat.not_lt.mpr hn)

theorem LowestTerms.sized_neg
    {v : Ratio} (hv : LowestTerms v) (h : v.Sized) :
    v.neg.Sized := by
  obtain ⟨q, rfl⟩ := hv.exists_ofRat
  rw [ofRat_neg]
  exact sized_neg_ofRat.mpr h

/-- A natural number times a power of a radix with any exponent. -/
theorem sized_scaled
    {n radix a k : Nat} (hn : n < 2 ^ a) (hpos : 0 < radix) (hradix : radix ≤ 2 ^ 4)
    {scale : Int} (hscale : scale.natAbs ≤ k) (hlimit : a + 4 * k < bitLimit) :
    (ofRat (n * (radix : ℚ) ^ scale)).Sized := by
  have hpower : radix ^ scale.natAbs ≤ 2 ^ (4 * k) :=
    calc
      radix ^ scale.natAbs ≤ (2 ^ 4) ^ scale.natAbs := Nat.pow_le_pow_left hradix _
      _ ≤ (2 ^ 4) ^ k := Nat.pow_le_pow_right (by decide) hscale
      _ = 2 ^ (4 * k) := (Nat.pow_mul 2 4 k).symm
  have hproduct : n * radix ^ scale.natAbs < 2 ^ bitLimit :=
    calc
      n * radix ^ scale.natAbs < 2 ^ a * 2 ^ (4 * k) :=
        Nat.mul_lt_mul_of_lt_of_le hn hpower (Nat.two_pow_pos _)
      _ = 2 ^ (a + 4 * k) := (Nat.pow_add 2 a (4 * k)).symm
      _ ≤ 2 ^ bitLimit := Nat.pow_le_pow_right (by decide) hlimit.le
  have hpower_pos : 0 < radix ^ scale.natAbs := Nat.pow_pos hpos
  rw [sized_ofRat_iff]
  rcases Int.natAbs_eq scale with h | h
  · have hvalue : (n : ℚ) * (radix : ℚ) ^ scale = ((n * radix ^ scale.natAbs : Nat) : ℚ) := by
      rw [h, zpow_natCast, Int.natAbs_natCast]
      push_cast
      rfl
    rw [hvalue, Rat.num_natCast, Rat.den_natCast, Int.natAbs_natCast]
    exact ⟨hproduct, Nat.one_lt_two_pow (by decide)⟩
  · have hvalue : (n : ℚ) * (radix : ℚ) ^ scale = n / (radix ^ scale.natAbs : Nat) := by
      rw [h, zpow_neg, zpow_natCast, Int.natAbs_neg, Int.natAbs_natCast, div_eq_mul_inv]
      push_cast
      rfl
    obtain ⟨hnum, hden⟩ := terms_div_le n hpower_pos.ne'
    rw [hvalue]
    refine ⟨hnum.trans_lt ?_, hden.trans_lt ?_⟩
    · exact hn.trans_le (Nat.pow_le_pow_right (by decide) (by omega))
    · exact hpower.trans_lt (Nat.pow_lt_pow_right (by decide) (by omega))

end Ratio

/-! ### Numbers being typed -/

namespace Entry.Legible

variable {rules : EntryRules} {e : Entry}

theorem natAbs_exponentValue_lt
    (h : e.Legible rules) {z : Int} (hz : e.exponentValue? rules.radix = some z) :
    z.natAbs < 10 ^ maxExponentDigits := by
  unfold exponentValue? at hz
  split at hz
  · rw [← Option.some.inj hz]
    decide
  · rename_i x hx
    obtain ⟨hten, hdigits, hlen⟩ := h.exponent x hx
    have hread := Magnitude.ofDigits?_eq (by decide) (by decide) (hdigits.readable (by decide))
    rw [hten, hread] at hz
    have hlt : natOf 10 x.digits < 10 ^ maxExponentDigits :=
      (hdigits.natOf_lt_pow (by decide)).trans_le (Nat.pow_le_pow_right (by decide) hlen)
    have hvalue := Option.some.inj hz
    dsimp only at hvalue
    rw [Magnitude.toNat_ofNat] at hvalue
    split at hvalue <;> omega

/-- A number of at most 64 digits with an exponent of at most four is sized. -/
theorem value_sized
    (h : e.Legible rules) (hpos : 0 < rules.radix)
    (hradix : rules.radix ≤ 16) (hmax : rules.maxDigits ≤ 64) :
    (e.value rules.radix).Sized := by
  have hcount := h.count_le
  have hn : natOf rules.radix e.digits < 2 ^ 256 :=
    calc
      natOf rules.radix e.digits < rules.radix ^ e.digits.length := h.digits.natOf_lt_pow hradix
      _ ≤ 16 ^ e.digits.length := Nat.pow_le_pow_left hradix _
      _ ≤ 16 ^ 64 := Nat.pow_le_pow_right (by decide) (by omega)
      _ = 2 ^ 256 := by norm_num
  have hfraction : e.fractionLength ≤ 64 := by
    unfold fractionLength
    split <;> omega
  unfold value
  split
  · exact Ratio.sized_zero
  · have hdigits : ScaledNumber.ofDigits? e.digits rules.radix =
        some (.ofNat (natOf rules.radix e.digits)) := by
      rw [ScaledNumber.ofDigits?, Magnitude.ofDigits?_eq hpos hradix (h.digits.readable hradix)]
      rfl
    simp only [hdigits]
    split
    · rename_i mantissa z hmantissa hz
      have hexponent := h.natAbs_exponentValue_lt hz
      have hscale : (z - e.fractionLength).natAbs ≤ 10 ^ maxExponentDigits + 64 := by omega
      have hsized := Ratio.sized_scaled hn hpos hradix hscale (by decide)
      rw [← Option.some.inj hmantissa, Ratio.ofMantissaScale_eq _ _ hpos.ne', mul_assoc]
      cases e.negative with
      | false => simpa [ScaledNumber.signFactor] using hsized
      | true => simpa [ScaledNumber.signFactor] using Ratio.sized_neg_ofRat.mpr hsized
    · exact Ratio.sized_zero

end Entry.Legible

/-! ### Calculations -/

namespace CalculationMode

open Ratio

variable {F : RealFunctions} {c : CalculationMode}

/-- In lowest terms and sized. -/
def Fits (v : Ratio) : Prop := LowestTerms v ∧ v.Sized

theorem adjust_of_not_onWords
    (hc : c.onWords = false) (v : Ratio) :
    c.adjust v = v := by
  rw [adjust, hc]
  rfl

/-- Operators refuse what is too large. -/
theorem binary_of_not_sized
    {op : Operator} {a b r : Ratio} (h : c.combine F op a b = .ok r) (hr : ¬r.Sized) :
    c.binary F op a b = .error .overflow := by
  rw [CalculationMode.binary, h]
  show (r.checkSize >>= fun v => pure (c.adjust v)) = _
  rw [checkSize_of_not_sized hr]
  rfl

/-- So do functions. -/
theorem unary_of_not_sized
    (hc : c.onWords = false) {f : ScientificFunction} {x r : Ratio} {inverse : Bool}
    {u : AngleUnit} (h : Scientific.value F f x inverse u = .ok r) (hr : ¬r.Sized) :
    c.unary F f x inverse u = .error .overflow := by
  have happly : Scientific.apply F f x inverse u = .error .overflow := by
    rw [Scientific.apply, h]
    exact checkSize_of_not_sized hr
  rw [CalculationMode.unary, if_neg (by simp [hc]), happly]
  rfl

theorem sized_of_apply
    {f : ScientificFunction} {x r : Ratio} {inverse : Bool} {u : AngleUnit}
    (h : Scientific.apply F f x inverse u = .ok r) :
    r.Sized :=
  sized_of_checkSize (Scientific.value_checkSize_of_apply h).2

/-- With exact ratios all results are sized. -/
theorem keeps_fits
    (hc : c.onWords = false) :
    c.Keeps F Fits where
  zero := ⟨lowestTerms_zero, sized_zero⟩
  neg hv := by
    rw [adjust_of_not_onWords hc]
    exact ⟨hv.1.neg, hv.1.sized_neg hv.2⟩
  adjust hv := by rwa [adjust_of_not_onWords hc]
  binary ha hb h := by
    refine ⟨(closed_lowestTerms c).binary ha.1 hb.1 h, ?_⟩
    obtain ⟨s, -, hsize, rfl⟩ := exists_combine_of_binary h
    rw [adjust_of_not_onWords hc]
    exact sized_of_checkSize hsize
  unary ha h := by
    refine ⟨(closed_lowestTerms c).unary ha.1 h, ?_⟩
    unfold CalculationMode.unary at h
    rw [if_neg (by simp [hc])] at h
    obtain ⟨s, happly, h⟩ := CalcError.bind_eq_ok_iff.mp h
    rw [← Except.ok.inj h, adjust_of_not_onWords hc]
    exact sized_of_apply happly

end CalculationMode

/-! ### Engines -/

namespace Engine

open CalculationMode

variable {F : RealFunctions} {m : Engine}

/-- Every value held is sized. -/
def HoldsSized (m : Engine) : Prop := Holds Ratio.Sized m

theorem Holds.fits
    (h : Holds Ratio.LowestTerms m) (hsized : HoldsSized m) :
    Holds Fits m where
  current := ⟨h.current, hsized.current⟩
  held := ⟨h.held, hsized.held⟩
  memory v hv := ⟨h.memory v hv, hsized.memory v hv⟩
  pending t ht := ⟨h.pending t ht, hsized.pending t ht⟩
  groups g hg t ht := ⟨h.groups g hg t ht, hsized.groups g hg t ht⟩

theorem Holds.sized
    (h : Holds Fits m) :
    HoldsSized m where
  current := h.current.2
  held := h.held.2
  memory v hv := (h.memory v hv).2
  pending t ht := (h.pending t ht).2
  groups g hg t ht := (h.groups g hg t ht).2

/-- The number being typed is sized. -/
theorem Reachable.settlesIn_fits
    (h : Reachable F m) (hreal : m.config.onWords = false) (hprecision : m.config.precision ≤ 64) :
    SettlesIn m.mode Fits m := by
  intro hentering
  rw [adjust_of_not_onWords hreal]
  refine ⟨m.entryValue_lowestTerms, ?_⟩
  obtain ⟨hpos, hradix⟩ := radix_bounds m
  have hmax : m.entryRules.maxDigits ≤ 64 := by
    simpa [entryRules, hreal] using hprecision
  unfold typedValue
  split
  · exact (h.soundEntry hentering).value_sized hpos hradix hmax
  · exact Ratio.sized_zero

/-- With exact ratios a change of the width leaves the values. -/
theorem Holds.setWordSize_of_not_onWords
    (hreal : m.config.onWords = false) (h : Holds Fits m.settle) (w : WordSize) :
    Holds Fits (m.setWordSize w).engine := by
  simp only [setWordSize, settle_config, hreal, Bool.false_eq_true, if_false]
  exact { h with }

/-- A command keeps the values sized, if a percentage or memory sum is. -/
theorem Reachable.holdsSized_execute
    (h : Reachable F m) (hreal : m.config.onWords = false) (hprecision : m.config.precision ≤ 64)
    (hsized : HoldsSized m) {k : Command} (hresult : ∀ v ∈ m.uncheckedResult? k, v.Sized) :
    HoldsSized (m.execute F k).engine := by
  have hm : HoldsIn m.mode Fits m := ⟨h.holds_lowestTerms.fits hsized, rfl⟩
  have hsettles := h.settlesIn_fits hreal hprecision
  have hlowest : HoldsIn m.mode Ratio.LowestTerms m := ⟨h.holds_lowestTerms, rfl⟩
  have hfits : ∀ v ∈ m.uncheckedResult? k, Fits (m.mode.adjust v) := by
    intro v hv
    rw [adjust_of_not_onWords hreal]
    exact ⟨hlowest.uncheckedResult_lowestTerms (closed_lowestTerms _) k v hv, hresult v hv⟩
  cases k with
  | wordSize w =>
      exact (Holds.setWordSize_of_not_onWords hreal (hm.settle hsettles).toHolds w).sized
  | _ => exact (hm.execute_of_keeps (keeps_fits hreal) hsettles hfits (by simp)).toHolds.sized

/-- With exact ratios a percentage is at hand afterwards. -/
theorem step_percent_current
    (hreal : m.config.onWords = false) (hm : m.failed = false) {r : Ratio}
    (hr : m.leaveEquals.settle.percentOf m.leaveEquals.settle.current = .ok r) :
    (m.step F .percent).1.current = r := by
  have hmode : m.leaveEquals.settle.mode.onWords = false := by simp [mode, hreal]
  rw [step_eq F hm]
  simp only [execute, percent, hr, presentOperand, adjust_of_not_onWords hmode]

/-- A percentage or memory sum is among the values held afterwards. -/
theorem HoldsSized.uncheckedResult
    (hreal : m.config.onWords = false) (hm : m.failed = false) {k : Command}
    (h : HoldsSized (m.step F k).1) :
    ∀ v ∈ m.uncheckedResult? k, v.Sized := by
  have hmode : m.settle.mode.onWords = false := by simp [mode, hreal]
  intro v hv
  cases k with
  | percent =>
      rw [← step_percent_current (F := F) hreal hm (percentOf_of_uncheckedResult? hv)]
      exact h.current
  | memory a =>
      rw [step_eq F hm] at h
      cases a with
      | add | sub =>
          have hmemory := h.memory _ rfl
          rwa [adjust_of_not_onWords hmode, Option.some.inj hv] at hmemory
      | _ => cases hv
  | _ => cases hv

/--
With exact ratios of at most 64 digits, a command in a state without error keeps
the values sized exactly if it is not a percentage or memory sum beyond the limit.
-/
theorem Reachable.holdsSized_step_iff
    (h : Reachable F m) (hreal : m.config.onWords = false) (hprecision : m.config.precision ≤ 64)
    (hm : m.failed = false) (hsized : HoldsSized m) (k : Command) :
    HoldsSized (m.step F k).1 ↔ ∀ v ∈ m.uncheckedResult? k, v.Sized := by
  refine ⟨fun hstep => hstep.uncheckedResult hreal hm, fun hresult => ?_⟩
  exact step_engine F hsized (h.holdsSized_execute hreal hprecision hsized hresult)
    fun _ hm => { hm with }

/-- A state with an error passes its values on, or they are cleared. -/
theorem HoldsSized.step_of_failed
    (h : HoldsSized m) (hm : m.failed = true) (k : Command) :
    HoldsSized (m.step F k).1 := by
  rcases step_failed_cases (F := F) hm k with heq | heq
  · rwa [heq]
  · rw [heq]
    have hmode : HoldsIn m.mode Ratio.Sized m := ⟨h, rfl⟩
    exact (hmode.clear Ratio.sized_zero).toHolds

/-! ### Runs -/

/--
With exact ratios of at most 64 digits, operators and functions refuse every
result above the limit, and all values held along a run are sized exactly if
every percentage and every memory sum along it is.
-/
theorem run_holdsSized_iff
    (config : Config) (settings : Settings) (hreal : config.onWords = false)
    (hprecision : config.precision ≤ 64) (cs : List Command) :
    ((∀ before, before <+: cs → HoldsSized ((Engine.new config settings).run F before)) ↔
        ∀ before k, before ++ [k] <+: cs →
          ((Engine.new config settings).run F before).failed = false →
            ∀ v ∈ ((Engine.new config settings).run F before).uncheckedResult? k, v.Sized) ∧
      ∀ m : Engine, m.config.onWords = false →
        (∀ op a b r, m.mode.combine F op a b = .ok r → ¬r.Sized →
            m.mode.binary F op a b = .error .overflow) ∧
          ∀ f x inverse u r, Scientific.value F f x inverse u = .ok r → ¬r.Sized →
            m.mode.unary F f x inverse u = .error .overflow := by
  have hreachable : ∀ before, Reachable F ((Engine.new config settings).run F before) :=
    fun before => (Reachable.new config settings).run F before
  have hconfig : ∀ before, ((Engine.new config settings).run F before).config.onWords = false ∧
      ((Engine.new config settings).run F before).config.precision ≤ 64 := by
    intro before
    rw [run_config]
    exact ⟨hreal, max_le hprecision (by decide)⟩
  refine ⟨⟨fun hsized before k hk hm => ?_, fun hresult before hbefore => ?_⟩,
    fun m hm => ⟨?_, ?_⟩⟩
  · have hle := (List.prefix_append before [k]).trans hk
    obtain ⟨hwords, hdigits⟩ := hconfig before
    have hstep := hsized _ hk
    rw [run_append, run_cons, run_nil] at hstep
    exact ((hreachable before).holdsSized_step_iff hwords hdigits hm (hsized _ hle) k).mp hstep
  · induction before using List.reverseRecOn with
    | nil => exact holds_new Ratio.sized_zero config settings
    | append_singleton before k ih =>
        have hm := ih ((List.prefix_append before [k]).trans hbefore)
        obtain ⟨hwords, hdigits⟩ := hconfig before
        rw [run_append, run_cons, run_nil]
        cases hfailed : ((Engine.new config settings).run F before).failed with
        | true => exact hm.step_of_failed hfailed k
        | false =>
            exact ((hreachable before).holdsSized_step_iff hwords hdigits hfailed hm k).mpr
              (hresult before k hbefore hfailed)
  · exact fun op a b r hr hsized => binary_of_not_sized hr hsized
  · exact fun f x inverse u r hr hsized => unary_of_not_sized hm hr hsized

/-- All values along the sum `2 + 3` are sized. -/
theorem sampleSum_holdsSized :
    (Engine.new {} {}).config.onWords = false ∧ (Engine.new {} {}).config.precision ≤ 64 ∧
      HoldsSized sampleSum := by
  have hrun := (run_holdsSized_iff (F := .native) {} {} rfl (by decide)
    [.digit 2, .binary .add, .digit 3]).1.mpr
  refine ⟨rfl, by decide, hrun ?_ _ (List.prefix_refl _)⟩
  intro before k hk _ v hv
  have hmem : k ∈ [Command.digit 2, .binary .add, .digit 3] :=
    hk.subset (List.mem_append_right _ List.mem_cons_self)
  have hnone : ∀ c ∈ [Command.digit 2, .binary .add, .digit 3],
      ∀ m : Engine, m.uncheckedResult? c = none := by
    simp [uncheckedResult?]
  rw [hnone k hmem] at hv
  cases hv

/-! ### Percentages of a pending sum -/

/-- The percentage of a left operand that is a multiple of a hundred. -/
theorem percentOf_ofNat
    {a : Nat} (hlast : m.pending.getLast? = some (.ofNat (100 * a), .add)) (b : Nat) :
    m.percentOf (.ofNat b) = .ok (.ofNat (a * b)) := by
  have hhundred : Ratio.ofInt 100 = Ratio.ofRat 100 := by
    rw [← Ratio.ofRat_intCast]
    rfl
  have hquotient : ((100 * a * b : Nat) : ℚ) / 100 = (a * b : Nat) := by
    push_cast
    ring
  simp only [percentOf, hlast]
  rw [Ratio.ofNat_mul, hhundred, ← Ratio.ofRat_natCast, Ratio.ofRat_div_ofRat,
    if_neg (by norm_num), hquotient, Ratio.ofRat_natCast]

/-- In a pending sum each percentage multiplies the value at hand. -/
theorem run_percent
    {a b : Nat} (n : Nat) (hreal : m.config.onWords = false) (hm : m.failed = false)
    (hequals : m.afterEquals = false) (hentering : m.entering = false)
    (hlast : m.pending.getLast? = some (.ofNat (100 * a), .add)) (hcurrent : m.current = .ofNat b) :
    (m.run F (List.replicate n .percent)).failed = false ∧
      (m.run F (List.replicate n .percent)).current = .ofNat (a ^ n * b) := by
  induction n generalizing m b with
  | zero => simpa using ⟨hm, hcurrent⟩
  | succ n ih =>
      have hstep : (m.step F .percent).1 =
          (m.presentOperand (.ofNat (a * b)) (m.lineText (.ofNat (a * b)))).engine := by
        rw [step_eq F hm]
        simp only [execute, percent, leaveEquals_of_not_afterEquals hequals,
          settle_of_not_entering hentering, hcurrent, percentOf_ofNat hlast,
          adjust_of_not_onWords (show m.mode.onWords = false from hreal)]
        rfl
      have hrest := ih (m := (m.step F .percent).1) (b := a * b) (by rwa [hstep]) (by rwa [hstep])
        (by rwa [hstep]) (by rwa [hstep]) (by rwa [hstep]) (by rw [hstep]; rfl)
      rw [List.replicate_succ, run_cons]
      rwa [pow_succ, Nat.mul_assoc]

/-- The same right after the left operand and the addition. -/
theorem HasOperand.run_add_percent
    {m₀ : Engine} {a : Nat} (h : HasOperand m₀ m [] [] (.ofNat (100 * a)))
    (hreal : m₀.config.onWords = false) (n : Nat) :
    (m.run F (.binary .add :: List.replicate n .percent)).failed = false ∧
      (m.run F (.binary .add :: List.replicate n .percent)).current =
        .ofNat (a ^ n * (100 * a)) := by
  obtain ⟨htaken, hentering, hright⟩ := h.takeLeftOperand
  have hfold : m.takeLeftOperand.1.foldPending F (m.threshold .add) m.takeLeftOperand.2 =
      .ok (.ofNat (100 * a), []) := by
    rw [foldPending, htaken.pending, hright]
    exact Chain.fold_of_not_eligible _ (by simp) _
  have hwaiting : Chain.Waiting m.config.precedence m.takeLeftOperand.1.pending := by
    rw [htaken.pending]
    exact Chain.waiting_nil _
  have hstep := step_binary_of_waiting (F := F) hwaiting h.failed h.inverseArmed .add
  rw [hfold] at hstep
  rw [run_cons, hstep]
  exact run_percent n (by rw [withOperator, htaken.same.config, hreal]) htaken.failed rfl hentering
    rfl rfl

/-- A one with an exponent is a power of ten. -/
theorem value_of_exponent
    {e : Entry} {k : Nat} (hdigits : e.digits = ['1']) (hpoint : e.point = none)
    (hsign : e.negative = false) (hexponent : e.exponentValue? 10 = some (k : Int)) :
    e.value 10 = .ofNat (10 ^ k) := by
  have hone : ScaledNumber.ofDigits? ['1'] 10 = some (.ofNat 1) :=
    congrArg (Option.map _) (Magnitude.ofDigits?_eq (by decide) (by decide)
      (DigitsOf.readable (by decide) (by decide)))
  rw [Entry.value, if_neg (by simp [hdigits]), hdigits, hone, hexponent]
  simp only [hsign, Entry.fractionLength, hpoint]
  rw [Ratio.ofMantissaScale_eq _ _ (by decide), ← Ratio.ofRat_natCast]
  simp [ScaledNumber.signFactor]

/-- The literal `1e+9999`. -/
def sampleHuge : Literal (Engine.new {} {}).entryRules where
  keys := [.digit 1, .exponent, .digit 9, .digit 9, .digit 9, .digit 9]
  entry := { digits := ['1'], exponent := some { digits := ['9', '9', '9', '9'] } }
  keys_ne_nil := List.cons_ne_nil _ _
  accepted := by decide

/-- A literal typed on a new engine. -/
theorem literal_new
    (l : Literal (Engine.new {} {}).entryRules) :
    ((Engine.new {} {}).meaning F).literal l = l.entry.value 10 :=
  adjust_of_not_onWords (c := (Engine.new {} {}).mode) rfl _

theorem exponentValue_sampleHuge :
    sampleHuge.entry.exponentValue? 10 = some ((9999 : Nat) : Int) := by
  have hdigits : DigitsOf 10 ['9', '9', '9', '9'] := by decide
  have hnines := Magnitude.ofDigits?_eq (by decide) (by decide) (hdigits.readable (by decide))
  simp only [sampleHuge, Entry.exponentValue?, hnines, Option.map_some, Magnitude.toNat_ofNat]
  rfl

theorem meaning_sampleHuge
    {k : Nat} (hk : k = 9999) :
    ((Engine.new {} {}).meaning F).literal sampleHuge = .ofNat (10 ^ k) := by
  rw [literal_new]
  refine value_of_exponent rfl rfl rfl ?_
  rw [hk, exponentValue_sampleHuge]

theorem two_pow_le_ten_pow
    (n : Nat) :
    2 ^ (23 * n) ≤ 10 ^ (7 * n) := by
  rw [Nat.pow_mul, Nat.pow_mul]
  exact Nat.pow_le_pow_left (by decide) n

/-- The sum of `1e+9999` and seven times a percentage of it. -/
def samplePercentages : Engine :=
  (Engine.new {} {}).run .native
    (sampleHuge.keys.map EntryKey.command ++ .binary .add :: List.replicate 7 .percent)

/-- The percentages are not refused, and the last one is not sized. -/
theorem samplePercentages_not_sized :
    Reachable .native samplePercentages ∧ samplePercentages.config.onWords = false ∧
      samplePercentages.config.precision ≤ 64 ∧ samplePercentages.failed = false ∧
      Ratio.bitLimit < samplePercentages.current.bitLength ∧ ¬HoldsSized samplePercentages := by
  obtain ⟨k, hk⟩ : ∃ k, 2 + k = 9999 := ⟨9997, rfl⟩
  have hoperand := run_literal_keys (F := .native) (by decide)
    (Cleared.new (F := .native) {} {}).awaits sampleHuge
  rw [meaning_sampleHuge hk, pow_add] at hoperand
  have hrun := hoperand.run_add_percent (F := .native) rfl 7
  rw [← run_append] at hrun
  obtain ⟨hfailed, hcurrent⟩ := hrun
  have hconfig : samplePercentages.config = (Engine.new {} {}).config := run_config _ _ _
  have hlarge : Ratio.bitLimit < samplePercentages.current.bitLength := by
    rw [samplePercentages, hcurrent]
    refine Nat.not_le.mp (Ratio.not_sized_ofNat ?_)
    obtain ⟨n, hlow, hhigh⟩ : ∃ n, Ratio.bitLimit ≤ 23 * n ∧ 7 * n ≤ 79978 :=
      ⟨11425, by decide, by decide⟩
    calc
      2 ^ Ratio.bitLimit ≤ 2 ^ (23 * n) := Nat.pow_le_pow_right (by decide) hlow
      _ ≤ 10 ^ (7 * n) := two_pow_le_ten_pow n
      _ ≤ 10 ^ (k * 7 + (2 + k)) := Nat.pow_le_pow_right (by decide) (by omega)
      _ = (10 ^ k) ^ 7 * (10 ^ 2 * 10 ^ k) := by rw [pow_add, pow_mul, pow_add]
  refine ⟨(Reachable.new {} {}).run .native _, by rw [hconfig]; rfl, by rw [hconfig]; decide,
    hfailed, hlarge, fun h => ?_⟩
  exact absurd h.current (Nat.not_le.mpr hlarge)

end Engine
end DeskCalculator
