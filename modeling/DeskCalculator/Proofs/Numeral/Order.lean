import DeskCalculator.Proofs.Numeral.Digits

/-!
# Digit strings in the order of their numbers

Of two digit strings without leading zeros the longer one stands for the larger
number, and strings of one length are in the order of their characters.

**Results.**
* `DigitsOf.natOf_lt_pow`: the number of a digit string is below a power of the
  radix.
* `DigitsOf.length_le_iff`: a string without leading zeros is as long as its
  number needs.
* `DigitsOf.lt_iff_natOf_lt`: the order of strings of one length.
* `DigitsOf.eq_of_natOf_eq`: of one length, only one string stands for a number.
-/

namespace DeskCalculator

theorem digitChar_lt_iff
    {a b : Nat} (ha : a < 16) (hb : b < 16) :
    digitChar a < digitChar b ↔ a < b := by
  have hall : ∀ a < 16, ∀ b < 16, (digitChar a < digitChar b ↔ a < b) := by decide
  exact hall a ha b hb

/-- Zeros in front do not count. -/
theorem natOf_dropWhile_zero
    (radix : Nat) (cs : List Char) :
    natOf radix (cs.dropWhile (· = '0')) = natOf radix cs := by
  induction cs with
  | nil => rfl
  | cons c cs ih =>
      by_cases hc : c = '0'
      · have hzero : digitNat '0' = 0 := by decide
        rw [List.dropWhile_cons_of_pos (by simpa using hc), ih, hc, natOf_cons, hzero,
          Nat.zero_mul, Nat.zero_add]
      · rw [List.dropWhile_cons_of_neg (by simpa using hc)]

theorem head?_dropWhile_zero_ne
    (cs : List Char) :
    (cs.dropWhile (· = '0')).head? ≠ some '0' := by
  intro h
  have hnot := List.head?_dropWhile_not (fun c : Char => decide (c = '0')) cs
  rw [h] at hnot
  simp at hnot

namespace DigitsOf

variable {radix : Nat} {cs ds : List Char}

theorem nil
    (radix : Nat) :
    DigitsOf radix [] := by
  simp [DigitsOf]

theorem of_cons
    {c : Char} (h : DigitsOf radix (c :: cs)) :
    (∃ d < radix, c = digitChar d) ∧ DigitsOf radix cs :=
  ⟨h c List.mem_cons_self, fun x hx => h x (List.mem_cons_of_mem c hx)⟩

theorem dropWhile
    (h : DigitsOf radix cs) (p : Char → Bool) :
    DigitsOf radix (cs.dropWhile p) :=
  fun c hc => h c ((List.dropWhile_suffix p).subset hc)

section

variable (hradix : radix ≤ 16)

include hradix

theorem natOf_lt_pow
    (h : DigitsOf radix cs) :
    natOf radix cs < radix ^ cs.length := by
  induction cs with
  | nil => simp
  | cons c cs ih =>
      obtain ⟨⟨d, hd, rfl⟩, hcs⟩ := h.of_cons
      have hlt := ih hcs
      rw [natOf_cons, digitNat_digitChar (by omega), List.length_cons, Nat.pow_succ]
      calc
        d * radix ^ cs.length + natOf radix cs < d * radix ^ cs.length + radix ^ cs.length := by
          omega
        _ = (d + 1) * radix ^ cs.length := by ring
        _ ≤ radix * radix ^ cs.length := Nat.mul_le_mul_right _ hd
        _ = radix ^ cs.length * radix := Nat.mul_comm _ _

/-- A first digit that is not zero counts. -/
theorem pow_le_natOf_cons
    {c : Char} (h : DigitsOf radix (c :: cs)) (hc : c ≠ '0') :
    radix ^ cs.length ≤ natOf radix (c :: cs) := by
  obtain ⟨⟨d, hd, rfl⟩, -⟩ := h.of_cons
  have hpos : 0 < d := by
    rw [Nat.pos_iff_ne_zero]
    rintro rfl
    exact hc rfl
  rw [natOf_cons, digitNat_digitChar (by omega)]
  exact (Nat.le_mul_of_pos_left _ hpos).trans (Nat.le_add_right _ _)

/-- A digit string without leading zeros has the length that its number needs. -/
theorem length_le_iff
    (hpos : 0 < radix) (h : DigitsOf radix cs) (hhead : cs.head? ≠ some '0') (k : Nat) :
    cs.length ≤ k ↔ natOf radix cs < radix ^ k := by
  constructor
  · intro hle
    exact (h.natOf_lt_pow hradix).trans_le (Nat.pow_le_pow_right hpos hle)
  · intro hlt
    by_contra hlong
    cases cs with
    | nil => simp at hlong
    | cons c cs =>
        have hc : c ≠ '0' := by simpa using hhead
        rw [List.length_cons] at hlong
        have hle := h.pow_le_natOf_cons hradix hc
        have hpow := Nat.pow_le_pow_right hpos (by omega : k ≤ cs.length)
        omega

/-- Strings of one length are in the order of their numbers. -/
theorem lt_iff_natOf_lt
    (hcs : DigitsOf radix cs) (hds : DigitsOf radix ds) (hlength : cs.length = ds.length) :
    cs < ds ↔ natOf radix cs < natOf radix ds := by
  induction cs generalizing ds with
  | nil =>
      rw [List.eq_nil_of_length_eq_zero hlength.symm]
      simp
  | cons c cs ih =>
      cases ds with
      | nil => cases hlength
      | cons d ds =>
          obtain ⟨⟨a, ha, rfl⟩, htail⟩ := hcs.of_cons
          obtain ⟨⟨b, hb, rfl⟩, htail'⟩ := hds.of_cons
          have hrest : cs.length = ds.length := Nat.succ_injective hlength
          have hlt := htail.natOf_lt_pow hradix
          have hlt' := htail'.natOf_lt_pow hradix
          rw [← hrest] at hlt'
          rw [List.cons_lt_cons_iff, digitChar_lt_iff (by omega) (by omega),
            ih htail htail' hrest, natOf_cons, natOf_cons, ← hrest,
            digitNat_digitChar (by omega), digitNat_digitChar (by omega)]
          rcases Nat.lt_trichotomy a b with hab | rfl | hab
          · have hstep : (a + 1) * radix ^ cs.length ≤ b * radix ^ cs.length :=
              Nat.mul_le_mul_right _ hab
            rw [Nat.add_mul, Nat.one_mul] at hstep
            simp only [hab, true_or, true_iff]
            omega
          · simp
          · have hstep : (b + 1) * radix ^ cs.length ≤ a * radix ^ cs.length :=
              Nat.mul_le_mul_right _ hab
            have hne : digitChar a ≠ digitChar b := by
              intro heq
              have hvalue := congrArg digitNat heq
              rw [digitNat_digitChar (by omega), digitNat_digitChar (by omega)] at hvalue
              exact hab.ne' hvalue
            rw [Nat.add_mul, Nat.one_mul] at hstep
            simp only [hab.asymm, hne, false_and, or_self, false_iff]
            omega

/-- Strings of one length that stand for one number are the same. -/
theorem eq_of_natOf_eq
    (hcs : DigitsOf radix cs) (hds : DigitsOf radix ds) (hlength : cs.length = ds.length)
    (heq : natOf radix cs = natOf radix ds) :
    cs = ds := by
  have hnlt : ¬cs < ds := mt (hcs.lt_iff_natOf_lt hradix hds hlength).mp heq.not_lt
  have hngt : ¬ds < cs := mt (hds.lt_iff_natOf_lt hradix hcs hlength.symm).mp heq.not_gt
  exact List.le_antisymm (List.not_lt.mp hngt) (List.not_lt.mp hnlt)

end

end DigitsOf
end DeskCalculator
