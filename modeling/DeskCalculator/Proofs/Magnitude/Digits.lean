import DeskCalculator.Proofs.Magnitude.Division
import DeskCalculator.Proofs.Magnitude.Product
import DeskCalculator.Proofs.Numeral.Digits

/-!
# Digits of magnitudes

Writing takes one block of digits after the other from the low end and so writes
the digits of the number; reading multiplies and adds, one digit at a time.

**Results.**
* `toDigits_eq`: a normalized magnitude is written with the digits of its value.
* `ofDigits?_eq`: digits are read as the number that they stand for.
-/

namespace DeskCalculator
namespace Magnitude

variable {radix : Nat}

/-! ### Writing -/

/-- A block has a digit at least and is a limb. -/
theorem blockLength_bounds
    (htwo : 2 ≤ radix) (hradix : radix ≤ 16) :
    0 < blockLength radix ∧ radix ^ blockLength radix < 2 ^ 32 := by
  have hblock : ∀ r < 17, 2 ≤ r → 0 < blockLength r ∧ r ^ blockLength r < 2 ^ 32 := by
    decide +kernel
  exact hblock radix (by omega) htwo

/-- The top block has no zeros in front. -/
theorem prependBlock_unpadded
    (htwo : 2 ≤ radix) {k r : Nat} (hr : r < radix ^ k) (acc : List Char) :
    prependBlock radix false k r acc = (Nat.digits radix r).reverse.map digitChar ++ acc := by
  induction k generalizing r acc with
  | zero =>
      have hzero : r = 0 := by simpa using hr
      simp [prependBlock, hzero]
  | succ k ih =>
      rcases Nat.eq_zero_or_pos r with rfl | hpos
      · simp [prependBlock]
      · have hdiv : r / radix < radix ^ k := Nat.div_lt_of_lt_mul (by rwa [← Nat.pow_succ'])
        rw [prependBlock, if_neg (by simp [hpos.ne']), ih hdiv, Nat.digits_def' htwo hpos]
        simp

/-- The other blocks are filled up with zeros. -/
theorem prependBlock_padded
    (htwo : 2 ≤ radix) {k r : Nat} (hr : r < radix ^ k) (acc : List Char) :
    prependBlock radix true k r acc =
      (Nat.digits radix r ++ List.replicate (k - (Nat.digits radix r).length) 0).reverse.map
        digitChar ++ acc := by
  induction k generalizing r acc with
  | zero =>
      have hzero : r = 0 := by simpa using hr
      simp [prependBlock, hzero]
  | succ k ih =>
      have hdiv : r / radix < radix ^ k := Nat.div_lt_of_lt_mul (by rwa [← Nat.pow_succ'])
      rw [prependBlock, if_neg (by simp), ih hdiv]
      rcases Nat.eq_zero_or_pos r with rfl | hpos
      · simp [List.replicate_succ]
      · rw [Nat.digits_def' htwo hpos]
        simp

/-- The digits of a quotient and those of a remainder that fills its block. -/
theorem digits_div_mod
    (htwo : 2 ≤ radix) {k n : Nat} (hquot : 0 < n / radix ^ k) :
    Nat.digits radix (n % radix ^ k) ++
          List.replicate (k - (Nat.digits radix (n % radix ^ k)).length) 0 ++
        Nat.digits radix (n / radix ^ k) =
      Nat.digits radix n := by
  have hpow : 0 < radix ^ k := Nat.pow_pos (by omega)
  have hlen := (Nat.digits_length_le_iff (k := k) htwo (n % radix ^ k)).mpr (Nat.mod_lt n hpow)
  rw [Nat.digits_append_zeroes_append_digits htwo hquot, Nat.add_sub_cancel' hlen,
    Nat.mod_add_div]

/-- The divisor that cuts a block off is a limb that is not zero. -/
theorem blockDivisor_spec
    (htwo : 2 ≤ radix) (hradix : radix ≤ 16) :
    (UInt32.ofNat (radix ^ blockLength radix)).toNat = radix ^ blockLength radix ∧
      UInt32.ofNat (radix ^ blockLength radix) ≠ 0 := by
  have hdivisor : (UInt32.ofNat (radix ^ blockLength radix)).toNat =
      radix ^ blockLength radix :=
    UInt32.toNat_ofNat_of_lt' (blockLength_bounds htwo hradix).2
  refine ⟨hdivisor, fun hzero => ?_⟩
  have hpos : 0 < radix ^ blockLength radix := Nat.pow_pos (by omega)
  rw [hzero, UInt32.toNat_zero] at hdivisor
  omega

/-- Block by block the digits of the value are written. -/
theorem prependDigits_eq
    (htwo : 2 ≤ radix) (hradix : radix ≤ 16) {a : Magnitude} (ha : Normalized a)
    (acc : List Char) :
    prependDigits radix a acc = (Nat.digits radix a.toNat).reverse.map digitChar ++ acc := by
  induction hn : a.toNat using Nat.strong_induction_on generalizing a acc with
  | _ n ih =>
    subst hn
    obtain ⟨hlength, -⟩ := blockLength_bounds htwo hradix
    obtain ⟨hdivisor, hne⟩ := blockDivisor_spec htwo hradix
    have hpow : 1 < radix ^ blockLength radix := Nat.one_lt_pow hlength.ne' htwo
    obtain ⟨hq, hquot, hrem⟩ := divModLimb_spec a hne
    rw [hdivisor] at hquot hrem
    have hblock : a.toNat % radix ^ blockLength radix < radix ^ blockLength radix :=
      Nat.mod_lt _ (by omega)
    rw [prependDigits]
    rcases eq_or_ne a [] with rfl | hnil
    · simp
    have hpos := ha.toNat_pos hnil
    have hlt : a.toNat / radix ^ blockLength radix < a.toNat := Nat.div_lt_self hpos hpow
    have hcompare : compare (divModLimb a (UInt32.ofNat (radix ^ blockLength radix))).1 a = .lt :=
      (hq.compare_eq_lt ha).mpr (by rwa [hquot])
    simp only [if_neg hnil, dif_pos hcompare, hrem]
    rw [ih _ hlt hq _ hquot]
    rcases Nat.eq_zero_or_pos (a.toNat / radix ^ blockLength radix) with hzero | hrest
    · -- this was the top block
      have hempty := hq.toNat_eq_zero.mp (hquot.trans hzero)
      have hwhole : a.toNat % radix ^ blockLength radix = a.toNat :=
        Nat.mod_eq_of_lt ((Nat.div_eq_zero_iff.mp hzero).resolve_left (by omega))
      rw [hempty, List.isEmpty_nil, Bool.not_true, prependBlock_unpadded htwo hblock, hzero,
        hwhole, Nat.digits_zero]
      rfl
    · have hfull : (divModLimb a (UInt32.ofNat (radix ^ blockLength radix))).1.isEmpty = false := by
        rw [List.isEmpty_eq_false_iff]
        intro hempty
        rw [hempty, toNat_nil] at hquot
        omega
      rw [hfull, Bool.not_false, prependBlock_padded htwo hblock, ← List.append_assoc,
        ← List.map_append, ← List.reverse_append, digits_div_mod htwo hrest]

/-- A normalized magnitude is written with the digits of its value. -/
theorem toDigits_eq
    (htwo : 2 ≤ radix) (hradix : radix ≤ 16) {a : Magnitude} (ha : Normalized a) :
    a.toDigits radix = digitsOf radix a.toNat := by
  unfold toDigits digitsOf
  simp only [ha.toNat_eq_zero]
  split
  · rfl
  · rw [prependDigits_eq htwo hradix ha, List.append_nil]

/-! ### Reading -/

/-- Reading on multiplies by the radix and adds, once for every digit. -/
theorem readDigits?_eq
    (hpos : 0 < radix) (hradix : radix ≤ 16) {cs : List Char} (hcs : Readable radix cs)
    {a : Magnitude} (ha : Normalized a) :
    ∃ b, readDigits? radix a cs = some b ∧ Normalized b ∧
      b.toNat = a.toNat * radix ^ cs.length + natOf radix cs := by
  induction cs generalizing a with
  | nil =>
      exact ⟨a, rfl, ha, by simp⟩
  | cons c cs ih =>
      obtain ⟨d, hd⟩ := hcs c List.mem_cons_self
      obtain ⟨hvalue, hlt⟩ := digitNat_of_radixDigit? hd
      have hm : (UInt64.ofNat radix).toNat = radix :=
        UInt64.toNat_ofNat_of_lt' (by omega : radix < 2 ^ 64)
      have hc : (UInt64.ofNat d).toNat = d := UInt64.toNat_ofNat_of_lt' (by omega : d < 2 ^ 64)
      have hmlt : (UInt64.ofNat radix).toNat < 2 ^ 32 := by omega
      have hclt : (UInt64.ofNat d).toNat < 2 ^ 32 := by omega
      have hnext := Normalized.mulLimbWithCarry ha hmlt (by omega) hclt
      have hnextValue := toNat_mulLimbWithCarry a hmlt hclt
      obtain ⟨b, hread, hb, hbvalue⟩ := ih (fun x hx => hcs x (List.mem_cons_of_mem _ hx)) hnext
      refine ⟨b, by rw [readDigits?, hd]; exact hread, hb, ?_⟩
      rw [hbvalue, hnextValue, hm, hc, natOf_cons, hvalue, List.length_cons, Nat.pow_succ]
      ring

/-- Digits are read as the number that they stand for. -/
theorem ofDigits?_eq
    (hpos : 0 < radix) (hradix : radix ≤ 16) {cs : List Char} (hcs : Readable radix cs) :
    ofDigits? cs radix = some (ofNat (natOf radix cs)) := by
  obtain ⟨b, hread, hb, hvalue⟩ := readDigits?_eq hpos hradix hcs normalized_nil
  rw [toNat_nil, Nat.zero_mul, Nat.zero_add] at hvalue
  rw [ofDigits?, hread, hb.eq_ofNat, hvalue]

/-- A text with a character that is no digit of the radix is not read. -/
theorem readable_of_readDigits?
    {cs : List Char} {a b : Magnitude} (h : readDigits? radix a cs = some b) :
    Readable radix cs := by
  induction cs generalizing a with
  | nil => exact fun c hc => absurd hc List.not_mem_nil
  | cons c cs ih =>
      rw [readDigits?] at h
      split at h
      · cases h
      · rename_i d hd
        exact List.forall_mem_cons.mpr ⟨⟨d, hd⟩, ih h⟩

/-- Digits are read, and nothing else. -/
theorem ofDigits?_eq_some_iff
    (hpos : 0 < radix) (hradix : radix ≤ 16) {cs : List Char} {a : Magnitude} :
    ofDigits? cs radix = some a ↔ Readable radix cs ∧ a = ofNat (natOf radix cs) := by
  constructor
  · intro h
    have hcs := readable_of_readDigits? h
    rw [ofDigits?_eq hpos hradix hcs] at h
    exact ⟨hcs, (Option.some.inj h).symm⟩
  · rintro ⟨hcs, rfl⟩
    exact ofDigits?_eq hpos hradix hcs

end Magnitude
end DeskCalculator
