import DeskCalculator.Proofs.Ratio.Power

/-!
# Operations keep lowest terms

A ratio in lowest terms is the one of its value, and what the operations make of
such ratios is again of this kind.

**Results.**
* `LowestTerms.add` and its likes: sums, products, quotients, moduli, powers.
-/

namespace DeskCalculator
namespace Ratio

variable {a b r : Ratio}

theorem LowestTerms.exists_ofRat
    (ha : LowestTerms a) :
    ∃ q, a = ofRat q :=
  ⟨a.toRat, (lowestTerms_iff a).mp ha⟩

/-- An integer in lowest terms is the ratio of its numerator. -/
theorem LowestTerms.exists_ofInt
    (ha : LowestTerms a) (hint : a.isInteger = true) :
    ∃ z, a = ofInt z := by
  obtain ⟨q, rfl⟩ := ha.exists_ofRat
  rw [isInteger_ofRat] at hint
  exact ⟨q.num, by rw [← ofRat_intCast, (Rat.den_eq_one_iff q).mp hint]⟩

theorem LowestTerms.eq_ofInt
    {z : Int} (ha : LowestTerms a) (hz : a.toRat = z) :
    a = ofInt z := by
  rw [(lowestTerms_iff a).mp ha, hz, ofRat_intCast]

/-! ### Numbers -/

theorem lowestTerms_ofInt
    (z : Int) :
    LowestTerms (ofInt z) := by
  rw [← ofRat_intCast]
  exact lowestTerms_ofRat z

theorem lowestTerms_ofNat
    (n : Nat) :
    LowestTerms (ofNat n) := by
  rw [← ofRat_natCast]
  exact lowestTerms_ofRat n

theorem lowestTerms_zero : LowestTerms zero := by
  rw [← ofRat_zero]
  exact lowestTerms_ofRat 0

theorem lowestTerms_one : LowestTerms one := by
  rw [← ofRat_one]
  exact lowestTerms_ofRat 1

/-! ### Operations -/

theorem LowestTerms.neg
    (ha : LowestTerms a) :
    LowestTerms a.neg := by
  obtain ⟨p, rfl⟩ := ha.exists_ofRat
  rw [ofRat_neg]
  exact lowestTerms_ofRat _

theorem LowestTerms.abs
    (ha : LowestTerms a) :
    LowestTerms a.abs := by
  unfold Ratio.abs
  split
  · exact ha.neg
  · exact ha

theorem LowestTerms.add
    (ha : LowestTerms a) (hb : LowestTerms b) :
    LowestTerms (a + b) := by
  rw [ha.wellFormed.add_eq hb.wellFormed]
  exact lowestTerms_ofRat _

theorem LowestTerms.sub
    (ha : LowestTerms a) (hb : LowestTerms b) :
    LowestTerms (a - b) := by
  rw [ha.wellFormed.sub_eq hb.wellFormed]
  exact lowestTerms_ofRat _

theorem LowestTerms.mul
    (ha : LowestTerms a) (hb : LowestTerms b) :
    LowestTerms (a * b) := by
  rw [ha.wellFormed.mul_eq hb.wellFormed]
  exact lowestTerms_ofRat _

theorem LowestTerms.div
    (ha : LowestTerms a) (hb : LowestTerms b) (h : a.div b = .ok r) :
    LowestTerms r := by
  rw [ha.wellFormed.div_eq hb.wellFormed] at h
  split at h
  · cases h
  · rw [← Except.ok.inj h]
    exact lowestTerms_ofRat _

theorem LowestTerms.truncate
    (ha : LowestTerms a) :
    LowestTerms a.truncate := by
  obtain ⟨p, rfl⟩ := ha.exists_ofRat
  rw [truncate_ofRat]
  exact lowestTerms_ofInt _

theorem LowestTerms.floor
    (ha : LowestTerms a) :
    LowestTerms a.floor := by
  obtain ⟨p, rfl⟩ := ha.exists_ofRat
  rw [floor_ofRat]
  exact lowestTerms_ofInt _

theorem LowestTerms.mod
    (ha : LowestTerms a) (hb : LowestTerms b) (h : a.mod b = .ok r) :
    LowestTerms r := by
  obtain ⟨p, rfl⟩ := ha.exists_ofRat
  obtain ⟨q, rfl⟩ := hb.exists_ofRat
  rw [mod_ofRat] at h
  split at h
  · cases h
  · rw [← Except.ok.inj h]
    exact lowestTerms_ofRat _

theorem LowestTerms.intPow
    {log2 : Float → Float} {n : Int} (ha : LowestTerms a) (h : a.intPow log2 n = .ok r) :
    LowestTerms r := by
  obtain ⟨p, rfl⟩ := ha.exists_ofRat
  rw [((intPow_outcome log2 p n).of_ok h).2]
  exact lowestTerms_ofRat _

end Ratio
end DeskCalculator
