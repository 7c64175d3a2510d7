import DeskCalculator.Magnitude.Basic

/-!
# The order of magnitudes

Of two normalized magnitudes the longer one is the larger; of two of one length
the highest limb that differs decides.

**Results.**
* `lex_lt_of_compare_eq_lt`: whatever compares below is shorter, or as long and
  smaller in value, so that loops which descend in this order come to an end.
-/

namespace DeskCalculator
namespace Magnitude

/-- Order of two limb lists of one length; `low` is the order of the limbs below. -/
def compareLimbs (low : Ordering) : Magnitude → Magnitude → Ordering
  | x :: xs, y :: ys => compareLimbs ((compareOfLessAndEq x y).then low) xs ys
  | _, _ => low

/-- Order of the values of two normalized magnitudes. -/
def compare (a b : Magnitude) : Ordering :=
  (compareOfLessAndEq a.length b.length).then (compareLimbs .eq a b)

theorem eq_of_compareOfLessAndEq {α : Type} [LT α] [DecidableLT α] [DecidableEq α]
    {x y : α} (h : compareOfLessAndEq x y = .eq) : x = y := by
  simp only [compareOfLessAndEq] at h
  split at h
  · simp at h
  · split at h
    · assumption
    · simp at h

theorem toNat_lt_of_compareLimbs_eq_lt {low : Ordering} :
    ∀ {a b : Magnitude}, a.length = b.length → compareLimbs low a b = .lt →
      a.toNat < b.toNat ∨ (a.toNat = b.toNat ∧ low = .lt)
  | [], [], _, h => Or.inr ⟨rfl, h⟩
  | x :: xs, y :: ys, hlen, h => by
      have hx := x.toNat_lt
      have hy := y.toNat_lt
      simp only [toNat]
      rcases toNat_lt_of_compareLimbs_eq_lt (Nat.succ.inj hlen) h with hlt | ⟨heq, hthen⟩
      · left
        omega
      · -- the limbs above agree, so these two limbs decide, or else `low`
        rw [heq]
        rcases Ordering.then_eq_lt.mp hthen with hlt | ⟨hsame, hlow⟩
        · left
          have := UInt32.lt_iff_toNat_lt.mp (compareOfLessAndEq_eq_lt.mp hlt)
          omega
        · exact Or.inr ⟨by rw [eq_of_compareOfLessAndEq hsame], hlow⟩

/-- What compares below is shorter, or as long and smaller in value. -/
theorem lex_lt_of_compare_eq_lt {a b : Magnitude} (h : compare a b = .lt) :
    Prod.Lex (· < ·) (· < ·) (a.length, a.toNat) (b.length, b.toNat) := by
  rcases Ordering.then_eq_lt.mp h with hlen | ⟨hlen, hlimbs⟩
  · exact Prod.Lex.left _ _ (compareOfLessAndEq_eq_lt.mp hlen)
  · have heq := eq_of_compareOfLessAndEq hlen
    rw [heq]
    rcases toNat_lt_of_compareLimbs_eq_lt heq hlimbs with hlt | ⟨_, hfalse⟩
    · exact Prod.Lex.right _ hlt
    · exact absurd hfalse (by decide)

end Magnitude
end DeskCalculator
