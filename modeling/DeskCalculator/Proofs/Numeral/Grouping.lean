import DeskCalculator.Numeral.Grouping
import DeskCalculator.Proofs.Numeral.Digits
import Mathlib.Data.List.TakeWhile

/-!
# Groups of digits follow their sizes

Digits are cut from their right end, so the sizes count from the right while the
pieces stand from left to right.  `CutFromRight` says what the pieces are without
the order in which they are cut: all but the leftmost are as long as their sizes
say, the leftmost has what is left, and nothing is lost.

**Results.**
* `parseGroups_positive`: every text gives sizes, and none of them is zero.
* `groupsFromRight_cut`: the pieces are cut as the sizes say.
* `grouping_reversible`: so a grouped numeral is its own digits with separators.
-/

namespace DeskCalculator
namespace Numeral

variable {sizes : List Nat} {digits piece : List Char} {pieces : List (List Char)}

/-! ### Sizes -/

/-- Sizes of which none is zero, at least one. -/
structure Positive (sizes : List Nat) : Prop where
  ne_nil : sizes ≠ []
  pos : ∀ size ∈ sizes, 0 < size

/-- Whatever the text is, it gives positive sizes. -/
theorem parseGroups_positive
    (text : List Char) :
    Positive (parseGroups text) := by
  have hstandard : Positive standardGroups := ⟨by decide, by decide⟩
  unfold parseGroups
  split
  · exact hstandard
  · rename_i read _
    dsimp only
    generalize (if read.getLast? = some 0 ∧ 1 < read.length then read.dropLast else read) = kept
    split
    · exact hstandard
    · rename_i hkept
      obtain ⟨hne, hzero⟩ := not_or.mp hkept
      exact ⟨hne, fun size hsize => Nat.pos_of_ne_zero fun h => hzero (h ▸ hsize)⟩

/-- The size of the piece with index `i` from the right: the last size repeats. -/
def sizeAt (sizes : List Nat) (i : Nat) : Nat :=
  (sizes[i]?.or sizes.getLast?).getD 0

theorem sizeAt_zero
    (sizes : List Nat) :
    sizeAt sizes 0 = groupSize sizes := by
  cases sizes <;> simp [sizeAt, groupSize]

/-- The sizes that remain are those of the pieces further left. -/
theorem sizeAt_nextGroups
    (sizes : List Nat) (i : Nat) :
    sizeAt (nextGroups sizes) i = sizeAt sizes (i + 1) := by
  rcases sizes with _ | ⟨first, _ | ⟨second, rest⟩⟩
  · rfl
  · cases i <;> simp [sizeAt, nextGroups]
  · simp [sizeAt, nextGroups]

theorem Positive.groupSize_pos
    (h : Positive sizes) :
    0 < groupSize sizes := by
  cases sizes with
  | nil => exact absurd rfl h.ne_nil
  | cons size sizes => exact h.pos size List.mem_cons_self

theorem Positive.nextGroups
    (h : Positive sizes) :
    Positive (nextGroups sizes) := by
  rcases sizes with _ | ⟨first, _ | ⟨second, rest⟩⟩
  · exact h
  · exact h
  · exact ⟨List.cons_ne_nil _ _, fun size hsize => h.pos size (List.mem_cons_of_mem _ hsize)⟩

/-! ### Pieces -/

/--
Pieces of a digit string, from left to right, whose sizes are given from the
right.  Only the leftmost one may be shorter than its size.
-/
structure CutFromRight (sizes : List Nat) (digits : List Char) (pieces : List (List Char)) :
    Prop where
  flatten : pieces.flatten = digits
  full : ∀ i piece, pieces.reverse[i]? = some piece → i + 1 < pieces.length →
    piece.length = sizeAt sizes i
  leftmost : ∀ piece, pieces.head? = some piece →
    piece ≠ [] ∧ piece.length ≤ sizeAt sizes (pieces.length - 1)

namespace CutFromRight

theorem nil
    (sizes : List Nat) :
    CutFromRight sizes [] [] where
  flatten := rfl
  full := by simp
  leftmost := by simp

/-- Digits that do not exceed the first size are one piece. -/
theorem singleton
    (hne : digits ≠ []) (hle : digits.length ≤ groupSize sizes) :
    CutFromRight sizes digits [digits] where
  flatten := by simp
  full i piece hpiece hlt := by
    rw [List.length_singleton] at hlt
    omega
  leftmost piece hpiece := by
    obtain rfl := Option.some.inj hpiece
    exact ⟨hne, (sizeAt_zero sizes).symm ▸ hle⟩

/-- The step of a cut: a full piece is taken off the right end. -/
theorem concat
    (h : CutFromRight (nextGroups sizes) digits pieces) (hne : digits ≠ [])
    (hpiece : piece.length = groupSize sizes) :
    CutFromRight sizes (digits ++ piece) (pieces ++ [piece]) := by
  have hpieces : pieces ≠ [] := by
    rintro rfl
    exact hne h.flatten.symm
  have hlength : pieces.length - 1 + 1 = pieces.length :=
    Nat.sub_add_cancel (List.length_pos_iff.mpr hpieces)
  constructor
  case flatten => rw [List.flatten_concat, h.flatten]
  case full =>
    intro i other hother hlt
    rw [List.reverse_append, List.reverse_singleton, List.singleton_append] at hother
    rw [List.length_append, List.length_singleton] at hlt
    cases i with
    | zero =>
        obtain rfl := Option.some.inj hother
        rw [hpiece, sizeAt_zero]
    | succ i =>
        rw [List.getElem?_cons_succ] at hother
        rw [h.full i other hother (by omega), sizeAt_nextGroups]
  case leftmost =>
    intro other hother
    rw [List.head?_append_of_ne_nil _ hpieces] at hother
    obtain ⟨hother, hle⟩ := h.leftmost other hother
    rw [sizeAt_nextGroups, hlength] at hle
    exact ⟨hother, by simpa using hle⟩

end CutFromRight

/--
The digits are cut as the sizes say, in front of what has been cut before.  Each
pass takes a digit at least, so there are no more of them than digits.
-/
theorem groupsFromRight_cut
    (hsizes : Positive sizes) (reversed : List Char) (done : List (List Char)) :
    ∃ pieces, groupsFromRight sizes reversed done = pieces ++ done ∧
      CutFromRight sizes reversed.reverse pieces ∧ pieces.length ≤ reversed.length := by
  fun_induction groupsFromRight sizes reversed done with
  | case1 sizes done => exact ⟨[], rfl, .nil sizes, le_rfl⟩
  | case2 sizes reversed done hne hlast =>
      have hle := hlast.resolve_left hsizes.groupSize_pos.ne'
      exact ⟨[reversed.reverse], rfl, .singleton (by simpa using hne) (by simpa using hle),
        List.length_pos_iff.mpr hne⟩
  | case3 sizes reversed done hne hmore ih =>
      obtain ⟨-, hlt⟩ := not_or.mp hmore
      have hpos := hsizes.groupSize_pos
      obtain ⟨pieces, hpieces, hcut, hcount⟩ := ih hsizes.nextGroups
      have hrest : (reversed.drop (groupSize sizes)).reverse ≠ [] := by
        rw [ne_eq, List.reverse_eq_nil_iff, List.drop_eq_nil_iff]
        exact hlt
      have hpiece : (reversed.take (groupSize sizes)).reverse.length = groupSize sizes := by
        rw [List.length_reverse, List.length_take]
        omega
      refine ⟨pieces ++ [(reversed.take (groupSize sizes)).reverse], ?_, ?_, ?_⟩
      · rw [hpieces, List.append_assoc, List.singleton_append]
      · have hwhole := hcut.concat hrest hpiece
        rwa [← List.reverse_append, List.take_append_drop] at hwhole
      · rw [List.length_drop] at hcount
        rw [List.length_append, List.length_singleton]
        omega

/-! ### Numerals -/

/-- The sign, the digits and the suffix of a numeral are found, and only the digits are cut. -/
theorem group_eq
    {whole suffix : List Char} (hwhole : ∀ c ∈ whole, c ∉ ['-', '.', 'e', '^'])
    (hsuffix : ∀ c ∈ suffix.head?, c ∈ ['.', 'e', '^']) (separator : List Char)
    (sizes : List Nat) (signed negative : Bool) :
    group separator sizes ((if signed then ['-'] else []) ++ (whole ++ suffix)) negative =
      (if negative then ['-'] else []) ++
        separator.intercalate (groupsFromRight sizes whole.reverse []) ++ suffix := by
  have hends : ∀ c, endsWholePart c = true ↔ c ∈ ['.', 'e', '^'] := by
    intro c
    simp [endsWholePart, or_assoc]
  have hstays : ∀ c ∈ whole, (!endsWholePart c) = true := by
    intro c hc
    rw [Bool.not_eq_true', Bool.eq_false_iff, ne_eq, hends]
    exact fun h => hwhole c hc (List.mem_cons_of_mem _ h)
  have hrest : suffix.takeWhile (fun c => !endsWholePart c) = [] ∧
      suffix.dropWhile (fun c => !endsWholePart c) = suffix := by
    cases suffix with
    | nil => exact ⟨rfl, rfl⟩
    | cons c cs =>
        have hc := (hends c).mpr (hsuffix c rfl)
        simp [hc]
  have hfirst : ∀ c ∈ (whole ++ suffix).head?, c ∉ ['-'] := by
    intro c hc hminus
    obtain rfl := List.mem_singleton.mp hminus
    cases whole with
    | nil => exact absurd (hsuffix _ hc) (by decide)
    | cons d ds =>
        obtain rfl := Option.some.inj hc
        exact hwhole _ List.mem_cons_self (by decide)
  have hunsigned : (if ((if signed then ['-'] else []) ++ (whole ++ suffix)).head? = some '-'
      then ((if signed then ['-'] else []) ++ (whole ++ suffix)).tail
      else (if signed then ['-'] else []) ++ (whole ++ suffix)) = whole ++ suffix := by
    have hhead := (dropSign_signed (List.mem_singleton_self '-') hfirst signed).2
    rw [if_congr hhead rfl rfl]
    cases signed <;> rfl
  rw [group]
  simp only [hunsigned, List.takeWhile_append_of_pos hstays, List.dropWhile_append_of_pos hstays,
    hrest.1, hrest.2, List.append_nil]

/-- **Grouping follows its sizes and can be undone.** A grouping text gives
positive sizes, at least one.  For all such sizes and every separator, the
numeral is written with the wanted sign, with its digits in pieces that are cut
from the right as the sizes say, in at most as many passes as there are digits,
and with what follows the digits left as it is.  The digits may be any characters
but a minus sign and those that end them. -/
theorem grouping_reversible
    (text separator whole suffix : List Char) (signed negative : Bool)
    (hwhole : ∀ c ∈ whole, c ∉ ['-', '.', 'e', '^'])
    (hsuffix : ∀ c ∈ suffix.head?, c ∈ ['.', 'e', '^']) :
    Positive (parseGroups text) ∧
      ∀ sizes, Positive sizes → ∃ pieces,
        group separator sizes ((if signed then ['-'] else []) ++ (whole ++ suffix)) negative =
            (if negative then ['-'] else []) ++ separator.intercalate pieces ++ suffix ∧
          CutFromRight sizes whole pieces ∧ pieces.length ≤ whole.length := by
  refine ⟨parseGroups_positive text, fun sizes hsizes => ?_⟩
  obtain ⟨pieces, hpieces, hcut, hcount⟩ := groupsFromRight_cut hsizes whole.reverse []
  rw [List.append_nil] at hpieces
  rw [List.reverse_reverse] at hcut
  rw [List.length_reverse] at hcount
  exact ⟨pieces, by rw [group_eq hwhole hsuffix, hpieces], hcut, hcount⟩

example : parseGroups ['3', ';', '2'] = [3, 2] := by
  decide

/-- Nine digits in groups of three and then of two, of which the leftmost is full. -/
theorem grouping_of_nine_digits :
    (∀ c ∈ ['1', '2', '3', '4', '5', '6', '7', '8', '9'], c ∉ ['-', '.', 'e', '^']) ∧
      (∀ c ∈ ['.', '5', 'e', '+', '7'].head?, c ∈ ['.', 'e', '^']) ∧
      Positive [3, 2] ∧
      ∃ pieces,
        group [' '] [3, 2]
            ['-', '1', '2', '3', '4', '5', '6', '7', '8', '9', '.', '5', 'e', '+', '7'] true =
            ['-'] ++ [' '].intercalate pieces ++ ['.', '5', 'e', '+', '7'] ∧
          CutFromRight [3, 2] ['1', '2', '3', '4', '5', '6', '7', '8', '9'] pieces ∧
          pieces.length ≤ 9 := by
  have hwhole : ∀ c ∈ ['1', '2', '3', '4', '5', '6', '7', '8', '9'], c ∉ ['-', '.', 'e', '^'] := by
    simp
  have hsuffix : ∀ c ∈ ['.', '5', 'e', '+', '7'].head?, c ∈ ['.', 'e', '^'] := by
    simp
  have hsizes : Positive [3, 2] := ⟨by decide, by decide⟩
  exact ⟨hwhole, hsuffix, hsizes,
    (grouping_reversible [] [' '] _ _ true true hwhole hsuffix).2 _ hsizes⟩

example : group [','] [3, 2] ['-', '1', '2', '3', '4', '5', '6', '.', '5'] false =
    ['1', ',', '2', '3', ',', '4', '5', '6', '.', '5'] := by
  decide +kernel

end Numeral
end DeskCalculator
