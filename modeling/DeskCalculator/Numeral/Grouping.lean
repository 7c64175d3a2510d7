import DeskCalculator.Text.Blank

/-!
# Groups of digits

The integer digits of a numeral are cut into groups from the right.  The sizes
of the groups are given from the right as well, and the last size repeats, so
that `[3, 2]` writes `12,34,56,789`.
-/

namespace DeskCalculator
namespace Numeral

-- The powers of the core library, whatever else is imported.
attribute [local instance (high)] instPowNat

/-- The sizes used when a grouping text is not understood. -/
def standardGroups : List Nat := [3]

/-- The size at the head of a list of sizes, zero for none. -/
def groupSize (sizes : List Nat) : Nat := sizes.headD 0

/-- The sizes that remain for the groups further left. -/
def nextGroups : List Nat → List Nat
  | _ :: size :: sizes => size :: sizes
  | sizes => sizes

/--
The groups of a digit string given from its right end, the leftmost group
first.  A group of size zero takes all digits that are left.
-/
def groupsFromRight (sizes : List Nat) (reversed : List Char) (done : List (List Char)) :
    List (List Char) :=
  if reversed = [] then done
  else if _h : groupSize sizes = 0 ∨ reversed.length ≤ groupSize sizes then
    reversed.reverse :: done
  else
    groupsFromRight (nextGroups sizes) (reversed.drop (groupSize sizes))
      ((reversed.take (groupSize sizes)).reverse :: done)
termination_by reversed.length
decreasing_by simp only [List.length_drop]; omega

/-- Whether a character ends the integer digits of a numeral. -/
def endsWholePart (c : Char) : Bool := c = '.' || c = 'e' || c = '^'

/--
A numeral with a separator between the groups of its integer digits.  A sign in
front is dropped and written again as `negative` says; what follows the integer
digits is left as it is.
-/
def group (separator : List Char) (sizes : List Nat) (numeral : List Char)
    (negative : Bool) : List Char :=
  let unsigned := if numeral.head? = some '-' then numeral.tail else numeral
  let whole := unsigned.takeWhile (fun c => !endsWholePart c)
  let rest := unsigned.dropWhile (fun c => !endsWholePart c)
  let sign := if negative then ['-'] else []
  sign ++ separator.intercalate (groupsFromRight sizes whole.reverse []) ++ rest

/-- The pieces of a text between separators. -/
def splitAll (p : Char → Bool) : List Char → List (List Char)
  | [] => [[]]
  | c :: cs =>
      match splitAll p cs with
      | [] => [[c]]
      | piece :: pieces => if p c then [] :: piece :: pieces else (c :: piece) :: pieces

/-- A group size: decimal digits between blanks, perhaps with a plus sign, below `2 ^ 64`. -/
def groupSize? (piece : List Char) : Option Nat :=
  let trimmed := trimBlanks piece
  let digits := if trimmed.head? = some '+' then trimmed.tail else trimmed
  (decimalNat? digits).filter (· < 2 ^ (64 : Nat))

/--
The group sizes that a text such as `3;2` gives.  A zero at the end of several
is dropped; a text that then still holds a zero, or anything but sizes, gives
the standard groups.
-/
def parseGroups (text : List Char) : List Nat :=
  match (splitAll (· = ';') text).mapM groupSize? with
  | none => standardGroups
  | some sizes =>
      let kept :=
        if sizes.getLast? = some 0 ∧ 1 < sizes.length then sizes.dropLast else sizes
      if kept = [] ∨ 0 ∈ kept then standardGroups else kept

end Numeral
end DeskCalculator
