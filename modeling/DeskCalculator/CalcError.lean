import DeskCalculator.Texts

/-!
# Errors of calculations

An error is the reason why a calculation has no result.  Its message is for
logs; what the display shows is the text of its `textId`.
-/

namespace DeskCalculator

/-- Why an argument lies outside the domain of a function. -/
inductive DomainReason where
  | tangentUndefined
  | outsideUnitInterval
  | acoshBelowOne
  | atanhOutsideInterval
  | logarithmNotPositive
  | factorialNotNatural
  | powerOfNegative
  | rootOrderZero
  | evenRootOfNegative
deriving DecidableEq, Repr

/-- The wording of a reason. -/
def DomainReason.text : DomainReason → String
  | tangentUndefined => "tangente indéfinie"
  | outsideUnitInterval => "argument hors de [-1, 1]"
  | acoshBelowOne => "acosh d’un nombre < 1"
  | atanhOutsideInterval => "atanh hors de ]-1, 1["
  | logarithmNotPositive => "logarithme d’un nombre <= 0"
  | factorialNotNatural => "factorielle d’un non-entier naturel"
  | powerOfNegative => "puissance réelle d’un négatif"
  | rootOrderZero => "racine d’ordre nul"
  | evenRootOfNegative => "racine paire d’un négatif"

/-- Why a calculation has no result. -/
inductive CalcError where
  | divisionByZero
  | domain (reason : DomainReason)
  | overflow
  | invalidEntry
  | memory
deriving DecidableEq, Repr

namespace CalcError

/-- The message for an argument outside a domain, with the reason in words. -/
def domainMessage (reason : String) : String :=
  "erreur de domaine : " ++ reason

/-- The message of an error. -/
def message : CalcError → String
  | divisionByZero => "division par zéro"
  | domain reason => domainMessage reason.text
  | overflow => "dépassement de capacité"
  | invalidEntry => "saisie invalide"
  | memory => "erreur mémoire"

/-- The text that the display shows for an error. -/
def textId : CalcError → TextId
  | divisionByZero => .divisionByZero
  | domain _ => .domain
  | overflow => .overflow
  | invalidEntry => .invalidEntry
  | memory => .memory

/-- A calculation that goes on with the result of another has a result if both have one. -/
theorem bind_eq_ok_iff
    {α β : Type} {x : Except CalcError α} {f : α → Except CalcError β} {r : β} :
    x >>= f = .ok r ↔ ∃ v, x = .ok v ∧ f v = .ok r := by
  constructor
  case mp =>
    intro h
    cases x with
    | error e => cases h
    | ok v => exact ⟨v, rfl, h⟩
  case mpr =>
    rintro ⟨v, rfl, h⟩
    exact h

end CalcError

/-- The message for a division that no magnitude answers. -/
def zeroDivisorMessage : String := "division d’une magnitude par zéro"

end DeskCalculator
