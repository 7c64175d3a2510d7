import DeskCalculator.Command

/-!
# Texts that can be replaced

Every error shown and every operator announced has a text.  A setting may
replace some of them; the others keep their French wording.  A locale adds the
decimal separator, the separator of digit groups and the group sizes.
-/

namespace DeskCalculator

/-- The texts that a setting can replace. -/
inductive TextId where
  | divisionByZero
  | domain
  | overflow
  | invalidEntry
  | memory
  | operator (op : Operator)
deriving DecidableEq, Repr

namespace TextId

/-- The text used when no setting replaces it. -/
def standard : TextId → String
  | divisionByZero => "Division par zéro impossible"
  | domain => "Entrée non valide"
  | overflow => "Dépassement de capacité"
  | invalidEntry => "Saisie non valide"
  | memory => "Mémoire insuffisante"
  | operator .add => "plus"
  | operator .sub => "moins"
  | operator .mul => "multiplié par"
  | operator .div => "divisé par"
  | operator .mod => "modulo"
  | operator .pow => "puissance"
  | operator .root => "racine y-ième"
  | operator .and => "et"
  | operator .or => "ou"
  | operator .xor => "ou exclusif"
  | operator .shiftLeft => "décalage à gauche"
  | operator .shiftRight => "décalage à droite"

end TextId

/-- Replacements of texts; of two for one text the first counts. -/
abbrev TextTable := List (TextId × String)

namespace TextTable

/-- The text in force. -/
def text (t : TextTable) (id : TextId) : String :=
  (t.lookup id).getD id.standard

end TextTable
end DeskCalculator
