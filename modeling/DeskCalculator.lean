import DeskCalculator.Host.Keyboard
import DeskCalculator.Ratio.Bounded
import DeskCalculator.Host.Panel
import DeskCalculator.Proofs.Engine.MachineWords
import DeskCalculator.Proofs.Engine.Values
import DeskCalculator.Proofs.Expression.Evaluation
import DeskCalculator.Proofs.Ratio.Arithmetic
import DeskCalculator.Proofs.Ratio.Field
import DeskCalculator.Texts
import DeskCalculator.Proofs.Engine.Coherence
import DeskCalculator.Proofs.Engine.Recovery
import DeskCalculator.Proofs.Magnitude.Digits
import DeskCalculator.Proofs.Numeral.Layout
import DeskCalculator.Proofs.Ratio.Decimal
import DeskCalculator.Proofs.Ratio.RoundTrip
import DeskCalculator.Proofs.Checked.Calculation
import DeskCalculator.Proofs.Checked.Engine
import DeskCalculator.Proofs.Checked.Step
import DeskCalculator.Proofs.Expression.Incremental
import DeskCalculator.Proofs.Engine.Replacement
import DeskCalculator.Proofs.Engine.TypedWords
import DeskCalculator.Proofs.Engine.Narrowing
import DeskCalculator.Proofs.Engine.Presentation
import DeskCalculator.Proofs.Engine.Sizes
import DeskCalculator.Proofs.Host.Screen
import DeskCalculator.Proofs.Engine.Repetition
import DeskCalculator.Proofs.Checked.LongDivision
import DeskCalculator.Proofs.Ratio.NearestDigits
import DeskCalculator.Proofs.Ratio.PrincipalRoot
import DeskCalculator.Proofs.Entry.Keystroke
import DeskCalculator.Proofs.Ratio.NormalForm
import DeskCalculator.Proofs.Ratio.TruncatedRoot
import DeskCalculator.Proofs.ScaledNumber.Ring
import DeskCalculator.Proofs.Entry.Reading
import DeskCalculator.Proofs.Ratio.Modulus
import DeskCalculator.Proofs.Entry.Erasure
import DeskCalculator.Proofs.Engine.RepeatedEquals
import DeskCalculator.Proofs.Ratio.Chopping
import DeskCalculator.Proofs.Ratio.IntegerPower
import DeskCalculator.Proofs.Scientific.IntegerExponent
import DeskCalculator.Proofs.Scientific.IntegerOrder
import DeskCalculator.Proofs.Ratio.DecimalGrammar
import DeskCalculator.Proofs.Scientific.VanishingRoot
import DeskCalculator.Proofs.Scientific.Domains
import DeskCalculator.Proofs.Scientific.TenPower
import DeskCalculator.Proofs.Numeral.Validity
import DeskCalculator.Proofs.Numeral.Grouping
import DeskCalculator.Proofs.Numeral.Styles
import DeskCalculator.Proofs.Ratio.IntegerText
import DeskCalculator.Proofs.Checked.LimbArithmetic
import DeskCalculator.Proofs.Checked.DecimalReader
import DeskCalculator.Proofs.Magnitude.DigitStrings
import DeskCalculator.Proofs.Scientific.DecimalLogarithm
import DeskCalculator.Proofs.Engine.History
import DeskCalculator.Proofs.Host.Journal
