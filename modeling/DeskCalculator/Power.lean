/-!
# Powers by repeated squaring

The exponent is read from its lowest bit.  One function serves every kind of
number: magnitudes, scaled numbers and machine words bring their own product.
-/

namespace DeskCalculator

/--
The product of `acc` and the `n`-th power of `base`.  The base is squared only
as long as a higher bit of the exponent remains.
-/
def mulPow {α : Type} (mul : α → α → α) (acc base : α) (n : Nat) : α :=
  if n = 0 then acc
  else
    let acc' := if n % 2 = 1 then mul acc base else acc
    if n / 2 = 0 then acc' else mulPow mul acc' (mul base base) (n / 2)
termination_by n
decreasing_by omega

end DeskCalculator
