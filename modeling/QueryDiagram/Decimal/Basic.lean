import QueryDiagram.Text.Basic

/-!
# Decimal numbers

A natural number scaled by a power of ten, and the double nearest to it.
-/

namespace QueryDiagram

/-- The number `coefficient * 10 ^ exponent`. -/
structure Decimal where
  coefficient : Nat
  exponent : Int
  deriving DecidableEq

namespace Decimal

/-- The double nearest to a decimal. Exponents that put it far outside the range of doubles are
settled by the size of the coefficient alone. -/
def toFloat (d : Decimal) : Float :=
  if d.coefficient = 0 then 0
  else if 400 < d.exponent then 1 / 0
  else if d.coefficient.log2 + 3 * d.exponent < -1200 then 0
  else Float.ofScientific d.coefficient (d.exponent < 0) d.exponent.natAbs

/-- The same number with no zero at the end of its coefficient. -/
def stripZeros (d : Decimal) : Nat → Decimal
  | 0 => d
  | n + 1 =>
    if d.coefficient ≠ 0 ∧ d.coefficient % 10 = 0 then
      stripZeros ⟨d.coefficient / 10, d.exponent + 1⟩ n
    else d

end Decimal

end QueryDiagram
