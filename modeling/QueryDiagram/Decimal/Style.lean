import QueryDiagram.Decimal.Shortest

/-!
# Styles of written doubles

Where positional notation ends, how an exponent is written, and what stands for the values that
are not numbers.
-/

namespace QueryDiagram

namespace Decimal

/-- How doubles are written. -/
structure Style where
  /-- The least exponent of a leading digit that is written positionally. -/
  positionalFrom : Int
  /-- The least exponent beyond that which is not. -/
  positionalBelow : Int
  /-- The least number of digits of an exponent. -/
  exponentDigits : Nat
  infinity : Text
  notANumber : Text

namespace Style

/-- Digits with the point after the digit of weight one, and at least one digit on either side;
`lead` is the exponent of the leading digit. -/
def positional (digits : Text) (lead : Int) : Text :=
  if lead < 0 then
    "0." ++ Text.zeros (-lead - 1).toNat ++ digits
  else
    let size := lead.toNat + 1
    if digits.length ≤ size then digits ++ Text.zeros (size - digits.length) ++ ".0"
    else digits.take size ++ "." ++ digits.drop size

/-- One digit before the point, the others after it, then the exponent with its sign. -/
def scientific (s : Style) (digits : Text) (lead : Int) : Text :=
  let fraction : Text := if digits.length ≤ 1 then [] else "." ++ digits.drop 1
  let exponent := Text.ofNat lead.natAbs
  digits.take 1 ++ fraction ++ "e" ++ (if lead < 0 then "-" else "+") ++
    Text.zeros (s.exponentDigits - exponent.length) ++ exponent

/-- A positive finite double. -/
def renderPositive (s : Style) (x : Float) : Text :=
  let d := shortest x
  let digits := Text.ofNat d.coefficient
  let lead := d.exponent + digits.length - 1
  if s.positionalFrom ≤ lead ∧ lead < s.positionalBelow then positional digits lead
  else s.scientific digits lead

/-- The double without its sign. -/
def renderMagnitude (s : Style) (x : Float) : Text :=
  if x.isInf then s.infinity
  else if x = 0 then "0.0"
  else s.renderPositive x

/-- A double as it is written; zero keeps its sign. -/
def render (s : Style) (x : Float) : Text :=
  if x.isNaN then s.notANumber
  else if x.toBits.toNat < 0x8000000000000000 then s.renderMagnitude x
  else "-" ++ s.renderMagnitude (-x)

end Style

end Decimal

end QueryDiagram
