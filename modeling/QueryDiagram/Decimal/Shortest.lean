import QueryDiagram.Decimal.Basic

/-!
# Shortest decimals

Of all decimals that read back as a given double, the one with the fewest digits, and among those
the nearest. The search tries one grid of decimals after another, each ten times finer than the
one before; if a point of a grid reads back, so does one of the two neighbours of the double on
that grid.
-/

namespace QueryDiagram

/-- A positive fraction. -/
structure Ratio where
  num : Nat
  den : Nat

namespace Ratio

/-- The leading bit of a normal double, which stands for itself and is not stored: 2 to the power
of 52. -/
def hiddenBit : Nat := 0x10000000000000

/-- The exact value of a positive finite double. -/
def ofFloat (x : Float) : Ratio :=
  let bits := x.toBits.toNat
  let biased := bits / hiddenBit % 0x800
  let fraction := bits % hiddenBit
  if biased = 0 then ⟨fraction, Nat.pow 2 1074⟩
  else if biased < 1075 then ⟨hiddenBit + fraction, Nat.pow 2 (1075 - biased)⟩
  else ⟨(hiddenBit + fraction) * Nat.pow 2 (biased - 1075), 1⟩

/-- The number of digits before the point, or minus the number of zeros right after it. -/
def pointPosition (r : Ratio) : Int :=
  if r.den ≤ r.num then (Nat.toDigits 10 (r.num / r.den)).length
  else 1 - ((Nat.toDigits 10 (r.den / r.num)).length : Int)

/-- The fraction in units of `10 ^ exponent`. -/
def scale (r : Ratio) (exponent : Int) : Ratio :=
  if 0 ≤ exponent then ⟨r.num, r.den * Nat.pow 10 exponent.toNat⟩
  else ⟨r.num * Nat.pow 10 (-exponent).toNat, r.den⟩

/-- The decimal of the same value, for a denominator that is a power of two. -/
def toDecimal (r : Ratio) : Decimal := ⟨r.num * Nat.pow 5 r.den.log2, -r.den.log2⟩

end Ratio

namespace Decimal

/-- The neighbour of the double `x`, whose exact value is `r`, on the grid of multiples of
`10 ^ exponent` that reads back as `x`: the nearer of two, the even one of two equally near. -/
def onGrid? (x : Float) (r : Ratio) (exponent : Int) : Option Decimal :=
  let s := r.scale exponent
  let below : Decimal := ⟨s.num / s.den, exponent⟩
  let above : Decimal := ⟨s.num / s.den + 1, exponent⟩
  let rest := s.num % s.den
  if below.toFloat = x then
    if above.toFloat = x then
      if 2 * rest < s.den ∨ (2 * rest = s.den ∧ below.coefficient % 2 = 0) then some below
      else some above
    else some below
  else if above.toFloat = x then some above
  else none

/-- The first hit on the grids from `exponent` downwards, or else the exact value. -/
def search (x : Float) (r : Ratio) : Nat → Int → Decimal
  | 0, _ => r.toDecimal
  | n + 1, exponent => (onGrid? x r exponent).getD (search x r n (exponent - 1))

/-- The shortest decimal of a positive finite double; seventeen digits are always enough. -/
def shortest (x : Float) : Decimal :=
  let r := Ratio.ofFloat x
  (search x r 17 (r.pointPosition - 1)).stripZeros 17

end Decimal

end QueryDiagram
