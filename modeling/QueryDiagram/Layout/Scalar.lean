/-!
# Numbers of a layout

Widths and coordinates are doubles when a diagram is drawn. The same definitions over the rational
numbers say what they are without rounding.
-/

namespace QueryDiagram

/-- Numbers that a layout can be computed in. -/
class Scalar (α : Type) extends Add α, Sub α, Mul α, Div α where
  ofNat : Nat → α
  /-- Whether the first number is below the second. -/
  less : α → α → Bool

instance : Scalar Float where
  ofNat := Float.ofNat
  less x y := x < y

instance : Scalar Rat where
  ofNat n := n
  less x y := x < y

namespace Scalar

variable {α : Type} [Scalar α]

/-- The second number if it is above the first, else the first. -/
def larger (x y : α) : α := if less x y then y else x

/-- Half of a number. -/
def half (x : α) : α := x / ofNat 2

/-- The sum from left to right, from zero. -/
def sum (xs : List α) : α := xs.foldl (· + ·) (ofNat 0)

end Scalar

end QueryDiagram
