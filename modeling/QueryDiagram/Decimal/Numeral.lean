import QueryDiagram.Decimal.Basic

/-!
# Numerals

The written form of a number: an optional minus sign, digits without a needless zero in front,
then optionally a point with digits and an exponent.
-/

namespace QueryDiagram

/-- A number as it is written: its sign, the digits before and after the point, and the exponent. -/
structure Numeral where
  negative : Bool
  whole : Text
  fraction : Option Text
  exponent : Option Int

namespace Numeral

/-- A run of digits at the front and the rest, if there is a digit at all. -/
def digits? (t : Text) : Option (Text × Text) :=
  match t.span CodePoint.isDigit with
  | ([], _) => none
  | split => some split

/-- The digits before the point: a zero alone, or a run that does not start with one. -/
def whole? : Text → Option (Text × Text)
  | .scalar '0' :: rest => some (['0'], rest)
  | t => digits? t

/-- A point with digits after it; a point without them is left where it stands. -/
def fraction? : Text → Option Text × Text
  | .scalar '.' :: rest =>
    match digits? rest with
    | some (ds, rest') => (some ds, rest')
    | none => (none, .scalar '.' :: rest)
  | t => (none, t)

/-- The sign of an exponent and what follows it. -/
def exponentSign : Text → Bool × Text
  | .scalar '+' :: rest => (false, rest)
  | .scalar '-' :: rest => (true, rest)
  | t => (false, t)

/-- An exponent; a mark without digits after it is left where it stands. -/
def exponent? : Text → Option Int × Text
  | [] => (none, [])
  | c :: rest =>
    if c = 'e' ∨ c = 'E' then
      let (negative, tail) := exponentSign rest
      match digits? tail with
      | some (ds, rest') =>
        let n : Int := ds.digitsValue
        (some (if negative then -n else n), rest')
      | none => (none, c :: rest)
    else (none, c :: rest)

/-- The longest numeral at the front of a text. -/
def read? (t : Text) : Option (Numeral × Text) :=
  let (negative, t) :=
    match t with
    | .scalar '-' :: rest => (true, rest)
    | t => (false, t)
  match whole? t with
  | none => none
  | some (whole, t) =>
    let (fraction, t) := fraction? t
    let (exponent, t) := exponent? t
    some (⟨negative, whole, fraction, exponent⟩, t)

/-- Whether the numeral has neither fraction nor exponent. -/
def isInteger (n : Numeral) : Bool := n.fraction.isNone && n.exponent.isNone

/-- The value of a numeral without fraction and exponent. -/
def toInt (n : Numeral) : Int :=
  let m : Int := n.whole.digitsValue
  if n.negative then -m else m

/-- The number written, apart from its sign. -/
def magnitude (n : Numeral) : Decimal :=
  let fraction := n.fraction.getD []
  ⟨(n.whole ++ fraction).digitsValue, n.exponent.getD 0 - fraction.length⟩

/-- The double nearest to the number written; the sign of zero is kept. -/
def toFloat (n : Numeral) : Float :=
  if n.negative then -n.magnitude.toFloat else n.magnitude.toFloat

end Numeral

/-- The number of digits that a written integer may have. -/
def integerDigitLimit : Nat := 4300

end QueryDiagram
