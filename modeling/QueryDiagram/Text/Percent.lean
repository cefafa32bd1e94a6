import QueryDiagram.Text.Basic

/-!
# Percent-encoded text

A percent sign and two hexadecimal digits stand for an octet, and such octets for UTF-8. A text
without percent signs stands for itself.
-/

namespace QueryDiagram

namespace Text

/-! ## UTF-8 with errors -/

/-- Stands for octets that are not UTF-8. -/
def replacement : CodePoint := '\ufffd'

/-- A character after some of its octets: the bits they hold, the number of octets to come, and
the least and the greatest that the next may be. -/
structure BrokenCharacter where
  bits : Nat
  missing : Nat
  low : Nat := 0x80
  high : Nat := 0xBF

/-- What is known after the first octet of a character. -/
def firstOctet (o : Nat) : Text × Option BrokenCharacter :=
  if o < 0x80 then ([(CodePoint.ofNat? o).getD replacement], none)
  else if 0xC2 ≤ o ∧ o ≤ 0xDF then ([], some { bits := o - 0xC0, missing := 1 })
  else if o = 0xE0 then ([], some { bits := 0, missing := 2, low := 0xA0 })
  else if o = 0xED then ([], some { bits := 0xD, missing := 2, high := 0x9F })
  else if 0xE1 ≤ o ∧ o ≤ 0xEF then ([], some { bits := o - 0xE0, missing := 2 })
  else if o = 0xF0 then ([], some { bits := 0, missing := 3, low := 0x90 })
  else if o = 0xF4 then ([], some { bits := 4, missing := 3, high := 0x8F })
  else if 0xF1 ≤ o ∧ o ≤ 0xF3 then ([], some { bits := o - 0xF0, missing := 3 })
  else ([replacement], none)

/-- What is known after one more octet. One that cannot go on with a character begins the next. -/
def nextOctet (broken : Option BrokenCharacter) (o : Nat) : Text × Option BrokenCharacter :=
  match broken with
  | none => firstOctet o
  | some b =>
    if b.low ≤ o ∧ o ≤ b.high then
      let bits := b.bits * 0x40 + (o - 0x80)
      if b.missing = 1 then ([(CodePoint.ofNat? bits).getD replacement], none)
      else ([], some { bits, missing := b.missing - 1 })
    else
      let (t, broken) := firstOctet o
      (replacement :: t, broken)

/-- The text of octets that need not be UTF-8; each longest part that could have begun a character
is replaced as one. -/
def ofUtf8Lossy (broken : Option BrokenCharacter) : List UInt8 → Text
  | [] => if broken.isSome then [replacement] else []
  | o :: os =>
    let (t, broken) := nextOctet broken o.toNat
    t ++ ofUtf8Lossy broken os

/-! ## Escapes -/

/-- The octet of two hexadecimal digits. -/
def octet? (a b : CodePoint) : Option UInt8 := do
  let a ← a.hexDigit?
  let b ← b.hexDigit?
  return UInt8.ofNat (a * 16 + b)

/-- The text after a run of escapes, whose octets are held in reverse. -/
def percentDecodeAfter (run : List UInt8) : Text → Text
  | [] => ofUtf8Lossy none run.reverse
  | [c] => ofUtf8Lossy none run.reverse ++ [c]
  | [c, d] => ofUtf8Lossy none run.reverse ++ [c, d]
  | c :: a :: b :: rest =>
    match if c = '%' then octet? a b else none with
    | some o => percentDecodeAfter (o :: run) rest
    | none => ofUtf8Lossy none run.reverse ++ c :: percentDecodeAfter [] (a :: b :: rest)

/-- The text with its escapes replaced by what they stand for. A percent sign that begins no escape
stands for itself. -/
def percentDecode (t : Text) : Text := percentDecodeAfter [] t

theorem percentDecodeAfter_of_not_mem {t : Text} (run : List UInt8) (h : .scalar '%' ∉ t) :
    percentDecodeAfter run t = ofUtf8Lossy none run.reverse ++ t := by
  fun_induction percentDecodeAfter run t <;> grind [ofUtf8Lossy]

theorem percentDecode_of_not_mem {t : Text} (h : .scalar '%' ∉ t) : percentDecode t = t :=
  percentDecodeAfter_of_not_mem [] h

end Text

end QueryDiagram
