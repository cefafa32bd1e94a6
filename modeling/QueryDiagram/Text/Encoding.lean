import QueryDiagram.Text.Basic

/-!
# Encodings of JSON texts

A JSON text comes in UTF-8, UTF-16 or UTF-32. A byte order mark in front of it tells which, and is
no part of it. A text without a mark begins with ASCII characters, so that the zeros among its
first octets tell. Half of a surrogate pair may stand alone in each of the encodings.
-/

namespace QueryDiagram

/-! ## Numbers in octets -/

/-- Which octet of a number comes first: the one that counts most, or the one that counts least. -/
inductive ByteOrder where
  | big
  | little
  deriving DecidableEq

namespace ByteOrder

/-- The last octets of a number, the one that counts least first. -/
def leastFirst : Nat → Nat → List UInt8
  | 0, _ => []
  | width + 1, n => UInt8.ofNat n :: leastFirst width (n / 256)

/-- The number that octets spell if the one that counts least is first. -/
def ofLeastFirst : List UInt8 → Nat
  | [] => 0
  | o :: os => o.toNat + 256 * ofLeastFirst os

/-- Takes octets with the least first to this order, and back. -/
def arrange : ByteOrder → List UInt8 → List UInt8
  | big, os => os.reverse
  | little, os => os

/-- The last octets of a number. -/
def octets (order : ByteOrder) (width n : Nat) : List UInt8 := order.arrange (leastFirst width n)

/-- The number that octets spell. -/
def number (order : ByteOrder) (os : List UInt8) : Nat := ofLeastFirst (order.arrange os)

/-- The numbers that octets spell, each by so many as the width says; `begun` holds those of a
number that is not complete. None may be left over. -/
def numbers? (order : ByteOrder) (width : Nat) (begun : List UInt8) :
    List UInt8 → Option (List Nat)
  | [] => if begun.isEmpty then some [] else none
  | o :: os =>
    let begun := begun ++ [o]
    if begun.length < width then numbers? order width begun os
    else (numbers? order width [] os).map (order.number begun :: ·)

/-- The points whose numbers octets spell. -/
def points? (order : ByteOrder) (width : Nat) (os : List UInt8) : Option Text := do
  (← order.numbers? width [] os).mapM CodePoint.ofNat?

end ByteOrder

/-! ## UTF-8 -/

namespace Utf8

/-- The last digits of a number in base 64, each in an octet that goes on with a character. -/
def tails : Nat → Nat → List UInt8
  | 0, _ => []
  | k + 1, n => UInt8.ofNat (0x80 + n / Nat.pow 0x40 k % 0x40) :: tails k n

/-- The octets of a point, as few as there can be. -/
def octets (c : CodePoint) : List UInt8 :=
  if c.val < 0x80 then [UInt8.ofNat c.val]
  else if c.val < 0x800 then UInt8.ofNat (0xC0 + c.val / 0x40) :: tails 1 c.val
  else if c.val < 0x10000 then UInt8.ofNat (0xE0 + c.val / 0x1000) :: tails 2 c.val
  else UInt8.ofNat (0xF0 + c.val / 0x40000) :: tails 3 c.val

/-- A character after some of its octets: the bits they hold, the number of octets to come, and the
least point that takes so many octets. -/
structure Part where
  bits : Nat
  missing : Nat
  least : Nat

/-- A character after its first octet. -/
def first? (o : Nat) : Option Part :=
  if o < 0x80 then some ⟨o, 0, 0⟩
  else if o < 0xC0 then none
  else if o < 0xE0 then some ⟨o - 0xC0, 1, 0x80⟩
  else if o < 0xF0 then some ⟨o - 0xE0, 2, 0x800⟩
  else if o < 0xF8 then some ⟨o - 0xF0, 3, 0x10000⟩
  else none

/-- A character after one more octet. -/
def next? : Option Part → Nat → Option Part
  | none, o => first? o
  | some p, o =>
    if 0x80 ≤ o ∧ o < 0xC0 then
      some { p with bits := p.bits * 0x40 + (o - 0x80), missing := p.missing - 1 }
    else none

/-- The point of a complete character, unless fewer octets would have done. -/
def Part.point? (p : Part) : Option CodePoint :=
  if p.least ≤ p.bits then CodePoint.ofNat? p.bits else none

/-- The points of octets after those of a character that is not complete. -/
def points? (part : Option Part) : List UInt8 → Option Text
  | [] => if part.isNone then some [] else none
  | o :: os => do
    let p ← next? part o.toNat
    if p.missing = 0 then
      let c ← p.point?
      return c :: (← points? none os)
    else points? (some p) os

end Utf8

/-! ## Encodings -/

/-- How octets stand for a text. -/
inductive Encoding where
  | utf8
  | utf16 (order : ByteOrder)
  | utf32 (order : ByteOrder)
  deriving DecidableEq

namespace Encoding

/-- The octets of a text. -/
def encode : Encoding → Text → List UInt8
  | utf8, t => t.flatMap Utf8.octets
  | utf16 order, t => (t.flatMap CodePoint.halves).flatMap fun c => order.octets 2 c.val
  | utf32 order, t => t.flatMap fun c => order.octets 4 c.val

/-- The text that octets stand for. Halves of a surrogate pair that follow each other are joined in
UTF-16 and nowhere else. -/
def decode? : Encoding → List UInt8 → Option Text
  | utf8, os => Utf8.points? none os
  | utf16 order, os => (order.points? 2 os).map Text.joinPairs
  | utf32 order, os => order.points? 4 os

/-! ## The encoding of a JSON text -/

/-- The byte order mark. -/
def mark (e : Encoding) : List UInt8 := e.encode [.scalar '\ufeff']

/-- The encodings in the order in which their marks are looked for: one mark of UTF-32 begins with
a mark of UTF-16. -/
def all : List Encoding := [utf32 .big, utf32 .little, utf16 .big, utf16 .little, utf8]

/-- The encoding whose mark is in front. -/
def ofMark? (os : List UInt8) : Option Encoding := all.find? fun e => e.mark.isPrefixOf os

/-- The encoding of a text without a mark. Fewer octets than four are UTF-8, unless they are two and
one of them is zero. -/
def ofZeros : List UInt8 → Encoding
  | a :: b :: c :: d :: _ =>
    if a = 0 then if b = 0 then utf32 .big else utf16 .big
    else if b = 0 then if c = 0 ∧ d = 0 then utf32 .little else utf16 .little
    else utf8
  | [a, b] => if a = 0 then utf16 .big else if b = 0 then utf16 .little else utf8
  | _ => utf8

/-- The encoding of a JSON text, and its octets after the mark. -/
def ofJson (os : List UInt8) : Encoding × List UInt8 :=
  match ofMark? os with
  | some e => (e, os.drop e.mark.length)
  | none => (ofZeros os, os)

end Encoding

/-- The text that the octets of a JSON text stand for. -/
def Text.ofJsonBytes? (bytes : ByteArray) : Option Text :=
  let (e, os) := Encoding.ofJson bytes.data.toList
  e.decode? os

end QueryDiagram
