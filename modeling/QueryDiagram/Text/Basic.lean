/-!
# Texts

A text is a list of code points. Unlike a `Char`, a code point may be one half of a surrogate
pair: an escape in a quoted string can name such a half alone, and a reader keeps it until some
later rule refuses it.
-/

namespace QueryDiagram

/-- A Unicode code point: a scalar value, or half of a surrogate pair counted from U+D800. -/
inductive CodePoint where
  | scalar (c : Char)
  | surrogate (offset : Fin 0x800)
  deriving DecidableEq

namespace CodePoint

instance : Coe Char CodePoint := ⟨scalar⟩

/-- The number of the code point. -/
def val : CodePoint → Nat
  | scalar c => c.toNat
  | surrogate s => 0xD800 + s.val

/-- The code point of a number, if the number is at most 0x10FFFF. -/
def ofNat? (n : Nat) : Option CodePoint :=
  if h : n.isValidChar then some (.scalar (Char.ofNatAux n h))
  else if h : 0xD800 ≤ n ∧ n < 0xE000 then some (.surrogate ⟨n - 0xD800, by omega⟩)
  else none

theorem ofNat?_val (c : CodePoint) : ofNat? c.val = some c := by
  cases c with
  | scalar c =>
    have h : c.toNat.isValidChar := c.valid
    rw [val, ofNat?, dif_pos h]
    rfl
  | surrogate s =>
    have h : ¬ (0xD800 + s.val).isValidChar := by
      have := s.isLt
      simp only [Nat.isValidChar]
      omega
    have h' : 0xD800 ≤ 0xD800 + s.val ∧ 0xD800 + s.val < 0xE000 := by
      have := s.isLt
      omega
    simp [val, ofNat?, h, h']

theorem val_injective {c d : CodePoint} (h : c.val = d.val) : c = d :=
  Option.some.inj (by rw [← ofNat?_val c, h, ofNat?_val d])

/-- An ASCII decimal digit. -/
def isDigit : CodePoint → Bool
  | scalar c => c.isDigit
  | surrogate _ => false

/-- The value of a decimal digit, and zero for any other point. -/
def digitValue : CodePoint → Nat
  | scalar c => if c.isDigit then c.toNat - '0'.toNat else 0
  | surrogate _ => 0

/-- The value of a hexadecimal digit of either case. -/
def hexDigit? : CodePoint → Option Nat
  | scalar c =>
    if c.isDigit then some (c.toNat - '0'.toNat)
    else if 'a' ≤ c ∧ c ≤ 'f' then some (c.toNat - 'a'.toNat + 10)
    else if 'A' ≤ c ∧ c ≤ 'F' then some (c.toNat - 'A'.toNat + 10)
    else none
  | surrogate _ => none

/-- The upper case of an ASCII letter. -/
def toUpper : CodePoint → CodePoint
  | scalar c => scalar c.toUpper
  | surrogate s => surrogate s

/-- The first half of a surrogate pair. -/
def isLeading : CodePoint → Bool
  | scalar _ => false
  | surrogate s => s.val < 0x400

/-- The second half of a surrogate pair. -/
def isTrailing : CodePoint → Bool
  | scalar _ => false
  | surrogate s => 0x400 ≤ s.val

/-- A point that is no half of a surrogate pair. -/
def isScalar : CodePoint → Bool
  | scalar _ => true
  | surrogate _ => false

/-- The character that two halves of a surrogate pair stand for. -/
def combine? (leading trailing : CodePoint) : Option CodePoint :=
  if leading.isLeading && trailing.isTrailing then
    ofNat? (0x10000 + (leading.val - 0xD800) * 0x400 + (trailing.val - 0xDC00))
  else none

/-- The halves of the surrogate pair of a point above U+FFFF; any other point by itself. -/
def halves (c : CodePoint) : List CodePoint :=
  if c.val < 0x10000 then [c]
  else
    let n := c.val - 0x10000
    [.surrogate ⟨n / 0x400 % 0x400, by omega⟩, .surrogate ⟨0x400 + n % 0x400, by omega⟩]

/-- The point of four hexadecimal digits. -/
def ofHex4? (a b c d : CodePoint) : Option CodePoint := do
  let a ← a.hexDigit?
  let b ← b.hexDigit?
  let c ← c.hexDigit?
  let d ← d.hexDigit?
  ofNat? (((a * 16 + b) * 16 + c) * 16 + d)

end CodePoint

/-- A sequence of code points. -/
abbrev Text := List CodePoint

namespace Text

/-- The text with the characters of a string. -/
def ofString (s : String) : Text := s.toList.map .scalar

instance : Coe String Text := ⟨ofString⟩

theorem ofString_append (s t : String) : ofString (s ++ t) = ofString s ++ ofString t := by
  simp [ofString]

theorem ofString_injective {s t : String} (h : ofString s = ofString t) : s = t := by
  rw [ofString, ofString, List.map_inj_right fun _ _ => CodePoint.scalar.inj] at h
  exact String.toList_inj.1 h

/-- The text of UTF-8 bytes, if they are well formed: no surrogates, no overlong forms. -/
def ofUtf8? (bytes : ByteArray) : Option Text := (String.fromUTF8? bytes).map ofString

/-- Whether every point is a character of its own. Only such a text has a UTF-8 form. -/
def isWellFormed (t : Text) : Bool := t.all CodePoint.isScalar

@[simp] theorem isWellFormed_append (s t : Text) :
    isWellFormed (s ++ t) = (isWellFormed s && isWellFormed t) := List.all_append

@[simp] theorem isWellFormed_ofString (s : String) : isWellFormed (ofString s) = true := by
  simp [isWellFormed, ofString, CodePoint.isScalar]

/-- The character at the front, for which two points stand if they are the halves of a pair. -/
def front? : Text → Option CodePoint
  | [] => none
  | [c] => some c
  | c :: d :: _ => some ((c.combine? d).getD c)

/-- The text with one point for every two that are the halves of a pair. -/
def joinPairs : Text → Text
  | [] => []
  | [c] => [c]
  | c :: d :: rest =>
    match c.combine? d with
    | some e => e :: joinPairs rest
    | none => c :: joinPairs (d :: rest)

/-- Code point order, shorter first where one text begins the other. -/
def le : Text → Text → Bool
  | [], _ => true
  | _ :: _, [] => false
  | c :: s, d :: t => if c.val = d.val then le s t else c.val < d.val

/-- The texts in code point order. -/
def sort (ts : List Text) : List Text := ts.mergeSort le

/-- The texts with `separator` between each two. -/
def join (separator : Text) (ts : List Text) : Text := (ts.intersperse separator).flatten

/-- A natural number in base ten. -/
def ofNat (n : Nat) : Text := (Nat.toDigits 10 n).map .scalar

/-- An integer in base ten, with a minus sign if it is negative. -/
def ofInt : Int → Text
  | .ofNat n => ofNat n
  | .negSucc n => .scalar '-' :: ofNat (n + 1)

/-- A run of zeros. -/
def zeros (n : Nat) : Text := List.replicate n (.scalar '0')

/-- A natural number in base sixteen, with zeros in front up to `width` digits. -/
def ofHex (width n : Nat) : Text :=
  let digits := Nat.toDigits 16 n
  zeros (width - digits.length) ++ digits.map .scalar

/-- The number written by a run of decimal digits. -/
def digitsValue (digits : Text) : Nat := digits.foldl (fun n c => n * 10 + c.digitValue) 0

end Text

end QueryDiagram
