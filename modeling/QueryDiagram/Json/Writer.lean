import QueryDiagram.Json.Basic
import QueryDiagram.Decimal.Style

/-!
# Writing JSON

One value a line, two spaces of indentation a level. Strings escape quotation marks, backslashes
and controls and nothing else.
-/

namespace QueryDiagram

namespace Json

/-- Doubles have the fewest digits that read back, positionally from `1e-4` up to `1e16`; an
exponent has its sign and at least two digits. -/
def floatStyle : Decimal.Style where
  positionalFrom := -4
  positionalBelow := 16
  exponentDigits := 2
  infinity := "Infinity"
  notANumber := "NaN"

/-- A point inside a written string. -/
def escaped (c : CodePoint) : Text :=
  if c = '"' then ['\\', '"']
  else if c = '\\' then ['\\', '\\']
  else if c = '\n' then ['\\', 'n']
  else if c = '\r' then ['\\', 'r']
  else if c = '\t' then ['\\', 't']
  else if c = '\x08' then ['\\', 'b']
  else if c = '\x0c' then ['\\', 'f']
  else if c.val < 0x20 then '\\' :: 'u' :: Text.ofHex 4 c.val
  else [c]

/-- A string as it is written. -/
def writeString (t : Text) : Text := "\"" ++ (t.flatMap escaped ++ "\"")

/-- The start of a line at a level of indentation. -/
def newline (level : Nat) : Text := .scalar '\n' :: List.replicate (2 * level) (.scalar ' ')

mutual

/-- The value as text, its first line continuing a line at the given level. -/
def writeAt (level : Nat) : Json → Text
  | null => "null"
  | bool b => if b then "true" else "false"
  | int n => Text.ofInt n
  | float x => floatStyle.render x
  | str t => writeString t
  | list [] => "[]"
  | list (v :: vs) =>
    "[" ++ (newline (level + 1) ++ (writeAt (level + 1) v ++ writeItems (level + 1) vs ++
      (newline level ++ "]")))
  | object [] => "\x7b\x7d"
  | object ((k, v) :: ms) =>
    "\x7b" ++ (newline (level + 1) ++ (writeString k ++ (": " ++ (writeAt (level + 1) v ++
      writeMembers (level + 1) ms ++ (newline level ++ "\x7d")))))

/-- Further items, each after a comma on a line of its own. -/
def writeItems (level : Nat) : List Json → Text
  | [] => []
  | v :: vs => "," ++ (newline level ++ (writeAt level v ++ writeItems level vs))

/-- Further members, each after a comma on a line of its own. -/
def writeMembers (level : Nat) : List (Text × Json) → Text
  | [] => []
  | (k, v) :: ms =>
    "," ++ (newline level ++ (writeString k ++ (": " ++ (writeAt level v ++
      writeMembers level ms))))

end

/-- A value as it is written, with a line for each item and each member. -/
def write (v : Json) : Text := v.writeAt 0

end Json

end QueryDiagram
