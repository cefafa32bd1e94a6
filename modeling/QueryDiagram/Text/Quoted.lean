import QueryDiagram.Text.Printable

/-!
# Quoted texts

The form in which a message shows a text: between quotation marks, on one line, with everything
that would not show as itself escaped.
-/

namespace QueryDiagram

/-- The point inside quotation marks of the given kind: escaped if it is the mark, a backslash or
not printable. -/
def CodePoint.quoted (mark c : CodePoint) : Text :=
  if c = mark ∨ c = '\\' then ['\\', c]
  else if c = '\n' then ['\\', 'n']
  else if c = '\r' then ['\\', 'r']
  else if c = '\t' then ['\\', 't']
  else if c.isPrintable then [c]
  else if c.val < 0x100 then '\\' :: 'x' :: Text.ofHex 2 c.val
  else if c.val < 0x10000 then '\\' :: 'u' :: Text.ofHex 4 c.val
  else '\\' :: 'U' :: Text.ofHex 8 c.val

namespace Text

/-- Single marks, except around a text that has single marks and no double ones. -/
def quotationMark (t : Text) : CodePoint :=
  if t.contains '\x27' && !t.contains '"' then '"' else '\x27'

/-- A text in quotation marks, as messages show it. -/
def quoted (t : Text) : Text :=
  [t.quotationMark] ++ t.flatMap (CodePoint.quoted t.quotationMark) ++ [t.quotationMark]

/-- The quoted texts in square brackets. -/
def quotedList (ts : List Text) : Text := "[" ++ join ", " (ts.map quoted) ++ "]"

end Text

end QueryDiagram
