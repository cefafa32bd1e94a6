import QueryDiagram.Json.Basic

/-!
# Reading JSON

A reader for the grammar of JSON. Numbers with neither fraction nor exponent are integers, all
others are read as the nearest double. Escaped surrogate pairs combine; an escaped half of a
pair that stands alone is kept as it is. Of members with the same key the last one counts.

Every function takes a text and returns what it read at the front together with the rest.
-/

namespace QueryDiagram

namespace Json

/-- What a reader accepts beyond the grammar. -/
structure Dialect where
  /-- The words `NaN`, `Infinity` and `-Infinity` as numbers. -/
  constants : Bool

/-- The grammar and nothing else. -/
def Dialect.strict : Dialect := ⟨false⟩

/-- The grammar with words for the numbers that have no digits. -/
def Dialect.lenient : Dialect := ⟨true⟩

/-- Why a text writes no value. -/
inductive ReadError where
  | malformed
  /-- An integer with more digits than are read. -/
  | integerTooLong
  deriving DecidableEq

/-- Takes what there is; the text is malformed if there is nothing. -/
def orMalformed {α : Type} : Option α → Except ReadError α
  | some a => .ok a
  | none => .error .malformed

/-- Space, tab, line feed and carriage return. -/
def isSpace (c : CodePoint) : Bool := c = ' ' ∨ c = '\t' ∨ c = '\n' ∨ c = '\r'

/-- The text after the white space in front of it. -/
def skipSpace (t : Text) : Text := t.dropWhile isSpace

/-! ## Strings -/

/-- The point after an escaped one that may be the first half of a pair: an escaped second half
that follows directly completes it. -/
def completePair (p : CodePoint) : Text → CodePoint × Text
  | .scalar '\\' :: .scalar 'u' :: a :: b :: c :: d :: rest =>
    match (CodePoint.ofHex4? a b c d).bind p.combine? with
    | some q => (q, rest)
    | none => (p, .scalar '\\' :: .scalar 'u' :: a :: b :: c :: d :: rest)
  | t => (p, t)

/-- The point that an escape stands for; the text begins after the backslash. -/
def escape? : Text → Option (CodePoint × Text)
  | .scalar 'u' :: a :: b :: c :: d :: rest =>
    (CodePoint.ofHex4? a b c d).map fun p => completePair p rest
  | .scalar c :: rest =>
    match c with
    | '"' => some ('"', rest)
    | '\\' => some ('\\', rest)
    | '/' => some ('/', rest)
    | 'b' => some ('\x08', rest)
    | 'f' => some ('\x0c', rest)
    | 'n' => some ('\n', rest)
    | 'r' => some ('\r', rest)
    | 't' => some ('\t', rest)
    | _ => none
  | _ => none

theorem length_completePair_le (p : CodePoint) (t : Text) :
    (completePair p t).2.length ≤ t.length := by
  unfold completePair
  split
  · split
    · simp
      omega
    · simp
  · simp

theorem length_lt_of_escape? {t rest : Text} {c : CodePoint} (h : escape? t = some (c, rest)) :
    rest.length < t.length := by
  unfold escape? at h
  split at h
  · obtain ⟨p, _, hp⟩ := Option.map_eq_some_iff.1 h
    have := length_completePair_le p ‹Text›
    rw [hp] at this
    simp at this ⊢
    omega
  · split at h <;> simp at h <;> simp [← h.2]
  · simp at h

/-- The rest of a string after its opening mark; `read` holds the points read so far in
reverse. -/
def stringRest? (read : Text) (t : Text) : Option (Text × Text) :=
  match t with
  | [] => none
  | c :: rest =>
    if c = '"' then some (read.reverse, rest)
    else if c = '\\' then
      match _h : escape? rest with
      | some (e, rest') => stringRest? (e :: read) rest'
      | none => none
    else if c.val < 0x20 then none
    else stringRest? (c :: read) rest
termination_by t.length
decreasing_by
  · have := length_lt_of_escape? _h
    simp
    omega
  · simp

/-! ## Values -/

/-- The text after a word at its front. -/
def word? : List Char → Text → Option Text
  | [], t => some t
  | w :: ws, .scalar c :: t => if w = c then word? ws t else none
  | _ :: _, _ => none

/-- The words that stand for values. -/
def wordValues (dialect : Dialect) : List (String × Json) :=
  [("null", .null), ("true", .bool true), ("false", .bool false)] ++
    if dialect.constants then
      [("NaN", .float (0 / 0)), ("Infinity", .float (1 / 0)), ("-Infinity", .float (-1 / 0))]
    else []

/-- A word that stands for a value. -/
def wordValue? (dialect : Dialect) (t : Text) : Option (Json × Text) :=
  (wordValues dialect).findSome? fun w => (word? w.1.toList t).map fun rest => (w.2, rest)

/-- The value of a numeral; an integer must not have too many digits. -/
def ofNumeral (n : Numeral) : Except ReadError Json :=
  if n.isInteger then
    if n.whole.length ≤ integerDigitLimit then .ok (.int n.toInt) else .error .integerTooLong
  else .ok (.float n.toFloat)

/-- Reads a number. -/
def number (t : Text) : Except ReadError (Json × Text) := do
  let (n, rest) ← orMalformed (Numeral.read? t)
  return (← ofNumeral n, rest)

/-- A word or a number. -/
def scalar (dialect : Dialect) (t : Text) : Except ReadError (Json × Text) :=
  match wordValue? dialect t with
  | some r => .ok r
  | none => number t

/-- Items separated by commas up to the closing mark, at most as many as the first number. -/
def sequence {α : Type} (item : Text → Except ReadError (α × Text)) (close : Char) :
    Nat → Text → Except ReadError (List α × Text)
  | 0, _ => .error .malformed
  | n + 1, t => do
    let (a, t) ← item t
    match skipSpace t with
    | [] => .error .malformed
    | c :: rest =>
      if c = close then return ([a], rest)
      else if c = ',' then do
        let (as, t) ← sequence item close n (skipSpace rest)
        return (a :: as, t)
      else .error .malformed

/-- What follows an opening mark: nothing but the closing mark, or items. Every item takes at
least one point, so the length of the text bounds their number. -/
def bracketed {α : Type} (item : Text → Except ReadError (α × Text)) (close : Char) (t : Text) :
    Except ReadError (List α × Text) :=
  match skipSpace t with
  | [] => .error .malformed
  | c :: rest =>
    if c = close then .ok ([], rest) else sequence item close (rest.length + 1) (c :: rest)

/-- The text after a mark at its front. -/
def after? (mark : Char) : Text → Option Text
  | [] => none
  | c :: t => if c = mark then some t else none

/-- A key, a colon and a value. -/
def member (value : Text → Except ReadError (Json × Text)) (t : Text) :
    Except ReadError ((Text × Json) × Text) := do
  let t ← orMalformed (after? '"' t)
  let (key, t) ← orMalformed (stringRest? [] t)
  let t ← orMalformed (after? ':' (skipSpace t))
  let (v, t) ← value (skipSpace t)
  return ((key, v), t)

/-- A value with less nesting than the first number. -/
def value (dialect : Dialect) : Nat → Text → Except ReadError (Json × Text)
  | 0, _ => .error .malformed
  | _ + 1, [] => .error .malformed
  | n + 1, c :: t =>
    if c = '"' then do
      let (s, t) ← orMalformed (stringRest? [] t)
      return (.str s, t)
    else if c = '[' then do
      let (items, t) ← bracketed (value dialect n) ']' t
      return (.list items, t)
    else if c = '{' then do
      let (members, t) ← bracketed (member (value dialect n)) '}' t
      return (.object (Record.ofPairs members), t)
    else scalar dialect (c :: t)

/-- The value that a whole text writes. A text nests no deeper than it is long. -/
def read (dialect : Dialect) (t : Text) : Except ReadError Json := do
  let (v, rest) ← value dialect (t.length + 1) (skipSpace t)
  if (skipSpace rest).isEmpty then return v else .error .malformed

end Json

end QueryDiagram
