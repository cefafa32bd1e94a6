import QueryDiagram.GraphQL.Error

/-!
# Lexical structure

`Token.read` takes the next token off the front of a document. Blanks, commas, byte order marks
and comments stand between tokens and mean nothing. The two halves of a surrogate pair, one
directly after the other, count as the character they stand for; a half alone is not allowed
anywhere.
-/

namespace QueryDiagram

namespace GraphQL

/-- The character ends a line. -/
def isLineEnd (c : CodePoint) : Bool := c = '\n' ∨ c = '\r'

/-- A point without meaning between tokens. -/
def isIgnored (c : CodePoint) : Bool :=
  c = ' ' ∨ c = '\t' ∨ c = ',' ∨ c = '\ufeff' ∨ isLineEnd c

/-- The character may begin a name. -/
def isNameStart : CodePoint → Bool
  | .scalar c => c.isAlpha || c == '_'
  | .surrogate _ => false

/-- The character may stand in a name after its first. -/
def isNameContinue (c : CodePoint) : Bool := isNameStart c || c.isDigit

/-- Whether the two halves stand for a character. -/
def isPair (s s' : Fin 0x800) : Bool :=
  (CodePoint.surrogate s).isLeading && (CodePoint.surrogate s').isTrailing

/-- The document from its next token on. A comment ends with its line, or before half of a
surrogate pair that stands alone, which it cannot hold. -/
def skipIgnored (inComment : Bool) : Text → Text
  | [] => []
  | .surrogate s :: .surrogate s' :: rest =>
    if inComment && isPair s s' then skipIgnored true rest
    else .surrogate s :: .surrogate s' :: rest
  | .surrogate s :: rest => .surrogate s :: rest
  | .scalar c :: rest =>
    if inComment then skipIgnored (!isLineEnd c) rest
    else if c = '#' then skipIgnored true rest
    else if isIgnored c then skipIgnored false rest
    else .scalar c :: rest

/-! ## Numbers -/

/-- A run of at least one digit. -/
def digits (t : Text) : Except Error (Text × Text) :=
  match t.span CodePoint.isDigit with
  | ([], rest) => .error (.noDigit (Text.front? rest))
  | split => .ok split

/-- The digits before the point; a zero in front stands alone. -/
def wholePart : Text → Except Error (Text × Text)
  | .scalar '0' :: c :: rest =>
    if c.isDigit then .error (.digitAfterZero c) else .ok (['0'], c :: rest)
  | t => digits t

/-- The point and the digits after it. -/
def fractionPart : Text → Except Error (Text × Text)
  | .scalar '.' :: rest => do
    let (ds, rest) ← digits rest
    return (.scalar '.' :: ds, rest)
  | t => .ok ([], t)

/-- A plus or minus sign, if there is one. -/
def signPart : Text → Text × Text
  | .scalar '+' :: rest => (['+'], rest)
  | .scalar '-' :: rest => (['-'], rest)
  | t => ([], t)

/-- The mark of an exponent, its sign and its digits. -/
def exponentPart : Text → Except Error (Text × Text)
  | [] => .ok ([], [])
  | c :: rest =>
    if c = 'e' ∨ c = 'E' then do
      let (sign, rest) := signPart rest
      let (ds, rest) ← digits rest
      return (c :: sign ++ ds, rest)
    else .ok ([], c :: rest)

/-- A number must not run into a name or another point. -/
def endsNumber (t : Text) : Except Error Unit :=
  match t with
  | [] => .ok ()
  | c :: _ => if c = '.' ∨ isNameStart c then .error (.noDigit (some c)) else .ok ()

/-- A number after its minus sign, if it has one. -/
def number (sign : Text) (t : Text) : Except Error (Token × Text) := do
  let (whole, t) ← wholePart t
  let (fraction, t) ← fractionPart t
  let (exponent, t) ← exponentPart t
  endsNumber t
  let spelling := sign ++ whole ++ fraction ++ exponent
  return (if fraction.isEmpty && exponent.isEmpty then .int spelling else .float spelling, t)

/-! ## Strings -/

/-- A scalar value, and nothing for half of a surrogate pair. -/
def scalarOnly? : CodePoint → Option CodePoint
  | .scalar c => some (.scalar c)
  | .surrogate _ => none

/-- The escape between braces: `seen` holds what was read of it so far in reverse, `value` its
digits. A valid one has from one to eight digits that name a scalar value. -/
def bracedEscape (seen : Text) (value : Nat) : Nat → Text → Except Error (CodePoint × Text)
  | n + 1, c :: rest =>
    match c.hexDigit? with
    | some d => bracedEscape (c :: seen) (value * 16 + d) n rest
    | none =>
      if c = '}' ∧ seen ≠ [] then
        match (CodePoint.ofNat? value).bind scalarOnly? with
        | some p => .ok (p, rest)
        | none => .error (.invalidUnicodeEscape ("\\u\x7b" ++ (c :: seen).reverse))
      else .error (.invalidUnicodeEscape ("\\u\x7b" ++ (c :: seen).reverse))
  | _, _ => .error (.invalidUnicodeEscape ("\\u\x7b" ++ seen.reverse))

/-- The second half of a surrogate pair, escaped, completes an escaped first half. -/
def pairEscape? (p : CodePoint) : Text → Option (CodePoint × Text)
  | .scalar '\\' :: .scalar 'u' :: a :: b :: c :: d :: rest =>
    ((CodePoint.ofHex4? a b c d).bind p.combine?).map fun q => (q, rest)
  | _ => none

/-- The escape of four digits. Half of a surrogate pair is valid only as part of a pair. -/
def fixedEscape : Text → Except Error (CodePoint × Text)
  | a :: b :: c :: d :: rest =>
    match CodePoint.ofHex4? a b c d with
    | some (.scalar p) => .ok (.scalar p, rest)
    | some p =>
      match pairEscape? p rest with
      | some r => .ok r
      | none => .error (.invalidUnicodeEscape ("\\u" ++ [a, b, c, d]))
    | none => .error (.invalidUnicodeEscape ("\\u" ++ [a, b, c, d]))
  | t => .error (.invalidUnicodeEscape ("\\u" ++ t))

/-- The point that an escape stands for; the text begins after the backslash. -/
def escape : Text → Except Error (CodePoint × Text)
  | .scalar 'u' :: .scalar '{' :: rest => bracedEscape [] 0 9 rest
  | .scalar 'u' :: rest => fixedEscape rest
  | .scalar '"' :: rest => .ok ('"', rest)
  | .scalar '\\' :: rest => .ok ('\\', rest)
  | .scalar '/' :: rest => .ok ('/', rest)
  | .scalar 'b' :: rest => .ok ('\x08', rest)
  | .scalar 'f' :: rest => .ok ('\x0c', rest)
  | .scalar 'n' :: rest => .ok ('\n', rest)
  | .scalar 'r' :: rest => .ok ('\r', rest)
  | .scalar 't' :: rest => .ok ('\t', rest)
  | t => .error (.invalidEscape (.scalar '\\' :: t.take 1))

theorem length_le_of_bracedEscape {seen t rest : Text} {value n : Nat} {p : CodePoint}
    (h : bracedEscape seen value n t = .ok (p, rest)) : rest.length ≤ t.length := by
  fun_induction bracedEscape seen value n t <;> grind

theorem length_le_of_pairEscape? {t rest : Text} {p q : CodePoint}
    (h : pairEscape? p t = some (q, rest)) : rest.length ≤ t.length := by
  unfold pairEscape? at h
  split at h
  · simp only [Option.map_eq_some_iff, Prod.mk.injEq] at h
    obtain ⟨_, _, _, rfl⟩ := h
    simp
    omega
  · simp at h

theorem length_le_of_fixedEscape {t rest : Text} {p : CodePoint}
    (h : fixedEscape t = .ok (p, rest)) : rest.length ≤ t.length := by
  unfold fixedEscape at h
  split at h
  · split at h
    · simp at h
      simp [← h.2]
      omega
    · split at h
      · next hr =>
        have := length_le_of_pairEscape? (hr.trans (congrArg some (Except.ok.inj h)))
        simp
        omega
      · simp at h
    · simp at h
  · simp at h

theorem length_lt_of_escape {t rest : Text} {p : CodePoint} (h : escape t = .ok (p, rest)) :
    rest.length < t.length := by
  unfold escape at h
  split at h
  · have := length_le_of_bracedEscape h
    simp
    omega
  · have := length_le_of_fixedEscape h
    simp
    omega
  all_goals cases h
  all_goals simp

/-- The rest of a string after its opening mark; `read` holds the points read so far in
reverse. -/
def stringRest (read : Text) (t : Text) : Except Error (Text × Text) :=
  match t with
  | [] => .error .unterminatedString
  | .surrogate s :: .surrogate s' :: rest =>
    if isPair s s' then stringRest (.surrogate s' :: .surrogate s :: read) rest
    else .error (.invalidStringCharacter (.surrogate s))
  | .surrogate s :: _ => .error (.invalidStringCharacter (.surrogate s))
  | .scalar c :: rest =>
    if c = '"' then .ok (read.reverse, rest)
    else if isLineEnd c then .error .unterminatedString
    else if c = '\\' then
      match _h : escape rest with
      | .ok (p, rest') => stringRest (p :: read) rest'
      | .error e => .error e
    else stringRest (.scalar c :: read) rest
termination_by t.length
decreasing_by
  · simp only [List.length_cons]
    omega
  · have := length_lt_of_escape _h
    simp only [List.length_cons]
    omega
  · simp only [List.length_cons]
    omega

/-! ## Block strings -/

/-- Whether a point counts as indentation of a line. -/
def isIndent (c : CodePoint) : Bool := c = ' ' ∨ c = '\t'

/-- The line has nothing but indentation. -/
def isBlankLine (line : Text) : Bool := line.all isIndent

/-- The number of points that every line but blank ones begins with as indentation. -/
def commonIndent (lines : List Text) : Option Nat :=
  ((lines.filter fun l => !isBlankLine l).map fun l => (l.takeWhile isIndent).length).min?

/-- The lines without the indentation that all but the first share, and without the blank lines
at both ends. -/
def dedent : List Text → List Text
  | [] => []
  | first :: others =>
    let cut := (commonIndent others).getD 0
    let lines := first :: others.map fun l => l.drop cut
    ((lines.dropWhile isBlankLine).reverse.dropWhile isBlankLine).reverse

/-- The lines of a block string after its opening marks; `line` holds the current line and
`lines` those before it, in reverse. -/
def blockLines (line : Text) (lines : List Text) : Text → Except Error (List Text × Text)
  | [] => .error .unterminatedString
  | .surrogate s :: .surrogate s' :: rest =>
    if isPair s s' then blockLines (.surrogate s' :: .surrogate s :: line) lines rest
    else .error (.invalidStringCharacter (.surrogate s))
  | .surrogate s :: _ => .error (.invalidStringCharacter (.surrogate s))
  | .scalar '"' :: .scalar '"' :: .scalar '"' :: rest => .ok ((line.reverse :: lines).reverse, rest)
  | .scalar '\\' :: .scalar '"' :: .scalar '"' :: .scalar '"' :: rest =>
    blockLines ('"' :: '"' :: '"' :: line) lines rest
  | .scalar '\r' :: .scalar '\n' :: rest => blockLines [] (line.reverse :: lines) rest
  | .scalar c :: rest =>
    if isLineEnd c then blockLines [] (line.reverse :: lines) rest
    else blockLines (.scalar c :: line) lines rest

/-- A string after its first mark; two further marks open a block string. -/
def stringToken : Text → Except Error (Token × Text)
  | .scalar '"' :: .scalar '"' :: rest => do
    let (lines, rest) ← blockLines [] [] rest
    return (.blockString (Text.join "\n" (dedent lines)), rest)
  | t => do
    let (value, rest) ← stringRest [] t
    return (.string value, rest)

/-! ## Tokens -/

/-- What begins with a full stop: the token of three, or an error. -/
def dots : Text → Except Error (Token × Text)
  | .scalar '.' :: .scalar '.' :: rest => .ok (.punctuator .spread, rest)
  | .scalar '.' :: _ => .error .twoDots
  | t =>
    match t.takeWhile CodePoint.isDigit with
    | [] => .error (.unexpectedCharacter '.')
    | ds => .error (.noDigitBeforePoint ds)

/-- The token at the front of a text that begins with no ignored point. -/
def Token.readAt (c : Char) (rest : Text) : Except Error (Token × Text) :=
  match Punctuator.ofChar? c with
  | some p => .ok (.punctuator p, rest)
  | none =>
    if c = '.' then dots rest
    else if c = '"' then stringToken rest
    else if c = '-' then number ['-'] rest
    else if c.isDigit then number [] (.scalar c :: rest)
    else if isNameStart c then
      let (tail, rest) := rest.span isNameContinue
      .ok (.name (.scalar c :: tail), rest)
    else if c = '\x27' then .error .singleQuotationMark
    else .error (.unexpectedCharacter c)

/-- The next token and the rest, or nothing at the end of the document. -/
def Token.read (t : Text) : Except Error (Option Token × Text) :=
  match skipIgnored false t with
  | [] => .ok (none, [])
  | .surrogate s :: rest =>
    match rest.head?.bind (CodePoint.surrogate s).combine? with
    | some c => .error (.unexpectedCharacter c)
    | none => .error (.invalidCharacter (.surrogate s))
  | .scalar c :: rest => do
    let (token, rest) ← Token.readAt c rest
    return (some token, rest)

end GraphQL

end QueryDiagram
