import QueryDiagram.GraphQL.Token

/-!
# Why a document is not in the query language

One constructor for every way in which the lexer or the parser gives up, and the sentence that
reports it.
-/

namespace QueryDiagram

namespace GraphQL

/-- Why a text is no document. -/
inductive Error where
  /-- A character that begins no token. -/
  | unexpectedCharacter (c : CodePoint)
  /-- Half of a surrogate pair, alone and outside a string. -/
  | invalidCharacter (c : CodePoint)
  | singleQuotationMark
  /-- Two full stops and not three. -/
  | twoDots
  /-- A full stop before digits. -/
  | noDigitBeforePoint (digits : Text)
  | digitAfterZero (c : CodePoint)
  /-- A number that breaks off; nothing was found at the end of the document. -/
  | noDigit (found : Option CodePoint)
  | unterminatedString
  /-- Half of a surrogate pair, alone and inside a string. -/
  | invalidStringCharacter (c : CodePoint)
  | invalidEscape (escape : Text)
  | invalidUnicodeEscape (escape : Text)
  | expected (wanted : Text) (found : Option Token)
  | unexpected (found : Option Token)
  | describedShorthand
  | describedOther
  /-- A variable where only constants may stand. -/
  | variableInConstant (name : Text)
  /-- A word that cannot name a value of an enumeration. -/
  | reservedEnumValue (found : Token)
  | nestedTooDeeply
  deriving DecidableEq

/-- The point between quotation marks if it is printable ASCII, else its number in base
sixteen. -/
def describePoint (c : CodePoint) : Text :=
  if c = '"' then "'\"'"
  else if 0x20 ≤ c.val ∧ c.val ≤ 0x7E then marked [c]
  else "U+" ++ (Text.ofHex 4 c.val).map CodePoint.toUpper

namespace Error

/-- What the error says, without the words that begin every message. -/
def description : Error → Text
  | unexpectedCharacter c => "Unexpected character: " ++ describePoint c ++ "."
  | invalidCharacter c => "Invalid character: " ++ describePoint c ++ "."
  | singleQuotationMark =>
    "Unexpected single quote character ('), did you mean to use a double quote (\")?"
  | twoDots => "Unexpected '..', did you mean '...'?"
  | noDigitBeforePoint ds =>
    "Invalid number, expected digit before '.', did you mean '0." ++ ds ++ "'?"
  | digitAfterZero c => "Invalid number, unexpected digit after 0: " ++ describePoint c ++ "."
  | noDigit found =>
    "Invalid number, expected digit but got: " ++ (found.map describePoint).getD "<EOF>" ++ "."
  | unterminatedString => "Unterminated string."
  | invalidStringCharacter c => "Invalid character within String: " ++ describePoint c ++ "."
  | invalidEscape e => "Invalid character escape sequence: " ++ marked e ++ "."
  | invalidUnicodeEscape e => "Invalid Unicode escape sequence: " ++ marked e ++ "."
  | expected wanted found => "Expected " ++ wanted ++ ", found " ++ describeFound found ++ "."
  | unexpected found => "Unexpected " ++ describeFound found ++ "."
  | describedShorthand =>
    "Unexpected description, descriptions are not supported on shorthand queries."
  | describedOther => "Unexpected description, only GraphQL definitions support descriptions."
  | variableInConstant name =>
    "Unexpected variable " ++ marked ("$" ++ name) ++ " in constant value."
  | reservedEnumValue found =>
    found.describe ++ " is reserved and cannot be used for an enum value."
  | nestedTooDeeply => "Document is nested too deeply. Parsing aborted."

/-- The error as a sentence of its own. -/
def message (e : Error) : Text := "Syntax Error: " ++ e.description

end Error

end GraphQL

end QueryDiagram
