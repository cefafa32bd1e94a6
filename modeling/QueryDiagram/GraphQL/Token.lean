import QueryDiagram.Text.Basic

/-!
# Tokens of the query language
-/

namespace QueryDiagram

namespace GraphQL

/-- The tokens that are no names, numbers or strings. -/
inductive Punctuator where
  | bang | dollar | ampersand | parenOpen | parenClose | spread | colon | equals | atSign
  | bracketOpen | bracketClose | braceOpen | pipe | braceClose
  deriving DecidableEq

namespace Punctuator

/-- The characters of a punctuator. -/
def spelling : Punctuator → List Char
  | bang => ['!']
  | dollar => ['$']
  | ampersand => ['&']
  | parenOpen => ['(']
  | parenClose => [')']
  | spread => ['.', '.', '.']
  | colon => [':']
  | equals => ['=']
  | atSign => ['@']
  | bracketOpen => ['[']
  | bracketClose => [']']
  | braceOpen => ['{']
  | pipe => ['|']
  | braceClose => ['}']

/-- The punctuator that is spelled with one character. -/
def ofChar? : Char → Option Punctuator
  | '!' => some bang
  | '$' => some dollar
  | '&' => some ampersand
  | '(' => some parenOpen
  | ')' => some parenClose
  | ':' => some colon
  | '=' => some equals
  | '@' => some atSign
  | '[' => some bracketOpen
  | ']' => some bracketClose
  | '{' => some braceOpen
  | '|' => some pipe
  | '}' => some braceClose
  | _ => none

theorem spelling_of_ofChar? {c : Char} {p : Punctuator} (h : ofChar? c = some p) :
    p.spelling = [c] := by
  unfold ofChar? at h
  split at h <;> simp at h <;> subst h <;> rfl

end Punctuator

/-- A token. Numbers keep their spelling; strings hold their value. -/
inductive Token where
  | punctuator (p : Punctuator)
  | name (value : Text)
  | int (spelling : Text)
  | float (spelling : Text)
  | string (value : Text)
  | blockString (value : Text)
  deriving DecidableEq

namespace Token

/-- What the token says beyond its kind; a punctuator says nothing. -/
def value? : Token → Option Text
  | punctuator _ => none
  | name v | int v | float v | string v | blockString v => some v

/-- Whether the token is a string of either form. -/
def isString : Token → Bool
  | string _ | blockString _ => true
  | _ => false

end Token

/-- A text between single quotation marks, as it stands. -/
def marked (t : Text) : Text := "'" ++ t ++ "'"

/-- How messages name a punctuator. -/
def Punctuator.describe (p : Punctuator) : Text := marked (p.spelling.map .scalar)

/-- The token as an error message names it. -/
def Token.describe : Token → Text
  | punctuator p => p.describe
  | name v => "Name " ++ marked v
  | int v => "Int " ++ marked v
  | float v => "Float " ++ marked v
  | string v => "String " ++ marked v
  | blockString v => "BlockString " ++ marked v

/-- The token, or the end of the document. -/
def describeFound : Option Token → Text
  | some t => t.describe
  | none => "<EOF>"

end GraphQL

end QueryDiagram
