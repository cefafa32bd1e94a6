import QueryDiagram.GraphQL.Lexer
import QueryDiagram.GraphQL.Document

/-!
# Grammar

A parser holds the token it looks at and the text after that token. Taking a token reads the next
one, so an error inside a token shows as soon as the token before it is taken.

Selection sets, lists, objects and list types may be open inside each other up to a fixed depth.
The functions for them recurse on the number of levels that are left; every loop takes a token in
each round, so the length of the text bounds it.
-/

namespace QueryDiagram

namespace GraphQL

/-- The token a parser looks at, if the document has not ended, and the text after it. -/
structure Cursor where
  token : Option Token
  rest : Text
  /-- The length of the whole document, which its number of tokens cannot exceed. -/
  length : Nat

/-- The place before the first token. -/
def Cursor.start (t : Text) : Cursor := ⟨none, t, t.length⟩

/-- Reads from a cursor, and moves it. -/
abbrev Parser := StateT Cursor (Except Error)

namespace Parser

variable {α : Type}

/-! ## Single tokens -/

/-- The token at the cursor; at the end there is none. -/
def peek : Parser (Option Token) := return (← get).token

/-- The token after the current one. -/
def lookAhead : Parser (Option Token) := do
  let (token, _) ← Token.read (← get).rest
  return token

/-- Goes on to the next token. -/
def advance : Parser Unit := do
  let cursor ← get
  let (token, rest) ← Token.read cursor.rest
  set (Cursor.mk token rest cursor.length)

/-- Gives up with an error. -/
def fail (e : Error) : Parser α := throw e

/-- Refuses the current token. -/
def unexpected : Parser α := do fail (.unexpected (← peek))

/-- Refuses the current token where a certain one has to stand. -/
def expected (wanted : Text) : Parser α := do fail (.expected wanted (← peek))

/-- The cursor is at a punctuator. -/
def atPunctuator (p : Punctuator) : Parser Bool := return (← peek) = some (.punctuator p)

/-- Takes the punctuator if it stands here. -/
def accept (p : Punctuator) : Parser Bool := do
  if ← atPunctuator p then
    advance
    return true
  else return false

/-- Goes past a punctuator, which has to be there. -/
def expect (p : Punctuator) : Parser Unit := do
  if ← atPunctuator p then advance else expected p.describe

/-- The cursor is at a word. -/
def atWord (word : String) : Parser Bool := return (← peek) = some (.name word)

/-- Takes the keyword if it stands here. -/
def acceptWord (word : String) : Parser Bool := do
  if ← atWord word then
    advance
    return true
  else return false

/-- Goes past a word, which has to be there. -/
def expectWord (word : String) : Parser Unit := do
  if ← atWord word then advance else expected (marked word)

/-- Reads a name. -/
def name : Parser Text := do
  match ← peek with
  | some (.name n) =>
    advance
    return n
  | _ => expected "Name"

/-! ## Repetition -/

/-- A number of rounds that no loop over the document can exceed. -/
def rounds : Parser Nat := return (← get).length + 2

/-- Items until the closing token is taken. -/
def itemsUntil (close : Punctuator) (item : Parser α) : Nat → Parser (List α)
  | 0 => unexpected
  | n + 1 => do
    if ← accept close then return []
    else
      let a ← item
      return a :: (← itemsUntil close item n)

/-- Any number of items between two tokens. -/
def any (opening close : Punctuator) (item : Parser α) : Parser (List α) := do
  expect opening
  itemsUntil close item (← rounds)

/-- At least one item between two tokens. -/
def many (opening close : Punctuator) (item : Parser α) : Parser (List α) := do
  expect opening
  let a ← item
  return a :: (← itemsUntil close item (← rounds))

/-- At least one item between two tokens, or nothing if the first does not stand here. -/
def optionalMany (opening close : Punctuator) (item : Parser α) : Parser (List α) := do
  if ← atPunctuator opening then many opening close item else return []

/-- An item and further items while the separator follows. -/
def separatedFrom (separator : Punctuator) (item : Parser α) : Nat → Parser (List α)
  | 0 => unexpected
  | n + 1 => do
    let a ← item
    if ← accept separator then return a :: (← separatedFrom separator item n)
    else return [a]

/-- At least one item, separated and optionally led by the separator. -/
def separated (separator : Punctuator) (item : Parser α) : Parser (List α) := do
  let _ ← accept separator
  separatedFrom separator item (← rounds)

/-- Items as long as each begins with the given token. -/
def itemsAt (first : Punctuator) (item : Parser α) : Nat → Parser (List α)
  | 0 => unexpected
  | n + 1 => do
    if ← atPunctuator first then
      let a ← item
      return a :: (← itemsAt first item n)
    else return []

/-! ## Values -/

/-- The number of levels that may be open inside each other. -/
def depthLimit : Nat := 200

/-- A name and, after a colon, what it stands for. -/
def labelled (value : Parser α) : Parser (Text × α) := do
  let n ← name
  expect .colon
  return (n, ← value)

/-- A variable; among constants it is refused, by its name if it has one. -/
def variableLiteral (constant : Bool) : Parser Literal := do
  let dollar ← peek
  expect .dollar
  if constant then
    match ← peek with
    | some (.name n) => fail (.variableInConstant n)
    | _ => fail (.unexpected dollar)
  else return .variableRef (← name)

/-- A word as a value. -/
def wordLiteral (word : Text) : Literal :=
  if word = "true" then .boolean true
  else if word = "false" then .boolean false
  else if word = "null" then .null
  else .enum word

/-- A value, given how to read what lists and objects hold. -/
def literalOf (constant : Bool) (items : Parser (List Literal))
    (fields : Parser (List (Text × Literal))) : Parser Literal := do
  match ← peek with
  | some (.punctuator .bracketOpen) => return .list (← items)
  | some (.punctuator .braceOpen) => return .object (← fields)
  | some (.punctuator .dollar) => variableLiteral constant
  | some (.int v) => advance; return .int v
  | some (.float v) => advance; return .float v
  | some (.string v) => advance; return .string v
  | some (.blockString v) => advance; return .string v
  | some (.name v) => advance; return wordLiteral v
  | _ => unexpected

/-- A value that opens at most so many levels. -/
def literal (constant : Bool) : Nat → Parser Literal
  | 0 => literalOf constant (fail .nestedTooDeeply) (fail .nestedTooDeeply)
  | n + 1 =>
    literalOf constant (any .bracketOpen .bracketClose (literal constant n))
      (any .braceOpen .braceClose (labelled (literal constant n)))

/-- Reads the arguments of a field or a directive, if there are any. -/
def arguments (constant : Bool) (levels : Nat) : Parser (List (Text × Literal)) :=
  optionalMany .parenOpen .parenClose (labelled (literal constant levels))

/-- Reads a directive, of which nothing is kept. -/
def directive (constant : Bool) (levels : Nat) : Parser Unit := do
  expect .atSign
  let _ ← name
  let _ ← arguments constant levels

/-- Any number of directives; whether there is one. -/
def directives (constant : Bool) (levels : Nat) : Parser Bool := do
  let ds ← itemsAt .atSign (directive constant levels) (← rounds)
  return !ds.isEmpty

/-! ## Selections -/

/-- What follows the three points: a spread, or an inline fragment. -/
def fragmentSelection (levels : Nat) (body : Parser (List Selection)) : Parser Selection := do
  if ← acceptWord "on" then
    let condition ← name
    let _ ← directives false levels
    return .inline (some condition) (← body)
  else
    match ← peek with
    | some (.name n) =>
      advance
      let _ ← directives false levels
      return .spread n
    | _ =>
      let _ ← directives false levels
      return .inline none (← body)

/-- Reads a field and its body. A name before a colon is the alias. -/
def fieldSelection (levels : Nat) (body : Parser (List Selection)) : Parser Selection := do
  let first ← name
  let second ← do
    if ← accept .colon then pure (some (← name)) else pure none
  let args ← arguments false levels
  let _ ← directives false levels
  let field : Field :=
    match second with
    | some n => ⟨some first, n, args⟩
    | none => ⟨none, first, args⟩
  if ← atPunctuator .braceOpen then return .nested field (← body) else return .leaf field

/-- Reads a selection; three dots begin a spread or an inline fragment. -/
def selection (levels : Nat) (body : Parser (List Selection)) : Parser Selection := do
  if ← accept .spread then fragmentSelection levels body else fieldSelection levels body

/-- A selection set that opens at most so many levels. It may be empty: the service takes in `{ }`
and `{ a { } }` and draws them without children, and the grammar followed here is the one that it
reads by. Results about sets that are not empty assume so by name (`isFilled`). -/
def selectionSet : Nat → Parser (List Selection)
  | 0 => fail .nestedTooDeeply
  | n + 1 => any .braceOpen .braceClose (selection n (selectionSet n))

/-! ## Operations and fragments -/

/-- A type, given how to read what a list type holds. -/
def typeReferenceOf (item : Parser Unit) : Parser Unit := do
  if ← atPunctuator .bracketOpen then
    item
  else
    let _ ← name
  let _ ← accept .bang

/-- A type that opens at most so many levels. The bracket that opens one too many is taken before
it is refused, so that an error in the token after it comes first. -/
def typeReference : Nat → Parser Unit
  | 0 => typeReferenceOf do
    expect .bracketOpen
    fail .nestedTooDeeply
  | n + 1 => typeReferenceOf do
    expect .bracketOpen
    typeReference n
    expect .bracketClose

/-- Reads a description, if there is one. -/
def description : Parser Unit := do
  match ← peek with
  | some t => if t.isString then advance
  | none => return

/-- Reads a default value, if there is one. -/
def defaultValue : Parser Unit := do
  if ← accept .equals then
    let _ ← literal true depthLimit

/-- Reads the definition of a variable. -/
def variableDefinition : Parser Unit := do
  description
  expect .dollar
  let _ ← name
  expect .colon
  typeReference depthLimit
  defaultValue
  let _ ← directives true depthLimit

/-- An operation after its keyword. -/
def operationAfter (operationType : OperationType) : Parser Operation := do
  let operationName ← do
    match ← peek with
    | some (.name n) =>
      advance
      pure (some n)
    | _ => pure none
  let _ ← optionalMany .parenOpen .parenClose variableDefinition
  let _ ← directives false depthLimit
  return ⟨operationType, operationName, ← selectionSet depthLimit⟩

/-- A fragment after its keyword. Its name cannot be the word before a type condition. -/
def fragmentAfter : Parser Fragment := do
  if ((← peek).bind Token.value?) = some "on" then unexpected
  else
    let fragmentName ← name
    expectWord "on"
    let condition ← name
    let _ ← directives false depthLimit
    return ⟨fragmentName, condition, ← selectionSet depthLimit⟩

/-! ## Type system -/

/-- One of the three kinds of operation, with its type. -/
def rootOperation : Parser Unit := do
  let word ← name
  if word = "query" ∨ word = "mutation" ∨ word = "subscription" then
    expect .colon
    let _ ← name
  else fail (.unexpected (some (.name word)))

/-- The interfaces of a type; whether there is one. -/
def interfaces : Parser Bool := do
  if ← acceptWord "implements" then
    let _ ← separated .ampersand name
    return true
  else return false

/-- Reads the definition of an argument, or of a field of an input object. -/
def inputValue : Parser Unit := do
  description
  let _ ← name
  expect .colon
  typeReference depthLimit
  defaultValue
  let _ ← directives true depthLimit

/-- Reads the fields of an input object; the answer is whether there are any. -/
def inputFields : Parser Bool :=
  return !(← optionalMany .braceOpen .braceClose inputValue).isEmpty

/-- Reads the definitions of arguments, if there are any. -/
def argumentDefinitions : Parser Unit := do
  let _ ← optionalMany .parenOpen .parenClose inputValue

/-- Reads the definition of a field of a type. -/
def fieldDefinition : Parser Unit := do
  description
  let _ ← name
  argumentDefinitions
  expect .colon
  typeReference depthLimit
  let _ ← directives true depthLimit

/-- Reads the fields of a type; the answer is whether there are any. -/
def fieldDefinitions : Parser Bool :=
  return !(← optionalMany .braceOpen .braceClose fieldDefinition).isEmpty

/-- Reads the members of a union; the answer is whether there are any. -/
def unionMembers : Parser Bool := do
  if ← accept .equals then
    let _ ← separated .pipe name
    return true
  else return false

/-- The words that cannot name a value of an enumeration. -/
def reservedEnumValues : List Text := ["true", "false", "null"]

/-- Reads the name of an enum value, other than a reserved one. -/
def enumValueName : Parser Unit := do
  match ← peek with
  | some t =>
    if reservedEnumValues.any fun w => t.value? = some w then fail (.reservedEnumValue t)
    else
      let _ ← name
  | none => expected "Name"

/-- Reads the definition of an enum value. -/
def enumValue : Parser Unit := do
  description
  enumValueName
  let _ ← directives true depthLimit

/-- Reads the values of an enum; the answer is whether there are any. -/
def enumValues : Parser Bool :=
  return !(← optionalMany .braceOpen .braceClose enumValue).isEmpty

/-- The words for the places where a directive may stand. -/
def directiveLocations : List String :=
  ["QUERY", "MUTATION", "SUBSCRIPTION", "FIELD", "FRAGMENT_DEFINITION", "FRAGMENT_SPREAD",
    "INLINE_FRAGMENT", "VARIABLE_DEFINITION", "FRAGMENT_VARIABLE_DEFINITION", "SCHEMA", "SCALAR",
    "OBJECT", "FIELD_DEFINITION", "ARGUMENT_DEFINITION", "INTERFACE", "UNION", "ENUM",
    "ENUM_VALUE", "INPUT_OBJECT", "INPUT_FIELD_DEFINITION", "DIRECTIVE_DEFINITION"]

/-- Reads the word for a place where a directive may stand. -/
def directiveLocation : Parser Unit := do
  let word ← name
  if directiveLocations.any fun l => word = Text.ofString l then return
  else fail (.unexpected (some (.name word)))

/-- What follows the directives of an item: whether there is any of it. -/
def itemBody : TypeSystemItem → Parser Bool
  | .objectType | .interface => fieldDefinitions
  | .union => unionMembers
  | .enum => enumValues
  | .inputObject => inputFields
  | .schema | .scalar | .directive => return false

/-- A named type after its keyword: whether more than its name is given. -/
def namedType (item : TypeSystemItem) : Parser Bool := do
  let _ ← name
  let implements ← if item = .objectType ∨ item = .interface then interfaces else pure false
  let directed ← directives true depthLimit
  let bodied ← itemBody item
  return implements || directed || bodied

/-- A definition of a type system item after its keyword. -/
def itemAfter : TypeSystemItem → Parser Unit
  | .schema => do
    let _ ← directives true depthLimit
    let _ ← many .braceOpen .braceClose rootOperation
  | .directive => do
    expect .atSign
    let _ ← name
    argumentDefinitions
    let _ ← directives true depthLimit
    let _ ← acceptWord "repeatable"
    expectWord "on"
    let _ ← separated .pipe directiveLocation
  | item => do
    let _ ← namedType item

/-- An extension after its keywords: whether it extends anything. -/
def extensionAfter : TypeSystemItem → Parser Bool
  | .schema => do
    let directed ← directives true depthLimit
    let operations ← optionalMany .braceOpen .braceClose rootOperation
    return directed || !operations.isEmpty
  | .directive => do
    expect .atSign
    let _ ← name
    directives true depthLimit
  | item => namedType item

/-! ## Definitions -/

/-- The item that a keyword introduces. -/
def itemOf? (word : Text) : Option TypeSystemItem :=
  TypeSystemItem.all.find? fun item => word = Text.ofString item.keyword

/-- The type of operation that a word begins. -/
def operationTypeOf? (word : Text) : Option OperationType :=
  [OperationType.query, .mutation, .subscription].find? fun t => word = Text.ofString t.keyword

/-- An extension; the word after the first says of what. -/
def extension : Parser Definition := do
  let next ← lookAhead
  match next with
  | some (.name word) =>
    match itemOf? word with
    | some item =>
      advance
      advance
      if ← extensionAfter item then return .typeSystem item true else unexpected
    | none => fail (.unexpected next)
  | _ => fail (.unexpected next)

/-- A definition that begins with a keyword, after its description if it has one. -/
def keywordDefinition (described : Bool) (word : Text) : Parser Definition := do
  let start : Parser Unit := do
    description
    advance
  match itemOf? word with
  | some item =>
    start
    itemAfter item
    return .typeSystem item false
  | none =>
    match operationTypeOf? word with
    | some t =>
      start
      return .operation (← operationAfter t)
    | none =>
      if word = "fragment" then
        start
        return .fragment (← fragmentAfter)
      else if described then fail .describedOther
      else if word = "extend" then extension
      else unexpected

/-- Reads a definition. A brace begins a query without a name. -/
def definition : Parser Definition := do
  if ← atPunctuator .braceOpen then
    return .operation ⟨.query, none, ← selectionSet depthLimit⟩
  else
    let described := ((← peek).map Token.isString).getD false
    let keyword ← if described then lookAhead else peek
    match keyword with
    | some (.name word) => keywordDefinition described word
    | some (.punctuator .braceOpen) => fail .describedShorthand
    | t => fail (.unexpected t)

/-- Definitions up to the end of the document. -/
def definitionsFrom : Nat → Parser (List Definition)
  | 0 => unexpected
  | n + 1 => do
    let d ← definition
    match ← peek with
    | none => return [d]
    | some _ => return d :: (← definitionsFrom n)

/-- At least one definition. -/
def document : Parser Document := do
  advance
  definitionsFrom (← rounds)

end Parser

/-- The document that a text writes. -/
def parse (t : Text) : Except Error Document :=
  (Parser.document.run (.start t)).map Prod.fst

end GraphQL

end QueryDiagram
