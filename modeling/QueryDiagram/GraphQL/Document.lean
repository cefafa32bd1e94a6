import QueryDiagram.Text.Basic

/-!
# Documents

The parts of a document that a diagram shows: operations and fragments with their selections and
the arguments of their fields. Of a type system item only its kind is kept; directives and
variable definitions are checked when they are read, and dropped.
-/

namespace QueryDiagram

namespace GraphQL

/-- A value written in a document. Numbers keep their spelling. -/
inductive Literal where
  | int (spelling : Text)
  | float (spelling : Text)
  | string (value : Text)
  | boolean (value : Bool)
  | null
  | enum (name : Text)
  | list (items : List Literal)
  | object (fields : List (Text × Literal))
  | variableRef (name : Text)

/-- A field that is asked for; its arguments may repeat a name. -/
structure Field where
  responseAlias : Option Text
  name : Text
  arguments : List (Text × Literal)

/-- The name of the field in an answer: its alias, or else its own name. -/
def Field.responseName (f : Field) : Text := f.responseAlias.getD f.name

/-- A selection. A field with a selection set, though it be empty, is nested. -/
inductive Selection where
  | leaf (field : Field)
  | nested (field : Field) (body : List Selection)
  | spread (fragment : Text)
  | inline (condition : Option Text) (body : List Selection)

/-- What an operation does. -/
inductive OperationType where
  | query | mutation | subscription
  deriving DecidableEq

/-- The word that begins an operation. -/
def OperationType.keyword : OperationType → String
  | query => "query"
  | mutation => "mutation"
  | subscription => "subscription"

/-- An operation of a document. -/
structure Operation where
  operationType : OperationType
  name : Option Text
  body : List Selection

/-- A fragment of a document, with the type it is for. -/
structure Fragment where
  name : Text
  condition : Text
  body : List Selection

/-- What an item of a type system defines or extends. -/
inductive TypeSystemItem where
  | schema | scalar | objectType | interface | union | enum | inputObject | directive
  deriving DecidableEq

/-- The word that begins the definition of an item. -/
def TypeSystemItem.keyword : TypeSystemItem → String
  | schema => "schema"
  | scalar => "scalar"
  | objectType => "type"
  | interface => "interface"
  | union => "union"
  | enum => "enum"
  | inputObject => "input"
  | directive => "directive"

/-- The items. -/
def TypeSystemItem.all : List TypeSystemItem :=
  [schema, scalar, objectType, interface, union, enum, inputObject, directive]

/-- What a definition defines. -/
inductive DefinitionKind where
  | operation
  | fragment
  | typeSystem (item : TypeSystemItem) (isExtension : Bool)
  deriving DecidableEq

/-- The words that name the kind. -/
def TypeSystemItem.words : TypeSystemItem → List String
  | schema => ["schema"]
  | scalar => ["scalar", "type"]
  | objectType => ["object", "type"]
  | interface => ["interface", "type"]
  | union => ["union", "type"]
  | enum => ["enum", "type"]
  | inputObject => ["input", "object", "type"]
  | directive => ["directive"]

/-- The words of the name of a kind. -/
def DefinitionKind.words : DefinitionKind → List String
  | operation => ["operation", "definition"]
  | fragment => ["fragment", "definition"]
  | typeSystem item isExtension => item.words ++ [if isExtension then "extension" else "definition"]

/-- The kind in lower case, words apart. -/
def DefinitionKind.label (k : DefinitionKind) : Text :=
  Text.join "_" (k.words.map Text.ofString)

/-- The kind as the name of a class of nodes. -/
def DefinitionKind.nodeClass (k : DefinitionKind) : Text :=
  (k.words.flatMap fun w => Text.ofString w.capitalize) ++ "Node"

/-- A definition of a document. Of those of a type system only the kind counts. -/
inductive Definition where
  | operation (o : Operation)
  | fragment (f : Fragment)
  | typeSystem (item : TypeSystemItem) (isExtension : Bool)

/-- The kind of a definition. -/
def Definition.kind : Definition → DefinitionKind
  | operation _ => .operation
  | fragment _ => .fragment
  | typeSystem item isExtension => .typeSystem item isExtension

/-- The selections of the definition, which a type system item does not have. -/
def Definition.body? : Definition → Option (List Selection)
  | operation o => some o.body
  | fragment f => some f.body
  | typeSystem _ _ => none

/-- The definitions of a document, in order. -/
abbrev Document := List Definition

end GraphQL

end QueryDiagram
