import QueryDiagram.GraphQL.Document
import QueryDiagram.Json.Basic

/-!
# Argument values

The value of a literal, and the JSON value that a diagram shows for it. Conversion fails exactly
on integers with too many digits, also where a later entry of the same name replaces them.
-/

namespace QueryDiagram

open GraphQL

/-- The value of a literal; a name given twice in an object has its last value. -/
inductive ArgumentValue where
  | int (n : Int)
  | float (x : Float)
  | string (value : Text)
  | boolean (value : Bool)
  | null
  | enum (name : Text)
  | list (items : List ArgumentValue)
  | object (fields : List (Text × ArgumentValue))
  | variableRef (name : Text)

/-- Why a node of a document has no argument value. -/
inductive ConversionError where
  | integerTooLong (digits : Nat)
  /-- The node is a definition and not a literal. -/
  | notLiteral (kind : DefinitionKind)
  deriving DecidableEq

/-- The text of the error. -/
def ConversionError.message : ConversionError → Text
  | integerTooLong digits =>
    "Exceeds the limit (" ++ Text.ofNat integerDigitLimit ++
      " digits) for integer string conversion: value has " ++ Text.ofNat digits ++
      " digits; use sys.set_int_max_str_digits() to increase the limit"
  | notLiteral kind => "Unsupported argument value node: " ++ kind.nodeClass

/-- The number that a spelling from a document writes. -/
def numeralOf (spelling : Text) : Numeral :=
  match Numeral.read? spelling with
  | some (n, _) => n
  | none => ⟨false, [], none, none⟩

namespace ArgumentValue

/-- The value of an integer, unless it has too many digits. -/
def ofInteger (spelling : Text) : Except ConversionError ArgumentValue :=
  let n := numeralOf spelling
  if n.whole.length ≤ integerDigitLimit then .ok (.int n.toInt)
  else .error (.integerTooLong n.whole.length)

mutual

/-- The value of a literal; of the fields of an object with one name the last counts. -/
def ofLiteral : Literal → Except ConversionError ArgumentValue
  | .int spelling => ofInteger spelling
  | .float spelling => .ok (.float (numeralOf spelling).toFloat)
  | .string v => .ok (.string v)
  | .boolean b => .ok (.boolean b)
  | .null => .ok .null
  | .enum n => .ok (.enum n)
  | .list items => do return .list (← ofItems items)
  | .object fields => do return .object (Record.ofPairs (← ofFields fields))
  | .variableRef n => .ok (.variableRef n)

/-- The values of the items of a list, up to the first that has none. -/
def ofItems : List Literal → Except ConversionError (List ArgumentValue)
  | [] => .ok []
  | l :: ls => do
    let v ← ofLiteral l
    return v :: (← ofItems ls)

/-- The fields one by one, repeated names and all. -/
def ofFields : List (Text × Literal) → Except ConversionError (List (Text × ArgumentValue))
  | [] => .ok []
  | (k, l) :: fs => do
    let v ← ofLiteral l
    return (k, v) :: (← ofFields fs)

end

/-- A definition is no literal. -/
def ofDefinition (d : Definition) : Except ConversionError ArgumentValue :=
  .error (.notLiteral d.kind)

mutual

/-- The value as JSON: a symbol as its name, a variable as its name after a dollar sign. -/
def toJson : ArgumentValue → Json
  | int n => .int n
  | float x => .float x
  | string v => .str v
  | boolean b => .bool b
  | null => .null
  | enum n => .str n
  | list items => .list (itemsToJson items)
  | object fields => .object (fieldsToJson fields)
  | variableRef n => .str ("$" ++ n)

/-- The items of a list as JSON. -/
def itemsToJson : List ArgumentValue → List Json
  | [] => []
  | v :: vs => v.toJson :: itemsToJson vs

/-- The fields of an object as JSON. -/
def fieldsToJson : List (Text × ArgumentValue) → List (Text × Json)
  | [] => []
  | (k, v) :: fs => (k, v.toJson) :: fieldsToJson fs

end

end ArgumentValue

/-- The arguments of a field by name. -/
def argumentRecord (arguments : List (Text × Literal)) : Except ConversionError (Record Json) := do
  let values ← ArgumentValue.ofFields arguments
  return Record.ofPairs (ArgumentValue.fieldsToJson values)

end QueryDiagram
