import QueryDiagram.GraphQL.Parser
import QueryDiagram.Json.Reader

/-!
# Requests

A submission is a JSON object with a query and optionally variables and the name of an operation.
Its faults are looked for in a fixed order: the object, the query text, the variables, the
grammar of the query, and last the name.
-/

namespace QueryDiagram

open GraphQL

/-- A request that can be drawn. -/
structure Request where
  query : Text
  document : Document
  operationName : Option Text
  variableValues : Record Json

/-- Why a submission is refused. -/
inductive RequestError where
  | invalidFormat
  | missingQuery
  | invalidQuery (cause : GraphQL.Error)
  deriving DecidableEq

/-- The text of the error. -/
def RequestError.message : RequestError → Text
  | invalidFormat => "Invalid JSON format"
  | missingQuery => "Missing or invalid \"query\" field"
  | invalidQuery cause => "Invalid GraphQL query: " ++ cause.message

namespace Request

/-- The object that a text writes. -/
def readObject (t : Text) : Except RequestError (Record Json) :=
  match Json.read .strict t with
  | .ok (.object members) => .ok members
  | _ => .error .invalidFormat

/-- The query, which must be a text with something in it. -/
def queryText : Option Json → Except RequestError Text
  | some (.str []) => .error .missingQuery
  | some (.str t) => .ok t
  | _ => .error .missingQuery

/-- The variables, none if they are left out or null. -/
def variableValuesOf : Option Json → Except RequestError (Record Json)
  | none => .ok []
  | some .null => .ok []
  | some (.object members) => .ok members
  | some _ => .error .invalidFormat

/-- The name of the operation; a blank value of any kind stands for none. -/
def operationNameOf : Option Json → Except RequestError (Option Text)
  | none => .ok none
  | some v =>
    if v.isBlank then .ok none
    else
      match v with
      | .str t => .ok (some t)
      | _ => .error .invalidFormat

/-- The document of a query. -/
def documentOf (query : Text) : Except RequestError Document :=
  match GraphQL.parse query with
  | .ok d => .ok d
  | .error e => .error (.invalidQuery e)

/-- The request in a text. What is wrong first, in this order, is the error. -/
def read (t : Text) : Except RequestError Request := do
  let members ← readObject t
  let query ← queryText (members.get? "query")
  let variableValues ← variableValuesOf (members.get? "variables")
  let document ← documentOf query
  let operationName ← operationNameOf (members.get? "operationName")
  return ⟨query, document, operationName, variableValues⟩

end Request

end QueryDiagram
