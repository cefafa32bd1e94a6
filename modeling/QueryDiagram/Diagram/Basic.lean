import QueryDiagram.Diagram.Node
import QueryDiagram.GraphQL.Document
import QueryDiagram.Json.Writer
import QueryDiagram.Layout.Config

/-!
# Diagrams

The graph of a request, together with what is needed to give the request back.
-/

namespace QueryDiagram

/-- A drawn request, with the parts of the request that it was drawn from. -/
structure Diagram (α : Type) where
  operationName : Option Text
  variableValues : Record Json
  query : Text
  document : GraphQL.Document
  nodes : List (Node α)
  edges : List Edge
  layoutMode : LayoutMode

namespace Diagram

variable {α : Type}

/-- The first node with an identifier. -/
def node? (d : Diagram α) (id : Text) : Option (Node α) := d.nodes.find? fun n => n.id = id

/-- The request that the diagram shows. -/
def projection (d : Diagram α) : Record Json :=
  [("operationName", (d.operationName.map Json.str).getD .null),
    ("variables", .object d.variableValues),
    ("query", .str d.query)]

/-- The text of the request. -/
def output (d : Diagram α) : Text := (Json.object d.projection).write

end Diagram

end QueryDiagram
