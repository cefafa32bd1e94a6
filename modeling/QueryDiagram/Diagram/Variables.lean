import QueryDiagram.Diagram.Node
import QueryDiagram.Tree.Placement

/-!
# Variable nodes

The variables of a request stand in a column beside the trees, one node each.
-/

namespace QueryDiagram

namespace Variables

variable {α : Type} [Scalar α]

/-- The identifier of the node of a variable. -/
def idOf (name : Text) : Text := "var-" ++ name

/-- The node of the variable at a place in the column. -/
def nodeOf (plan : Plan α) (index : Nat) (name : Text) (value : Json) : Node α where
  id := idOf name
  kind := .var
  label := "$" ++ name
  position := plan.position plan.config.variableX
    (plan.config.variableStartY + Scalar.ofNat index * plan.config.variableRowHeight)
  data := { name, value := some value, fieldType := some "variable" }

/-- The nodes of variables that stand in the column from a place on. -/
def nodesFrom (plan : Plan α) (index : Nat) : Record Json → List (Node α)
  | [] => []
  | (name, value) :: rest => nodeOf plan index name value :: nodesFrom plan (index + 1) rest

/-- The nodes of all variables. -/
def nodes (plan : Plan α) (values : Record Json) : List (Node α) := nodesFrom plan 0 values

end Variables

end QueryDiagram
