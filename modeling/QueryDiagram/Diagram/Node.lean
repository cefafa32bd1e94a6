import QueryDiagram.Json.Basic
import QueryDiagram.Layout.Scalar

/-!
# Nodes and edges
-/

namespace QueryDiagram

/-- What a node stands for. -/
inductive NodeKind where
  | operation
  | field
  | fragment
  | var
  | fieldGroup
  deriving DecidableEq

namespace NodeKind

/-- The name under which the kind is sent. -/
def name : NodeKind → Text
  | operation => "operation"
  | field => "field"
  | fragment => "fragment"
  | var => "variable"
  | fieldGroup => "fieldGroup"

/-- The kinds. -/
def all : List NodeKind := [operation, field, fragment, var, fieldGroup]

/-- The kind with a name. -/
def ofName? (t : Text) : Option NodeKind := all.find? fun k => t = k.name

theorem ofName?_name (k : NodeKind) : ofName? k.name = some k := by
  cases k <;> decide

end NodeKind

/-- Where a node stands: how far to the right, and how far down. -/
structure Position (α : Type) where
  x : α
  y : α

/-- The place of a node that nobody has placed. -/
def Position.origin {α : Type} [Scalar α] : Position α := ⟨Scalar.ofNat 0, Scalar.ofNat 0⟩

/-- What a node shows besides its label. Each part but the name may be unset; a value that is set
to null is set. -/
structure NodeData where
  name : Text
  value : Option Json := none
  arguments : Option (Record Json) := none
  fieldType : Option Text := none
  isRoot : Option Bool := none
  fields : Option (List Text) := none

namespace NodeData

/-- The node shows a value, which may be null. -/
def hasValue (d : NodeData) : Bool := d.value.isSome

/-- A member for a part that is set. -/
def member {α : Type} (key : Text) (toJson : α → Json) : Option α → List (Text × Json)
  | some a => [(key, toJson a)]
  | none => []

/-- The data as a JSON object with the parts that are set. -/
def toRecord (d : NodeData) : Record Json :=
  member "name" .str (some d.name) ++ member "value" id d.value ++
    member "arguments" .object d.arguments ++ member "fieldType" .str d.fieldType ++
    member "isRoot" .bool d.isRoot ++ member "fields" (fun fs => .list (fs.map .str)) d.fields

end NodeData

/-- A node of a diagram. -/
structure Node (α : Type) where
  id : Text
  kind : NodeKind
  label : Text
  position : Position α
  data : NodeData

/-- An edge from the node `source` to the node `target`. -/
structure Edge where
  id : Text
  source : Text
  target : Text
  kind : Option Text := none
  label : Option Text := none

/-- The edge between two nodes; its identifier is made of theirs. -/
def Edge.connect (source target : Text) (kind : Option Text) : Edge where
  id := source ++ "-" ++ target
  source := source
  target := target
  kind := kind

end QueryDiagram
