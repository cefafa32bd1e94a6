import QueryDiagram.Layout.Scalar
import QueryDiagram.Text.Basic

/-!
# Settings of a layout
-/

namespace QueryDiagram

/-- Whether positions are computed here, or every node is left at the origin for whoever draws the
diagram to arrange. -/
inductive LayoutMode where
  | precomputed
  | deferred
  deriving DecidableEq

namespace LayoutMode

/-- The name under which a mode is asked for. -/
def name : LayoutMode → Text
  | precomputed => "precomputed"
  | deferred => "deferred"

/-- The mode of a name, which has to be spelled exactly. -/
def ofName? (t : Text) : Option LayoutMode := [precomputed, deferred].find? fun m => t = m.name

theorem ofName?_name (m : LayoutMode) : ofName? m.name = some m := by
  cases m <;> decide

end LayoutMode

/-- Distances and sizes of a layout. -/
structure LayoutConfig (α : Type) where
  /-- From a row of nodes down to the next. -/
  nodeHeight : α
  /-- Between neighbouring subtrees. -/
  siblingGap : α
  /-- The least width of any node. -/
  minNodeWidth : α
  /-- The width of one name in a group of fields. -/
  fieldSlotWidth : α
  rootX : α
  rootY : α
  /-- The height of the first row under a root. -/
  treeStartY : α
  variableX : α
  variableStartY : α
  /-- From a variable down to the next. -/
  variableRowHeight : α

/-- The settings of a diagram drawn without any wishes. -/
def LayoutConfig.standard (α : Type) [Scalar α] : LayoutConfig α where
  nodeHeight := Scalar.ofNat 120
  siblingGap := Scalar.ofNat 50
  minNodeWidth := Scalar.ofNat 200
  fieldSlotWidth := Scalar.ofNat 60
  rootX := Scalar.ofNat 250
  rootY := Scalar.ofNat 50
  treeStartY := Scalar.ofNat 100
  variableX := Scalar.ofNat 50
  variableStartY := Scalar.ofNat 100
  variableRowHeight := Scalar.ofNat 60

end QueryDiagram
