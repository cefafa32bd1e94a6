import QueryDiagram.Diagram.Node
import QueryDiagram.Layout.Config

/-!
# Selection trees

What a diagram shows under one operation, before any node has a place.
-/

namespace QueryDiagram

/-- What a node will show, and the width that it and everything below it needs. -/
structure Card (α : Type) where
  kind : NodeKind
  data : NodeData
  width : α
  /-- Replaces the label that follows from kind and data. -/
  label : Option Text := none

/-- The label: its own, or for a group of fields their names, or the name. -/
def Card.displayLabel {α : Type} (c : Card α) : Text :=
  match c.label with
  | some l => l
  | none => if c.kind = .fieldGroup then Text.join ", " (c.data.fields.getD []) else c.data.name

/-- A card with trees below it. -/
inductive Tree (α : Type) where
  | node (card : Card α) (children : List (Tree α))

namespace Tree

variable {α : Type}

/-- The card at the root. -/
def card : Tree α → Card α
  | node c _ => c

/-- The trees below the root. -/
def children : Tree α → List (Tree α)
  | node _ ts => ts

/-- The width of the whole tree. -/
def width (t : Tree α) : α := t.card.width

end Tree

/-- The widths of a row with the gap after each. -/
def slotWidths {α : Type} [Scalar α] (gap : α) (row : List (Tree α)) : List α :=
  row.map fun t => t.width + gap

/-- The width of a row of siblings: gaps stand between them and not after the last. -/
def rowWidth {α : Type} [Scalar α] (gap : α) : List (Tree α) → α
  | [] => Scalar.ofNat 0
  | row => Scalar.sum (slotWidths gap row) - gap

/-- The width that a row asks of the node above it. -/
def totalWidth {α : Type} [Scalar α] (config : LayoutConfig α) (row : List (Tree α)) : α :=
  Scalar.larger (Scalar.sum (slotWidths config.siblingGap row)) config.minNodeWidth

end QueryDiagram
