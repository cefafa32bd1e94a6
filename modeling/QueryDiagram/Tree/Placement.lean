import QueryDiagram.Tree.Basic

/-!
# Placing trees

A row of siblings is centred under the node above it, with the gap between neighbours; each row
sits one node height below the row above. Nodes are numbered in the order in which a reader meets
them: a node, then what is below it, then its next sibling.
-/

namespace QueryDiagram

/-- How a diagram is drawn. -/
structure Plan (α : Type) where
  config : LayoutConfig α
  mode : LayoutMode
  /-- What every identifier begins with. -/
  stem : Text := "node"

namespace Plan

variable {α : Type} [Scalar α]

/-- The identifier of a number. -/
def idOf (p : Plan α) (serial : Nat) : Text := p.stem ++ "-" ++ Text.ofNat serial

/-- A place, or the origin if places are not computed here. -/
def position (p : Plan α) (x y : α) : Position α :=
  match p.mode with
  | .precomputed => ⟨x, y⟩
  | .deferred => .origin

end Plan

/-- What placing some trees adds to a diagram. -/
structure Placed (α : Type) where
  nodes : List (Node α)
  edges : List Edge
  /-- The number of the next node. -/
  next : Nat
  /-- The largest height that was used. -/
  bottom : α

namespace Tree

variable {α : Type} [Scalar α]

/-- The node of a card. -/
def nodeOf (plan : Plan α) (serial : Nat) (x y : α) (card : Card α) : Node α where
  id := plan.idOf serial
  kind := card.kind
  label := card.displayLabel
  position := plan.position x y
  data := card.data

/-- The edge from the node above, if there is one; edges to fragments are marked. -/
def edgeTo (parent : Option Text) (id : Text) (kind : NodeKind) : List Edge :=
  match parent with
  | none => []
  | some p => [Edge.connect p id (if kind = .fragment then some "fragment" else none)]

mutual

/-- Places a tree whose slot begins at `left`, numbering from `serial`. -/
def place (plan : Plan α) (parent : Option Text) (left y : α) (serial : Nat) : Tree α → Placed α
  | node card children =>
    let x := left + Scalar.half card.width
    let placed := placeBelow plan (plan.idOf serial) x y (serial + 1) children
    { placed with
      nodes := nodeOf plan serial x y card :: placed.nodes
      edges := edgeTo parent (plan.idOf serial) card.kind ++ placed.edges }

/-- Places the children of the node `parent` at `(x, y)` as a row under it. -/
def placeBelow (plan : Plan α) (parent : Text) (x y : α) (serial : Nat) :
    List (Tree α) → Placed α
  | [] => ⟨[], [], serial, y⟩
  | t :: ts =>
    let row := y + plan.config.nodeHeight
    let left := x - Scalar.half (rowWidth plan.config.siblingGap (t :: ts))
    placeFrom plan (some parent) row left row serial (t :: ts)

/-- Places siblings side by side from `left` on; `bottom` is the largest height used so far. -/
def placeFrom (plan : Plan α) (parent : Option Text) (y left bottom : α) (serial : Nat) :
    List (Tree α) → Placed α
  | [] => ⟨[], [], serial, bottom⟩
  | t :: ts =>
    let first := place plan parent left y serial t
    let others :=
      placeFrom plan parent y (left + (t.width + plan.config.siblingGap))
        (Scalar.larger bottom first.bottom) first.next ts
    ⟨first.nodes ++ others.nodes, first.edges ++ others.edges, others.next, others.bottom⟩

end

/-- Places a row of trees under `center` at height `y`, with edges from `parent` if it is given. -/
def placeRow (plan : Plan α) (parent : Option Text) (center y : α) (serial : Nat)
    (row : List (Tree α)) : Placed α :=
  placeFrom plan parent y (center - Scalar.half (rowWidth plan.config.siblingGap row)) y serial row

end Tree

end QueryDiagram
