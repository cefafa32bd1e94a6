import QueryDiagram.Diagram.Basic
import QueryDiagram.Diagram.Variables
import QueryDiagram.Request
import QueryDiagram.Tree.Placement
import QueryDiagram.Tree.Selection

/-!
# From a request to its diagram

Every operation of the document becomes a root with its tree below it; numbers run on from one
operation to the next. The variables come last.
-/

namespace QueryDiagram

open GraphQL

/-- Why a request has no diagram. -/
inductive BuildError where
  | request (cause : RequestError)
  | conversion (cause : ConversionError)
  deriving DecidableEq

/-- The text of the error. -/
def BuildError.message : BuildError → Text
  | request cause => cause.message
  | conversion cause => cause.message

/-- The nodes and edges drawn so far, and the number of the next node. -/
structure Sheet (α : Type) where
  nodes : List (Node α)
  edges : List Edge
  next : Nat

/-- A sheet with nothing on it. -/
def Sheet.empty {α : Type} : Sheet α := ⟨[], [], 0⟩

namespace Sheet

variable {α : Type} [Scalar α]

/-- What stands for the name of an operation without one. -/
def anonymous : Text := "Anonymous"

/-- The node of an operation, above the trees of its body. -/
def rootOf (plan : Plan α) (serial : Nat) (o : Operation) : Node α :=
  let operationType := Text.ofString o.operationType.keyword
  let name := o.name.getD anonymous
  { id := plan.idOf serial
    kind := .operation
    label := operationType ++ ": " ++ name
    position := plan.position plan.config.rootX plan.config.rootY
    data := { name, isRoot := some true, fieldType := some operationType } }

/-- The sheet with a row of trees placed on it. -/
def place (s : Sheet α) (plan : Plan α) (parent : Option Text) (center y : α)
    (row : List (Tree α)) : Sheet α :=
  let placed := Tree.placeRow plan parent center y s.next row
  ⟨s.nodes ++ placed.nodes, s.edges ++ placed.edges, placed.next⟩

/-- The sheet with a node of its own number. -/
def push (s : Sheet α) (n : Node α) : Sheet α := ⟨s.nodes ++ [n], s.edges, s.next + 1⟩

/-- The sheet with an operation drawn on it. -/
def draw (plan : Plan α) (fragments : Fragments) (s : Sheet α) (o : Operation) :
    Logged ConversionError (Sheet α) := do
  let root := rootOf plan s.next o
  let row ← Tree.ofSelections plan.config fragments [] o.body
  return (s.push root).place plan (some root.id) root.position.x plan.config.treeStartY row

/-- The sheet with the operations drawn on it one after the other. -/
def drawAll (plan : Plan α) (fragments : Fragments) (s : Sheet α) :
    List Operation → Logged ConversionError (Sheet α)
  | [] => return s
  | o :: os => do
    let s ← draw plan fragments s o
    drawAll plan fragments s os

end Sheet

/-- The operations of a document, in order. -/
def GraphQL.operationsOf (d : Document) : List Operation :=
  d.filterMap fun
    | .operation o => some o
    | _ => none

namespace Diagram

variable {α : Type} [Scalar α]

/-- The trees of all operations of a document. -/
def sheet (plan : Plan α) (document : Document) : Logged ConversionError (Sheet α) := do
  let fragments ← Fragments.collect document
  Sheet.drawAll plan fragments .empty (operationsOf document)

/-- The diagram of a request. -/
def ofRequest (mode : LayoutMode) (config : LayoutConfig α) (r : Request) :
    Logged ConversionError (Diagram α) := do
  let plan : Plan α := { config, mode }
  let sheet ← sheet plan r.document
  return {
    operationName := r.operationName
    variableValues := r.variableValues
    query := r.query
    document := r.document
    nodes := sheet.nodes ++ Variables.nodes plan r.variableValues
    edges := sheet.edges
    layoutMode := mode }

/-- The diagram of a submitted text. -/
def build (mode : LayoutMode) (config : LayoutConfig α) (text : Text) :
    Logged BuildError (Diagram α) :=
  match Request.read text with
  | .error e => .ofExcept (.error (.request e))
  | .ok r => (ofRequest mode config r).mapError .conversion

end Diagram

end QueryDiagram
