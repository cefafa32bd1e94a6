import QueryDiagram.Diagram.Basic
import QueryDiagram.Text.Quoted

/-!
# Editing nodes

A patch replaces the label, the name or the value of one node and leaves everything else as it is.
Its own faults come before the question whether the node exists: first keys that no patch has,
then a label or a name that is null.
-/

namespace QueryDiagram

/-- What a patch says about a text that a node must have. -/
inductive Edit where
  | keep
  | clear
  | set (t : Text)
  deriving DecidableEq

namespace Edit

/-- The text after the edit; a text that was to be cleared stays. -/
def apply (e : Edit) (t : Text) : Text :=
  match e with
  | set t' => t'
  | _ => t

/-- The second edit where it says anything, else the first. -/
def override : Edit → Edit → Edit
  | e, keep => e
  | _, e => e

/-- What stands under a key. A value that is neither a text nor null is no edit. -/
def ofEntry? : Option Json → Option Edit
  | none => some keep
  | some .null => some clear
  | some (.str t) => some (set t)
  | some _ => none

end Edit

/-- What is asked to change on a node. -/
structure Patch where
  label : Edit := .keep
  name : Edit := .keep
  value : Option Json := none
  /-- Further keys, which no node has. -/
  others : List Text := []

/-- Why a patch is refused. -/
inductive PatchError where
  | unknownKeys (keys : List Text)
  | nullKeys (keys : List Text)
  | unknownNode (id : Text)
  deriving DecidableEq

/-- The text of the error. -/
def PatchError.message : PatchError → Text
  | unknownKeys keys => "Cannot patch node fields: " ++ Text.quotedList keys
  | nullKeys keys => "Node fields cannot be null: " ++ Text.quotedList keys
  | unknownNode id => "Unknown node: " ++ id

namespace Patch

/-- The keys that a patch has. -/
def keys : List Text := ["label", "name", "value"]

/-- The patch that a mapping writes, if it has texts or null for the label and the name. -/
def ofRecord? (r : Record Json) : Option Patch := do
  let label ← Edit.ofEntry? (r.get? "label")
  let name ← Edit.ofEntry? (r.get? "name")
  return { label, name, value := r.get? "value", others := r.keys.filter fun k => !keys.contains k }

/-- The two patches as one: the second wins key by key. -/
def override (p q : Patch) : Patch where
  label := p.label.override q.label
  name := p.name.override q.name
  value := q.value.or p.value
  others := p.others ++ q.others.filter fun k => !p.others.contains k

/-- The keys whose texts the patch would clear. -/
def cleared (p : Patch) : List Text :=
  [(p.label, ("label" : Text)), (p.name, "name")].filterMap fun e =>
    if e.1 = .clear then some e.2 else none

/-- The patch itself if it has no fault of its own. -/
def check (p : Patch) : Except PatchError Patch :=
  if p.others ≠ [] then .error (.unknownKeys (Text.sort p.others))
  else if p.cleared ≠ [] then .error (.nullKeys p.cleared)
  else .ok p

/-- The node after the patch. -/
def apply {α : Type} (p : Patch) (n : Node α) : Node α :=
  { n with
    label := p.label.apply n.label
    data := { n.data with name := p.name.apply n.data.name, value := p.value.or n.data.value } }

end Patch

namespace Diagram

variable {α : Type}

/-- The diagram with another node in place of the one with its identifier. -/
def replace (d : Diagram α) (id : Text) (n : Node α) : Diagram α :=
  { d with nodes := d.nodes.map fun m => if m.id = id then n else m }

/-- Edits the node with an identifier. The patch is checked before the node is looked for. -/
def patch (d : Diagram α) (id : Text) (p : Patch) : Except PatchError (Diagram α) := do
  let p ← p.check
  match d.node? id with
  | none => .error (.unknownNode id)
  | some n => .ok (d.replace id (p.apply n))

end Diagram

end QueryDiagram
