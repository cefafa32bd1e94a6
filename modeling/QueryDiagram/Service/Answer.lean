import QueryDiagram.Diagram.Basic
import QueryDiagram.Service.Call

/-!
# Answers of the service

An answer is sent as JSON in UTF-8. One that holds half of a surrogate pair, or a value of a result
that is too deep, cannot be sent, and the service fails instead.
-/

namespace QueryDiagram

/-- What was not found. -/
inductive Missing where
  | result
  | node
  /-- No call has such a path. -/
  | route
  deriving DecidableEq

/-- What the answer says about it. -/
def Missing.message : Missing → Text
  | result => "Result not found"
  | node => "Node not found"
  | route => "Not Found"

/-- What the service answers to a call. -/
inductive Answer (α : Type) where
  | healthy
  | result (serial : Nat) (d : Diagram α)
  | output (t : Text)
  | deleted
  | node (n : Node α)
  | badRequest (detail : Text)
  | notFound (missing : Missing)
  /-- What the path leads to has no such call. -/
  | wrongMethod
  | malformed (faults : List CallFault)
  /-- The service itself failed. -/
  | failed

/-! ## What can be sent -/

/-- The greatest depth of a value that can be sent as part of a result. -/
def maxDepth : Nat := 255

/-- Members that can be sent as part of a result. -/
def Record.isSendable (r : Record Json) : Bool :=
  (Json.object r).isWellFormed && r.all fun m => m.2.depth ≤ maxDepth

/-- A node that can be sent. -/
def Node.isSendable {α : Type} (n : Node α) : Bool :=
  n.id.isWellFormed && n.label.isWellFormed && Record.isSendable n.data.toRecord

/-- An edge that can be sent. -/
def Edge.isSendable (e : Edge) : Bool :=
  e.id.isWellFormed && e.source.isWellFormed && e.target.isWellFormed &&
    e.kind.all Text.isWellFormed && e.label.all Text.isWellFormed

/-- A diagram that can be sent. -/
def Diagram.isSendable {α : Type} (d : Diagram α) : Bool :=
  d.operationName.all Text.isWellFormed && Record.isSendable d.variableValues &&
    d.query.isWellFormed && d.nodes.all Node.isSendable && d.edges.all Edge.isSendable &&
    d.output.isWellFormed

/-- The report of a fault repeats what is at fault, and cannot hold a double that is not finite. -/
def CallFault.isSendable (f : CallFault) : Bool :=
  f.found?.all fun v => v.isWellFormed && v.isFinite

namespace Answer

variable {α : Type}

/-- The number that tells the kind of an answer. -/
def status : Answer α → Nat
  | healthy | result _ _ | output _ | deleted | node _ => 200
  | badRequest _ => 400
  | notFound _ => 404
  | wrongMethod => 405
  | malformed _ => 422
  | failed => 500

/-- An answer that can be sent. -/
def isSendable : Answer α → Bool
  | result _ d => d.isSendable
  | output t => t.isWellFormed
  | node n => n.isSendable
  | badRequest detail => detail.isWellFormed
  | malformed faults => faults.all CallFault.isSendable
  | _ => true

/-- The answer that the caller gets. -/
def sent (a : Answer α) : Answer α := if a.isSendable then a else failed

theorem sent_of_isSendable {a : Answer α} (h : a.isSendable) : a.sent = a := if_pos h

theorem isSendable_sent (a : Answer α) : a.sent.isSendable := by
  unfold sent
  split
  · assumption
  · rfl

end Answer

end QueryDiagram
