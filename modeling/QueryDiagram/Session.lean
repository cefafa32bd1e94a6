import QueryDiagram.Diagram.Build
import QueryDiagram.Diagram.Patch

/-!
# Editing sessions

The versions of a diagram, from the one that a session began with to the current one. A step that
fails leaves the session as it is.
-/

namespace QueryDiagram

/-- A diagram with its versions. -/
structure Session (α : Type) where
  /-- The versions before the current one, oldest first. -/
  past : List (Diagram α)
  current : Diagram α

namespace Session

variable {α : Type}

/-- A session whose only version is a diagram. -/
def start (d : Diagram α) : Session α := ⟨[], d⟩

/-- The session with one more version, now the current one. -/
def push (s : Session α) (d : Diagram α) : Session α := ⟨s.past ++ [s.current], d⟩

/-- All versions; the first has number zero. -/
def versions (s : Session α) : List (Diagram α) := s.past ++ [s.current]

theorem versions_push (s : Session α) (d : Diagram α) :
    (s.push d).versions = s.versions ++ [d] := rfl

/-- The version with a number, from zero for the oldest. -/
def version? (s : Session α) (n : Nat) : Option (Diagram α) := s.versions[n]?

/-- Edits a node of the current version and shows it. -/
def patch (s : Session α) (id : Text) (p : Patch) :
    Except PatchError (Session α × Option (Node α)) := do
  let d ← s.current.patch id p
  return (s.push d, d.node? id)

/-- Draws another request without any wishes for its layout. -/
def rebuild [Scalar α] (s : Session α) (mode : LayoutMode) (text : Text) :
    Logged BuildError (Session α) := do
  let d ← Diagram.build mode (.standard α) text
  return s.push d

end Session

end QueryDiagram
