import QueryDiagram.Json.Basic
import QueryDiagram.Layout.Config
import QueryDiagram.Service.Path

/-!
# Calls of the service
-/

namespace QueryDiagram

/-- A call as the caller makes it. -/
inductive Call where
  | health
  /-- Draws the request in the body; the name of a mode replaces the one of the settings. -/
  | parse (body : ByteArray) (layoutMode : Option Text)
  | get (id : Segment)
  | output (id : Segment)
  | delete (id : Segment)
  /-- Edits a node; the body says how. -/
  | patch (id : Segment) (node : Text) (body : ByteArray)

/-- What a call does with what its path leads to. -/
inductive Method where
  | get
  | delete
  | patch (body : ByteArray)

/-- What the service is set to. -/
structure Settings where
  /-- The number of results that are kept. -/
  maxResults : Nat
  layoutMode : LayoutMode

/-- What is wrong with the form of a call. -/
inductive CallFault where
  | unknownLayoutMode
  | missingBody
  | invalidBody
  | bodyNotObject (body : Json)
  /-- A member of the body that is neither a string nor null. -/
  | notString (key : Text) (found : Json)

namespace CallFault

/-- The name of the fault in the answer. -/
def kind : CallFault → Text
  | unknownLayoutMode => "enum"
  | missingBody => "missing"
  | invalidBody => "json_invalid"
  | bodyNotObject _ => "model_attributes_type"
  | notString _ _ => "string_type"

/-- Where in the call the fault is. -/
def location : CallFault → List Text
  | unknownLayoutMode => ["query", "layout_mode"]
  | missingBody | invalidBody | bodyNotObject _ => ["body"]
  | notString key _ => ["body", key]

/-- The value that is at fault, which the report of the fault repeats. -/
def found? : CallFault → Option Json
  | bodyNotObject v | notString _ v => some v
  | _ => none

end CallFault

end QueryDiagram
