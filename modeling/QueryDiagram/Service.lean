import QueryDiagram.Diagram.Build
import QueryDiagram.Diagram.Patch
import QueryDiagram.Service.Answer
import QueryDiagram.Store
import QueryDiagram.Text.Encoding

/-!
# The service

What the service answers to a call, and how the call changes the store. The change stays even if
the answer cannot be sent.
-/

namespace QueryDiagram

namespace Service

/-- The name under which the service reports to be healthy. -/
def appName : Text := "GraphQL Canvas"

/-! ## Forms of calls -/

/-- The mode that a call asks for, or that of the settings. -/
def modeOf (settings : Settings) : Option Text → Except CallFault LayoutMode
  | none => .ok settings.layoutMode
  | some name =>
    match LayoutMode.ofName? name with
    | some m => .ok m
    | none => .error .unknownLayoutMode

/-- What a patch says about a text under a key. -/
def editOf (key : Text) : Option Json → Except CallFault Edit
  | none => .ok .keep
  | some .null => .ok .clear
  | some (.str t) => .ok (.set t)
  | some v => .error (.notString key v)

/-- The patch in an object; keys that a patch does not have are left aside. -/
def patchOfMembers (members : Record Json) : Except (List CallFault) Patch :=
  match editOf "label" (members.get? "label"), editOf "name" (members.get? "name") with
  | .ok label, .ok name => .ok { label, name, value := members.get? "value" }
  | .error e, .ok _ => .error [e]
  | .ok _, .error e => .error [e]
  | .error e, .error e' => .error [e, e']

/-- The detail of the answer to a body that cannot be taken in. -/
def unreadableBody : Text := "There was an error parsing the body"

/-- The patch in a body, or the answer that refuses the body. Only a body without any octets is
missing; one that writes null is refused like any other value that is no object. -/
def patchOf {α : Type} (body : ByteArray) : Except (Answer α) Patch :=
  if body.isEmpty then .error (.malformed [.missingBody])
  else
    match Text.ofJsonBytes? body with
    | none => .error (.badRequest unreadableBody)
    | some text =>
      match Json.read .lenient text with
      | .error .malformed => .error (.malformed [.invalidBody])
      | .error .integerTooLong => .error (.badRequest unreadableBody)
      | .ok (.object members) => (patchOfMembers members).mapError .malformed
      | .ok v => .error (.malformed [.bodyNotObject v])

/-! ## Answers -/

variable {α : Type} [Scalar α]

/-- The answer to a finished build, and the store after it. A store without any room loses all it
holds and cannot take the result. -/
def keep (settings : Settings) (store : Store α) :
    Except BuildError (Diagram α) → Store α × Answer α
  | .error (.request cause) => (store, .badRequest cause.message)
  | .error (.conversion _) => (store, .failed)
  | .ok d =>
    match store.add settings.maxResults d with
    | some store' => (store', .result store.issued d)
    | none => ({ store with entries := [] }, .failed)

/-- Draws the request in a body and stores the diagram. -/
def parse (settings : Settings) (store : Store α) (body : ByteArray) (layoutMode : Option Text) :
    List Warning × Store α × Answer α :=
  match modeOf settings layoutMode with
  | .error fault => ([], store, .malformed [fault])
  | .ok mode =>
    match Text.ofUtf8? body with
    | none => ([], store, .badRequest RequestError.invalidFormat.message)
    | some text =>
      let built := Diagram.build mode (.standard α) text
      (built.warnings, keep settings store built.outcome)

omit [Scalar α] in
/-- The result of an identifier, if it is live. -/
def find? (store : Store α) : Segment → Option (Nat × Diagram α)
  | .issued serial => (store.get? serial).map fun d => (serial, d)
  | .text _ => none

/-- Answers from a live result. -/
def withResult (store : Store α) (id : Segment)
    (answer : Nat → Diagram α → Store α × Answer α) : Store α × Answer α :=
  match find? store id with
  | some (serial, d) => answer serial d
  | none => (store, .notFound .result)

/-- Edits a node of a live result. -/
def patchResult (store : Store α) (node : Text) (p : Patch) (serial : Nat) (d : Diagram α) :
    Store α × Answer α :=
  match d.patch node p with
  | .error (.unknownNode _) => (store, .notFound .node)
  | .error e => (store, .badRequest e.message)
  | .ok d' =>
    match d'.node? node with
    | some n => (store.update serial d', .node n)
    | none => (store, .notFound .node)

/-- Edits a node as a body says. The body is read before the result is looked for. -/
def patch (store : Store α) (id : Segment) (node : Text) (body : ByteArray) :
    Store α × Answer α :=
  match patchOf body with
  | .error refusal => (store, refusal)
  | .ok p => withResult store id (patchResult store node p)

/-- Answers from what a path leads to. -/
def answerAt (store : Store α) : Endpoint → Method → Store α × Answer α
  | .result id, .get => withResult store id fun serial d => (store, .result serial d)
  | .result id, .delete => withResult store id fun serial _ => (store.erase serial, .deleted)
  | .output id, .get => withResult store id fun _ d => (store, .output d.output)
  | .node id node, .patch body => patch store id node body
  | _, _ => (store, .wrongMethod)

/-- Answers from a path, if it leads anywhere. -/
def request (store : Store α) (path : Path) (method : Method) : Store α × Answer α :=
  match path.target? with
  | some endpoint => answerAt store endpoint method
  | none => (store, .notFound .route)

/-- The warnings of a call, the store after it, and the answer to be sent. -/
def perform (settings : Settings) (store : Store α) : Call → List Warning × Store α × Answer α
  | .health => ([], store, .healthy)
  | .parse body layoutMode => parse settings store body layoutMode
  | .get id => ([], request store (.toResult id) .get)
  | .output id => ([], request store (.toOutput id) .get)
  | .delete id => ([], request store (.toResult id) .delete)
  | .patch id node body => ([], request store (.toNode id node) (.patch body))

/-- The warnings of a call, the store after it, and the answer that the caller gets. -/
def handle (settings : Settings) (store : Store α) (call : Call) :
    List Warning × Store α × Answer α :=
  let (warnings, store, answer) := perform settings store call
  (warnings, store, answer.sent)

end Service

end QueryDiagram
