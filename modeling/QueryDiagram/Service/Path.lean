import QueryDiagram.Text.Percent

/-!
# Paths

A call names a result, and often a node, by segments of its path. A path is percent-encoded once but
decoded twice, where it is sent and where it arrives, so that an escape in a segment is decoded as
well and may bring in slashes. The main statements say that nothing of this touches a segment
without percent signs and slashes, other than one or two dots.
-/

namespace QueryDiagram

/-- A segment of a path: the identifier that was given to a result, or any other text. -/
inductive Segment where
  | issued (serial : Nat)
  | text (t : Text)
  deriving DecidableEq

/-- The segments of a path, with a slash before each. -/
abbrev Path := List Segment

/-- What the service has under its paths. -/
inductive Endpoint where
  | result (id : Segment)
  | output (id : Segment)
  | node (id : Segment) (node : Text)
  deriving DecidableEq

namespace Path

/-- The path under which the service keeps its results. -/
def results : Path := [.text "api", .text "results"]

/-- The path to a result. -/
def toResult (id : Segment) : Path := results ++ [id]

/-- The path to the output of a result. -/
def toOutput (id : Segment) : Path := results ++ [id, .text "output"]

/-- The path under which a result has its nodes. -/
def nodes (id : Segment) : Path := results ++ [id, .text "nodes"]

/-- The path to a node of a result. -/
def toNode (id : Segment) (node : Text) : Path := nodes id ++ [.text node]

/-- The path without dots as segments: one is dropped, and two take the segment before with
them. -/
def removeDots (p : Path) : Path :=
  p.foldl (fun kept s =>
    if s = .text "." then kept else if s = .text ".." then kept.dropLast else kept ++ [s]) []

/-- The path with its escapes decoded once. A slash that was escaped separates segments like any
other. -/
def decode (p : Path) : Path :=
  p.flatMap fun
    | .text t => (t.percentDecode.splitOn (.scalar '/')).map .text
    | s => [s]

/-- The path without the slashes at its end. -/
def dropFinalSlashes (p : Path) : Path := (p.reverse.dropWhile (· = .text [])).reverse

/-- The word that ends the path to an output; a line feed after it is let pass. -/
def isOutputWord (s : Segment) : Bool := s = .text "output" ∨ s = .text "output\n"

/-- What a path leads to as it stands. -/
def endpoint? : Path → Option Endpoint
  | api :: results :: id :: rest =>
    if [api, results] = Path.results ∧ id ≠ .text [] then
      match rest with
      | [] => some (.result id)
      | [last] => if isOutputWord last then some (.output id) else none
      | [middle, .text node] =>
        if middle = .text "nodes" ∧ node ≠ [] then some (.node id node) else none
      | _ => none
    else none
  | _ => none

/-- The number of redirections that a caller follows. -/
def maxRedirections : Nat := 20

/-- What a path that has arrived leads to. Slashes at its end are dropped by a redirection if the
path then leads anywhere. The location to which it redirects leaves escapes as they are, so that
they are decoded twice more. -/
def follow (redirections : Nat) (p : Path) : Option Endpoint :=
  match p.endpoint? with
  | some e => some e
  | none =>
    match redirections, p.dropFinalSlashes.endpoint? with
    | n + 1, some _ => follow n p.dropFinalSlashes.removeDots.decode.decode
    | _, _ => none

/-- What a path leads to for a caller who encodes its segments. -/
def target? (p : Path) : Option Endpoint := follow maxRedirections p.removeDots.decode

end Path

/-- Whether a text can be a segment of a path. -/
def isPathSegment (t : Text) : Bool := !t.isEmpty && !t.contains '/'

namespace Path

theorem removeDots_concat_text {t : Text} (hd : t ≠ ".") (hdd : t ≠ "..") (p : Path) :
    removeDots (p ++ [.text t]) = removeDots p ++ [.text t] := by
  simp [removeDots, hd, hdd]

theorem decode_concat_text {t : Text} (hp : .scalar '%' ∉ t) (hs : .scalar '/' ∉ t) (p : Path) :
    decode (p ++ [.text t]) = decode p ++ [.text t] := by
  have h : t.splitOn (.scalar '/') = [t] :=
    List.splitOnP_eq_singleton fun c hc =>
      beq_eq_false_iff_ne.2 (ne_of_mem_of_not_mem hc hs)
  simp [decode, Text.percentDecode_of_not_mem hp, h]

theorem target?_toResult_issued (serial : Nat) :
    target? (toResult (.issued serial)) = some (.result (.issued serial)) := rfl

theorem target?_toOutput_issued (serial : Nat) :
    target? (toOutput (.issued serial)) = some (.output (.issued serial)) := rfl

theorem target?_toNode_issued (serial : Nat) {node : Text} (hp : .scalar '%' ∉ node)
    (hs : isPathSegment node) (hd : node ≠ ".") (hdd : node ≠ "..") :
    target? (toNode (.issued serial) node) = some (.node (.issued serial) node) := by
  obtain ⟨hne, hslash⟩ : node ≠ [] ∧ .scalar '/' ∉ node := by
    simpa [isPathSegment] using hs
  have hn : decode (removeDots (nodes (.issued serial))) = nodes (.issued serial) := rfl
  rw [target?, toNode, removeDots_concat_text hd hdd, decode_concat_text hp hslash, hn,
    follow.eq_def]
  simp [nodes, results, endpoint?, hne]

end Path

end QueryDiagram
