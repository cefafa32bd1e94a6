import Mathlib.Tactic.SplitIfs
import QueryDiagram.Service.Path

/-!
# Identifiers that a path leads to

Dots, escapes and redirections may lead to another node or to another kind of call, but never to a
result that the path does not name (`issued_mem_of_target?`). No path leads to a node with a slash
in its identifier (`slash_not_mem_of_target?`), as the slash separates segments where the path
arrives (`endpoint?_arriving_toNode`). Every other identifier of a node is within reach of a
caller who escapes it (`target?_toNode_escaped`).
-/

namespace QueryDiagram

/-- The identifier of the result that an endpoint belongs to. -/
def Endpoint.id : Endpoint → Segment
  | result id | output id | node id _ => id

/-- A path can name a result by the segment. -/
def Segment.IsIdentifier : Segment → Prop
  | .issued _ => True
  | .text t => isPathSegment t

namespace Path

variable {p : Path} {e : Endpoint} {s : Segment} {serial : Nat}

theorem mem_of_mem_removeDots (h : s ∈ p.removeDots) : s ∈ p := by
  suffices ∀ kept : Path, s ∈ p.foldl (fun kept s =>
      if s = .text "." then kept else if s = .text ".." then kept.dropLast else kept ++ [s]) kept →
      s ∈ kept ∨ s ∈ p by
    simpa using this [] h
  clear h
  induction p with
  | nil => exact fun _ h => .inl h
  | cons t p ih =>
    intro kept h
    rw [List.foldl_cons] at h
    rcases ih _ h with h | h
    · split_ifs at h
      · exact .inl h
      · exact .inl (List.dropLast_subset _ h)
      · rw [List.mem_append, List.mem_singleton] at h
        rcases h with h | rfl
        · exact .inl h
        · exact .inr List.mem_cons_self
    · exact .inr (List.mem_cons_of_mem _ h)

/-- Escapes stand in texts only. -/
theorem issued_mem_of_mem_decode (h : .issued serial ∈ p.decode) : .issued serial ∈ p := by
  obtain ⟨t, ht, h⟩ := List.mem_flatMap.1 h
  cases t with
  | issued other => rwa [List.mem_singleton.1 h]
  | text t => simp at h

theorem mem_of_mem_dropFinalSlashes (h : s ∈ p.dropFinalSlashes) : s ∈ p :=
  List.mem_reverse.1 ((List.dropWhile_sublist _).subset (List.mem_reverse.1 h))

theorem id_mem_of_endpoint? (h : p.endpoint? = some e) : e.id ∈ p := by
  unfold endpoint? at h
  split at h <;> grind [Endpoint.id]

/-- A path leads to what it is, or is redirected. -/
theorem follow_eq_some {redirections : Nat} (h : follow redirections p = some e) :
    p.endpoint? = some e ∨ ∃ n, redirections = n + 1 ∧
      follow n p.dropFinalSlashes.removeDots.decode.decode = some e := by
  unfold follow at h
  split at h
  · exact .inl (by rwa [← h])
  · split at h
    · exact .inr ⟨_, rfl, h⟩
    · cases h

theorem issued_mem_of_follow {redirections : Nat} (h : follow redirections p = some e)
    (he : e.id = .issued serial) : .issued serial ∈ p := by
  induction redirections generalizing p with
  | zero =>
    rcases follow_eq_some h with h | ⟨_, hn, -⟩
    · exact he ▸ id_mem_of_endpoint? h
    · cases hn
  | succ n ih =>
    rcases follow_eq_some h with h | ⟨_, hn, h⟩
    · exact he ▸ id_mem_of_endpoint? h
    · obtain rfl := Nat.succ.inj hn
      have hmem := issued_mem_of_mem_decode (issued_mem_of_mem_decode (ih h))
      exact mem_of_mem_dropFinalSlashes (mem_of_mem_removeDots hmem)

theorem issued_mem_of_target? (h : p.target? = some e) (he : e.id = .issued serial) :
    .issued serial ∈ p :=
  mem_of_mem_removeDots (issued_mem_of_mem_decode (issued_mem_of_follow h he))

/-! ## Slashes -/

/-- No segment has a slash. -/
def Slashless (p : Path) : Prop := ∀ t, .text t ∈ p → .scalar '/' ∉ t

theorem not_mem_of_mem_splitOn {β : Type} [DecidableEq β] {a : β} {xs piece : List β}
    (h : piece ∈ xs.splitOn a) : a ∉ piece := by
  induction xs generalizing piece with
  | nil =>
    obtain rfl : piece = [] := by simpa using h
    exact List.not_mem_nil
  | cons x xs ih =>
    rw [List.splitOn_cons_eq_if_modifyHead] at h
    split_ifs at h with hx
    · rcases List.mem_cons.1 h with rfl | h
      · exact List.not_mem_nil
      · exact ih h
    · -- the first piece is the one that grows
      cases hs : xs.splitOn a with
      | nil => exact absurd hs (List.splitOn_ne_nil _ _)
      | cons first others =>
        rw [hs] at h ih
        rcases List.mem_cons.1 h with rfl | h
        · have hfirst : a ∉ first := ih List.mem_cons_self
          have hne : a ≠ x := fun e => hx (by simp [e])
          simp [hne, hfirst]
        · exact ih (List.mem_cons_of_mem _ h)

theorem slashless_decode (p : Path) : p.decode.Slashless := by
  intro t ht
  obtain ⟨s, -, ht⟩ := List.mem_flatMap.1 ht
  cases s with
  | issued serial => simp at ht
  | text t' =>
    obtain ⟨piece, hpiece, he⟩ := List.mem_map.1 ht
    obtain rfl := Segment.text.inj he
    exact not_mem_of_mem_splitOn hpiece

theorem node_mem_of_endpoint? {id : Segment} {node : Text}
    (h : p.endpoint? = some (.node id node)) : .text node ∈ p := by
  unfold endpoint? at h
  split at h <;> grind

theorem slash_not_mem_of_follow {redirections : Nat} {id : Segment} {node : Text}
    (hp : p.Slashless) (h : follow redirections p = some (.node id node)) :
    .scalar '/' ∉ node := by
  induction redirections generalizing p with
  | zero =>
    rcases follow_eq_some h with h | ⟨_, hn, -⟩
    · exact hp node (node_mem_of_endpoint? h)
    · cases hn
  | succ n ih =>
    rcases follow_eq_some h with h | ⟨_, hn, h⟩
    · exact hp node (node_mem_of_endpoint? h)
    · obtain rfl := Nat.succ.inj hn
      exact ih (slashless_decode _) h

theorem slash_not_mem_of_target? {id : Segment} {node : Text}
    (h : p.target? = some (.node id node)) : .scalar '/' ∉ node :=
  slash_not_mem_of_follow (slashless_decode _) h

/-- The path that arrives if every segment is encoded once and the whole is decoded once. A slash
that was encoded separates segments like any other. -/
def arriving (p : Path) : Path :=
  p.flatMap fun
    | .text t => (t.splitOn (.scalar '/')).map .text
    | s => [s]

theorem arriving_nodes {id : Segment} (h : id.IsIdentifier) : (nodes id).arriving = nodes id := by
  cases id with
  | issued serial => rfl
  | text t =>
    obtain ⟨-, hslash⟩ : t ≠ [] ∧ .scalar '/' ∉ t := by
      simpa [Segment.IsIdentifier, isPathSegment] using h
    have hsplit : t.splitOn (.scalar '/') = [t] := List.splitOn_eq_singleton hslash
    simp only [nodes, arriving, List.flatMap_append, List.flatMap_cons, hsplit]
    rfl

/-- The path to a node of an identifier leads there unless the identifier of the node is empty or
has a slash; then it leads nowhere. -/
theorem endpoint?_arriving_of_isIdentifier {id : Segment} (hid : id.IsIdentifier) (node : Text) :
    (toNode id node).arriving.endpoint? =
      if isPathSegment node then some (.node id node) else none := by
  have hne : id ≠ .text [] := by
    rintro rfl
    cases hid
  have harrive : (toNode id node).arriving =
      nodes id ++ (node.splitOn (.scalar '/')).map .text := by
    rw [← arriving_nodes hid, toNode, arriving, List.flatMap_append, List.flatMap_singleton]
    rfl
  rw [harrive]
  by_cases hslash : .scalar '/' ∈ node
  · -- there are more segments than the path to a node has
    obtain ⟨before, after, rfl⟩ := List.append_of_mem hslash
    obtain ⟨first, others, hfirst⟩ :=
      List.exists_cons_of_ne_nil (List.splitOn_ne_nil (.scalar '/') before)
    obtain ⟨last, others', hlast⟩ :=
      List.exists_cons_of_ne_nil (List.splitOn_ne_nil (.scalar '/') after)
    rw [List.splitOn_append_cons_self, hfirst, hlast]
    cases others with
    | nil => simp [nodes, results, endpoint?, isPathSegment]
    | cons second others => simp [nodes, results, endpoint?, isPathSegment]
  · have hsplit : node.splitOn (.scalar '/') = [node] := by
      rw [List.splitOn_eq_singleton]
      exact hslash
    rw [hsplit]
    cases node with
    | nil => simp [nodes, results, endpoint?, isPathSegment]
    | cons c t => simp [nodes, results, endpoint?, isPathSegment, hslash, hne]

theorem endpoint?_arriving_toNode (serial : Nat) (node : Text) :
    (toNode (.issued serial) node).arriving.endpoint? =
      if isPathSegment node then some (.node (.issued serial) node) else none := by
  have hid : (Segment.issued serial).IsIdentifier := trivial
  exact endpoint?_arriving_of_isIdentifier hid node

end Path

/-! ## Escapes for a segment -/

namespace Text

/-- The text with escapes for its percent signs and full stops. -/
def escaped (t : Text) : Text :=
  t.flatMap fun c => if c = .scalar '%' then "%25" else if c = .scalar '.' then "%2E" else [c]

theorem percentDecodeAfter_cons_of_ne {c : CodePoint} (hc : c ≠ .scalar '%') (run : List UInt8)
    (t : Text) :
    percentDecodeAfter run (c :: t) = ofUtf8Lossy none run.reverse ++ c :: percentDecode t := by
  match t with
  | [] => rfl
  | [_] => rfl
  | a :: b :: rest => simp only [percentDecodeAfter, if_neg hc, percentDecode]

/-- The octets of ASCII characters stand for these. -/
theorem ofUtf8Lossy_concat {os : List UInt8} (hos : ∀ o ∈ os, o.toNat < 0x80) (o : UInt8) :
    ofUtf8Lossy none (os ++ [o]) = ofUtf8Lossy none os ++ ofUtf8Lossy none [o] := by
  induction os with
  | nil => rfl
  | cons o' os ih =>
    obtain ⟨ho', hos⟩ := List.forall_mem_cons.1 hos
    simp only [List.cons_append, ofUtf8Lossy, nextOctet, firstOctet, if_pos ho', ih hos,
      List.append_assoc]

/-- Escapes are decoded to what they stand for, and what has none stays. -/
theorem percentDecodeAfter_escaped {run : List UInt8} (hrun : ∀ o ∈ run, o.toNat < 0x80)
    (t : Text) : percentDecodeAfter run t.escaped = ofUtf8Lossy none run.reverse ++ t := by
  induction t generalizing run with
  | nil => simp [escaped, percentDecodeAfter]
  | cons c t ih =>
    have hescape : ∀ (o : UInt8) (a b : CodePoint), octet? a b = some o → o.toNat < 0x80 →
        percentDecodeAfter run (.scalar '%' :: a :: b :: escaped t) =
          ofUtf8Lossy none run.reverse ++ (ofUtf8Lossy none [o] ++ t) := by
      intro o a b ho hlt
      have hruns : ∀ o' ∈ o :: run, o'.toNat < 0x80 := List.forall_mem_cons.2 ⟨hlt, hrun⟩
      have hrev : ∀ o' ∈ run.reverse, o'.toNat < 0x80 := fun o' h => hrun o' (List.mem_reverse.1 h)
      simp only [percentDecodeAfter, if_true, ho, ih hruns, List.reverse_cons,
        ofUtf8Lossy_concat hrev, List.append_assoc]
    by_cases hp : c = .scalar '%'
    · subst hp
      exact hescape 0x25 '2' '5' rfl (by decide)
    · by_cases hd : c = .scalar '.'
      · subst hd
        exact hescape 0x2E '2' 'E' rfl (by decide)
      · have hcons : escaped (c :: t) = c :: escaped t := by
          simp [escaped, hp, hd]
        rw [hcons, percentDecodeAfter_cons_of_ne hp, percentDecode, ih (by simp)]
        rfl

theorem percentDecode_escaped (t : Text) : t.escaped.percentDecode = t :=
  percentDecodeAfter_escaped (by simp) t

theorem dot_not_mem_escaped (t : Text) : .scalar '.' ∉ t.escaped := by
  intro h
  obtain ⟨c, -, h⟩ := List.mem_flatMap.1 h
  split_ifs at h with hp hd
  · revert h
    decide
  · revert h
    decide
  · exact hd (List.mem_singleton.1 h).symm

end Text

/-- A caller who escapes the percent signs and full stops of a segment gets to every node that a
path may name. -/
theorem Path.target?_toNode_escaped (serial : Nat) {node : Text} (h : isPathSegment node) :
    (toNode (.issued serial) node.escaped).target? = some (.node (.issued serial) node) := by
  obtain ⟨hne, hslash⟩ : node ≠ [] ∧ .scalar '/' ∉ node := by
    simpa [isPathSegment] using h
  have hdot : ∀ t : Text, .scalar '.' ∈ t → node.escaped ≠ t := by
    rintro t ht rfl
    exact node.dot_not_mem_escaped ht
  have hdecode : decode (nodes (.issued serial) ++ [.text node.escaped]) =
      nodes (.issued serial) ++ [.text node] := by
    have hsplit : node.splitOn (.scalar '/') = [node] := List.splitOn_eq_singleton hslash
    rw [decode, List.flatMap_append, List.flatMap_singleton]
    simp only [Text.percentDecode_escaped, hsplit]
    rfl
  have hn : removeDots (nodes (.issued serial)) = nodes (.issued serial) := rfl
  rw [target?, toNode, removeDots_concat_text (hdot _ (by decide)) (hdot _ (by decide)), hn,
    hdecode, follow.eq_def]
  simp [nodes, results, endpoint?, hne]

end QueryDiagram
