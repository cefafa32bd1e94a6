import QueryDiagram.Proofs.Identifiers
import QueryDiagram.Proofs.Tree.Preorder
import QueryDiagram.Tree.Placement

/-!
# Numbers and edges of placed trees

Placing a row adds one node for each of its trees and subtrees, in the order of a reader, with
consecutive numbers from the first on (`ids_placeFrom`), and the node shows what its card says
(`contents_placeFrom`). Every node has an edge from the node above it (`edges_placeFrom`), whose
number is smaller and which has children (`aboveFrom_cases`). No two edges lead to one node
(`sublist_targets_placeFrom`) or have one identifier (`nodup_edgeIds_placeFrom`).
-/

namespace QueryDiagram

/-- What a node shows: everything but its identifier and its place. -/
def Node.content {α : Type} (n : Node α) : NodeKind × Text × NodeData :=
  (n.kind, n.label, n.data)

/-- What the node of a card shows. -/
def Card.content {α : Type} (c : Card α) : NodeKind × Text × NodeData :=
  (c.kind, c.displayLabel, c.data)

theorem Plan.position_of_deferred {α : Type} [Scalar α] {plan : Plan α}
    (h : plan.mode = .deferred) (x y : α) : plan.position x y = .origin := by
  rw [position, h]

namespace Tree

variable {α : Type} [Scalar α]

/-! ## Rows below a node -/

section Below

variable (plan : Plan α) (parent : Text) (x y : α) (serial : Nat) (children : List (Tree α))

theorem nodes_placeBelow :
    (placeBelow plan parent x y serial children).nodes =
      (placeRow plan (some parent) x (y + plan.config.nodeHeight) serial children).nodes := by
  cases children <;> simp [placeBelow, placeRow, placeFrom]

theorem edges_placeBelow :
    (placeBelow plan parent x y serial children).edges =
      (placeRow plan (some parent) x (y + plan.config.nodeHeight) serial children).edges := by
  cases children <;> simp [placeBelow, placeRow, placeFrom]

theorem next_placeBelow :
    (placeBelow plan parent x y serial children).next =
      (placeRow plan (some parent) x (y + plan.config.nodeHeight) serial children).next := by
  cases children <;> simp [placeBelow, placeRow, placeFrom]

end Below

/-! ## Rows -/

variable (plan : Plan α) (parent : Option Text) (y left bottom : α) (serial : Nat)

@[simp]
theorem placeFrom_nil : placeFrom plan parent y left bottom serial [] =
    ⟨[], [], serial, bottom⟩ := by
  rw [placeFrom]

/-- A row that begins with a tree: its root, what is below it, then the rest of the row. -/
theorem placeFrom_cons (card : Card α) (children rest : List (Tree α)) :
    placeFrom plan parent y left bottom serial (.node card children :: rest) =
      let x := left + Scalar.half card.width
      let below := placeBelow plan (plan.idOf serial) x y (serial + 1) children
      let others := placeFrom plan parent y (left + (card.width + plan.config.siblingGap))
        (Scalar.larger bottom below.bottom) below.next rest
      ⟨nodeOf plan serial x y card :: (below.nodes ++ others.nodes),
        edgeTo parent (plan.idOf serial) card.kind ++ (below.edges ++ others.edges),
        others.next, others.bottom⟩ := by
  rw [placeFrom, place]
  simp only [List.cons_append, List.append_assoc]
  rfl

/-- The number of the next node goes up by one for every node. -/
theorem next_placeFrom (row : List (Tree α)) :
    (placeFrom plan parent y left bottom serial row).next =
      serial + (subtreesOf row).length := by
  induction row using row_induction generalizing parent y left bottom serial with
  | nil => simp
  | cons card children rest ihc ihr =>
    simp only [placeFrom_cons, next_placeBelow, placeRow, ihc, ihr, subtreesOf_cons,
      List.length_cons, List.length_append]
    omega

theorem ids_placeFrom (row : List (Tree α)) :
    (placeFrom plan parent y left bottom serial row).nodes.map Node.id =
      (List.range' serial (subtreesOf row).length).map plan.idOf := by
  induction row using row_induction generalizing parent y left bottom serial with
  | nil => simp
  | cons card children rest ihc ihr =>
    simp only [placeFrom_cons, nodes_placeBelow, next_placeBelow, placeRow, next_placeFrom,
      List.map_cons, List.map_append, ihc, ihr, subtreesOf_cons, List.length_cons,
      List.length_append, List.range'_succ, ← List.range'_append_1]
    rfl

theorem length_nodes_placeFrom (row : List (Tree α)) :
    (placeFrom plan parent y left bottom serial row).nodes.length =
      (subtreesOf row).length := by
  simpa using congrArg List.length (ids_placeFrom plan parent y left bottom serial row)

theorem contents_placeFrom (row : List (Tree α)) :
    (placeFrom plan parent y left bottom serial row).nodes.map Node.content =
      (subtreesOf row).map fun t => t.card.content := by
  induction row using row_induction generalizing parent y left bottom serial with
  | nil => simp
  | cons card children rest ihc ihr =>
    simp only [placeFrom_cons, nodes_placeBelow, placeRow, List.map_cons, List.map_append, ihc,
      ihr, subtreesOf_cons]
    rfl

/-- Every node shows the card of a tree of the row. -/
theorem exists_content_of_mem_placeFrom {row : List (Tree α)} {n : Node α}
    (hn : n ∈ (placeFrom plan parent y left bottom serial row).nodes) :
    ∃ t ∈ subtreesOf row, t.card.content = n.content := by
  have hc := List.mem_map_of_mem (f := Node.content) hn
  rw [contents_placeFrom] at hc
  exact List.mem_map.1 hc

/-- Where the places are deferred, all nodes are left at the origin. -/
theorem position_of_mem_placeFrom {plan : Plan α} (h : plan.mode = .deferred)
    {parent : Option Text} {y left bottom : α} {serial : Nat} {row : List (Tree α)} {n : Node α}
    (hn : n ∈ (placeFrom plan parent y left bottom serial row).nodes) : n.position = .origin := by
  induction row using row_induction generalizing parent y left bottom serial with
  | nil => simp at hn
  | cons card children rest ihc ihr =>
    simp only [placeFrom_cons, nodes_placeBelow, placeRow, List.mem_cons, List.mem_append] at hn
    rcases hn with rfl | hn | hn
    · exact plan.position_of_deferred h _ _
    · exact ihc hn
    · exact ihr hn

/-- The node of a tree of the row. -/
theorem exists_getElem?_nodes_placeFrom {row : List (Tree α)} {k : Nat} {t : Tree α}
    (h : (subtreesOf row)[k]? = some t) :
    ∃ n, (placeFrom plan parent y left bottom serial row).nodes[k]? = some n ∧
      n.id = plan.idOf (serial + k) ∧ n.content = t.card.content := by
  have hk := (List.getElem?_eq_some_iff.1 h).1
  have hid := congrArg (fun ids => ids[k]?) (ids_placeFrom plan parent y left bottom serial row)
  have hc := congrArg (fun cs => cs[k]?)
    (contents_placeFrom plan parent y left bottom serial row)
  have hn := hk
  rw [← length_nodes_placeFrom plan parent y left bottom serial row] at hn
  refine ⟨_, List.getElem?_eq_getElem hn, ?_, ?_⟩
  · simpa [hn, hk] using hid
  · simpa [hn, hk, h, (List.getElem?_eq_some_iff.1 h).2] using hc

/-! ## Edges -/

omit [Scalar α] in
/-- The numbers of the nodes above the nodes of a row, in the order of the nodes; `above` stands
for what the row itself is under. -/
def aboveFrom (above : Option Nat) (serial : Nat) : List (Tree α) → List (Option Nat)
  | [] => []
  | .node _ children :: rest =>
    above :: (aboveFrom (some serial) (serial + 1) children ++
      aboveFrom above (serial + 1 + (subtreesOf children).length) rest)

omit [Scalar α] in
@[simp]
theorem length_aboveFrom (above : Option Nat) (row : List (Tree α)) :
    (aboveFrom above serial row).length = (subtreesOf row).length := by
  induction row using row_induction generalizing above serial with
  | nil => simp [aboveFrom]
  | cons card children rest ihc ihr => simp [aboveFrom, ihc, ihr]

omit [Scalar α] in
/-- The node above a node of the row is what the row is under, or a node of the row with a smaller
number and children. -/
theorem aboveFrom_cases {above : Option Nat} {serial : Nat} {row : List (Tree α)} {k n : Nat}
    (h : (aboveFrom above serial row)[k]? = some (some n)) :
    above = some n ∨ serial ≤ n ∧ n < serial + k ∧
      ∃ t, (subtreesOf row)[n - serial]? = some t ∧ t.children ≠ [] := by
  induction row using row_induction generalizing above serial k with
  | nil => simp [aboveFrom] at h
  | cons card children rest ihc ihr =>
    rw [aboveFrom] at h
    rcases k with _ | k
    · exact .inl (Option.some.inj h)
    rw [List.getElem?_cons_succ, List.getElem?_append, length_aboveFrom] at h
    refine (em (k < (subtreesOf children).length)).elim (fun hk => ?_) fun hk => ?_
    · rw [if_pos hk] at h
      right
      rcases ihc h with e | ⟨hle, hlt, t, ht, hne⟩
      · obtain rfl := Option.some.inj e
        have hne : children ≠ [] := by
          rintro rfl
          simp at hk
        exact ⟨Nat.le_refl _, by omega, .node card children, by simp, hne⟩
      · refine ⟨by omega, by omega, t, ?_, hne⟩
        have hlen : n - (serial + 1) < (subtreesOf children).length := by omega
        obtain ⟨m, hm⟩ : ∃ m, n - serial = m + 1 := ⟨n - (serial + 1), by omega⟩
        rw [subtreesOf_cons, hm, List.getElem?_cons_succ,
          List.getElem?_append_left (by omega), ← ht]
        congr 1
        omega
    · rw [if_neg hk] at h
      rcases ihr h with e | ⟨hle, hlt, t, ht, hne⟩
      · exact .inl e
      · right
        refine ⟨by omega, by omega, t, ?_, hne⟩
        obtain ⟨m, hm⟩ : ∃ m, n - serial = m + 1 := ⟨n - (serial + 1), by omega⟩
        rw [subtreesOf_cons, hm, List.getElem?_cons_succ,
          List.getElem?_append_right (by omega), ← ht]
        congr 1
        omega

/-- The identifier of the node of a number, or of what the top row is under. -/
def idAbove : Option Nat → Option Text
  | some n => some (plan.idOf n)
  | none => parent

/-- The edge to a node from the node above it, if there is one. -/
def edgeInto (above : Option Nat) (n : Node α) : List Edge :=
  edgeTo (idAbove plan parent above) n.id n.kind

theorem edges_placeFrom (above : Option Nat) (row : List (Tree α)) :
    (placeFrom plan (idAbove plan parent above) y left bottom serial row).edges =
      (List.zipWith (edgeInto plan parent) (aboveFrom above serial row)
        (placeFrom plan (idAbove plan parent above) y left bottom serial row).nodes).flatten := by
  induction row using row_induction generalizing above y left bottom serial with
  | nil => simp [aboveFrom]
  | cons card children rest ihc ihr =>
    -- the children are under the node just numbered
    have hc := ihc (y + plan.config.nodeHeight)
      (left + Scalar.half card.width - Scalar.half (rowWidth plan.config.siblingGap children))
      (y + plan.config.nodeHeight) (serial + 1) (some serial)
    simp only [placeFrom_cons, edges_placeBelow, nodes_placeBelow, next_placeBelow, placeRow,
      next_placeFrom, aboveFrom, List.zipWith_cons_cons, List.flatten_cons]
    rw [List.zipWith_append (by simp [length_nodes_placeFrom]), List.flatten_append, ← ihr]
    exact congrArg₂ (· ++ ·) rfl (congrArg₂ (· ++ ·) hc rfl)

/-! ## Ends and identifiers of edges -/

/-- Below a node every node of the row is the target of one edge. -/
theorem targets_placeFrom (parent : Text) (y left bottom : α) (serial : Nat)
    (row : List (Tree α)) :
    (placeFrom plan (some parent) y left bottom serial row).edges.map Edge.target =
      (placeFrom plan (some parent) y left bottom serial row).nodes.map Node.id := by
  induction row using row_induction generalizing parent y left bottom serial with
  | nil => simp
  | cons card children rest ihc ihr =>
    simp only [placeFrom_cons, edges_placeBelow, nodes_placeBelow, placeRow, edgeTo,
      List.map_append, List.map_cons, List.map_nil, ihc, ihr]
    rfl

/-- Without a node above, there is an edge for every node but the tops of the row. -/
theorem length_edges_placeFrom (row : List (Tree α)) :
    (placeFrom plan none y left bottom serial row).edges.length + row.length =
      (subtreesOf row).length := by
  induction row using row_induction generalizing y left bottom serial with
  | nil => simp
  | cons card children rest _ ihr =>
    have hchildren := congrArg List.length (targets_placeFrom plan (plan.idOf serial)
      (y + plan.config.nodeHeight)
      (left + Scalar.half card.width - Scalar.half (rowWidth plan.config.siblingGap children))
      (y + plan.config.nodeHeight) (serial + 1) children)
    rw [List.length_map, List.length_map, length_nodes_placeFrom] at hchildren
    have hrest := ihr y (left + (card.width + plan.config.siblingGap))
      (Scalar.larger bottom (placeBelow plan (plan.idOf serial) (left + Scalar.half card.width) y
        (serial + 1) children).bottom) (serial + 1 + (subtreesOf children).length)
    simp only [placeFrom_cons, edges_placeBelow, next_placeBelow, placeRow, next_placeFrom,
      edgeTo, List.nil_append, List.length_append, hchildren, subtreesOf_cons, List.length_cons]
    omega

/-- No node is the target of two edges. -/
theorem sublist_targets_placeFrom (row : List (Tree α)) :
    ((placeFrom plan parent y left bottom serial row).edges.map Edge.target).Sublist
      ((placeFrom plan parent y left bottom serial row).nodes.map Node.id) := by
  induction row using row_induction generalizing parent y left bottom serial with
  | nil => simp
  | cons card children rest ihc ihr =>
    have hfirst : ((edgeTo parent (plan.idOf serial) card.kind).map Edge.target).Sublist
        [plan.idOf serial] := by
      cases parent with
      | none => exact List.nil_sublist _
      | some p => exact List.Sublist.refl _
    simp only [placeFrom_cons, edges_placeBelow, nodes_placeBelow, placeRow, List.map_append,
      List.map_cons]
    exact hfirst.append ((ihc _ _ _ _ _).append (ihr _ _ _ _ _))

theorem nodup_ids_placeFrom (row : List (Tree α)) :
    ((placeFrom plan parent y left bottom serial row).nodes.map Node.id).Nodup := by
  rw [ids_placeFrom]
  exact List.Nodup.map plan.idOf_injective (List.nodup_range' 1)

omit [Scalar α] in
theorem mem_edgeTo {parent : Option Text} {id : Text} {kind : NodeKind} {e : Edge} :
    e ∈ edgeTo parent id kind ↔ ∃ p, parent = some p ∧
      e = Edge.connect p id (if kind = .fragment then some "fragment" else none) := by
  cases parent <;> simp [edgeTo]

/-- Every edge leads to a node of the row, and comes from the node above it. -/
theorem exists_connect_of_mem_placeFrom {above : Option Nat} {row : List (Tree α)} {e : Edge}
    (h : e ∈ (placeFrom plan (idAbove plan parent above) y left bottom serial row).edges) :
    ∃ k n a p, (aboveFrom above serial row)[k]? = some a ∧ idAbove plan parent a = some p ∧
      (placeFrom plan (idAbove plan parent above) y left bottom serial row).nodes[k]? = some n ∧
      n.id = plan.idOf (serial + k) ∧
      e = Edge.connect p n.id (if n.kind = .fragment then some "fragment" else none) := by
  rw [edges_placeFrom] at h
  obtain ⟨l, hl, he⟩ := List.mem_flatten.1 h
  obtain ⟨k, hk⟩ := List.mem_iff_getElem?.1 hl
  rw [List.getElem?_zipWith_eq_some] at hk
  obtain ⟨a, n, ha, hn, rfl⟩ := hk
  obtain ⟨p, hp, he⟩ := mem_edgeTo.1 he
  have hlt := (List.getElem?_eq_some_iff.1 ha).1
  rw [length_aboveFrom] at hlt
  obtain ⟨n', hn', hid, -⟩ := exists_getElem?_nodes_placeFrom plan (idAbove plan parent above) y
    left bottom serial (List.getElem?_eq_getElem hlt)
  obtain rfl := Option.some.inj (hn.symm.trans hn')
  exact ⟨k, n, a, p, ha, hp, hn, hid, he⟩

/-- The identifier of an edge tells its target, and that the edge. -/
theorem nodup_edgeIds_placeFrom (row : List (Tree α)) :
    ((placeFrom plan parent y left bottom serial row).edges.map Edge.id).Nodup := by
  have htargets := (sublist_targets_placeFrom plan parent y left bottom serial row).nodup
    (nodup_ids_placeFrom plan parent y left bottom serial row)
  refine htargets.of_map.map_on fun e he e' he' h => ?_
  refine List.inj_on_of_nodup_map htargets he he' ?_
  have connect (e : Edge) (he : e ∈ (placeFrom plan parent y left bottom serial row).edges) :
      ∃ source k kind, e = Edge.connect source (plan.idOf k) kind := by
    rw [show parent = idAbove plan parent none from rfl] at he
    obtain ⟨k, n, a, p, -, -, -, hid, rfl⟩ :=
      exists_connect_of_mem_placeFrom plan parent y left bottom serial he
    rw [hid]
    exact ⟨p, serial + k, _, rfl⟩
  obtain ⟨source, k, kind, rfl⟩ := connect e he
  obtain ⟨source', k', kind', rfl⟩ := connect e' he'
  obtain rfl := plan.eq_of_connect_id_eq h
  rfl

end Tree

end QueryDiagram
