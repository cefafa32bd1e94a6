import QueryDiagram.Proofs.Diagram.Drawing
import QueryDiagram.Proofs.Tree.Level
import QueryDiagram.Proofs.Tree.Numbering

/-!
# Sheets of trees

The invariant of a sheet on which operations are drawn one after the other (`Sheet.Grown`): it
ties the number of the next node, the nodes and the edges together. The empty sheet has it, and
drawing an operation preserves it (`Sheet.Grown.draw`).
-/

namespace QueryDiagram

open GraphQL

variable {α : Type}

/-! ## Edges that go down -/

/-- The edge goes from a node that is no group of fields to a later node of the list, and it is
marked if that one is a fragment. -/
def Descends (nodes : List (Node α)) (e : Edge) : Prop :=
  ∃ (i j : Nat) (a b : Node α), i < j ∧ nodes[i]? = some a ∧ nodes[j]? = some b ∧
    a.kind ≠ .fieldGroup ∧
      e = Edge.connect a.id b.id (if b.kind = .fragment then some "fragment" else none)

theorem Descends.append {nodes : List (Node α)} {e : Edge} (h : Descends nodes e)
    (more : List (Node α)) : Descends (nodes ++ more) e := by
  obtain ⟨i, j, a, b, hij, ha, hb, h⟩ := h
  have hi := (List.getElem?_eq_some_iff.1 ha).1
  have hj := (List.getElem?_eq_some_iff.1 hb).1
  exact ⟨i, j, a, b, hij, by rwa [List.getElem?_append_left hi],
    by rwa [List.getElem?_append_left hj], h⟩

theorem Descends.append_before {nodes : List (Node α)} {e : Edge} (h : Descends nodes e)
    (more : List (Node α)) : Descends (more ++ nodes) e := by
  obtain ⟨i, j, a, b, hij, ha, hb, h⟩ := h
  refine ⟨more.length + i, more.length + j, a, b, by omega, ?_, ?_, h⟩
  · rwa [List.getElem?_append_right (by omega), Nat.add_sub_cancel_left]
  · rwa [List.getElem?_append_right (by omega), Nat.add_sub_cancel_left]

/-! ## Rows -/

namespace Tree

variable [Scalar α]

/-- No tree that is built shows an operation or a variable, and a group of fields has nothing
below it. -/
theorem card_of_built {config : LayoutConfig α} {fragments : Fragments} {expanding : List Text}
    {selections : List Selection} {row : List (Tree α)}
    (h : (ofSelections config fragments expanding selections).outcome = .ok row) :
    ∀ t ∈ subtreesOf row, t.card.kind ≠ .operation ∧ t.card.kind ≠ .var ∧
      t.card.data.isRoot = none ∧ (t.children ≠ [] → t.card.kind ≠ .fieldGroup) := by
  refine forall_subtreesOf_of_built ?_ ?_ ?_ ?_ h
  · intro fields arguments _
    simp [groupNode, card, children]
  · intro f arguments children
    simp [fieldNode, card]
  · intro name label
    simp [closedSpread, card, children, fragmentData]
  · intro name children
    simp [fragmentNode, card, fragmentData]

theorem node_of_built {plan : Plan α} {config : LayoutConfig α} {fragments : Fragments}
    {expanding : List Text} {selections : List Selection} {row : List (Tree α)}
    (h : (ofSelections config fragments expanding selections).outcome = .ok row)
    {parent : Option Text} {y left bottom : α} {serial : Nat} {n : Node α}
    (hn : n ∈ (placeFrom plan parent y left bottom serial row).nodes) :
    n.kind ≠ .operation ∧ n.kind ≠ .var ∧ n.data.isRoot = none := by
  obtain ⟨t, ht, hc⟩ := exists_content_of_mem_placeFrom plan parent y left bottom serial hn
  obtain ⟨ho, hv, hr, -⟩ := card_of_built h t ht
  rw [show n.kind = t.card.kind from congrArg Prod.fst hc.symm,
    show n.data = t.card.data from congrArg (fun c => c.2.2) hc.symm]
  exact ⟨ho, hv, hr⟩

variable {plan : Plan α}

/-- The edges of a row that is placed under a root go down. -/
theorem descends_of_mem_placeFrom {root : Node α} {m : Nat} (hid : root.id = plan.idOf m)
    (hk : root.kind ≠ .fieldGroup) {y left bottom : α} {serial : Nat} {row : List (Tree α)}
    (hrow : ∀ t ∈ subtreesOf row, t.children ≠ [] → t.card.kind ≠ .fieldGroup) {e : Edge}
    (he : e ∈ (placeFrom plan (some root.id) y left bottom serial row).edges) :
    Descends (root :: (placeFrom plan (some root.id) y left bottom serial row).nodes) e := by
  rw [hid] at he ⊢
  rw [show some (plan.idOf m) = idAbove plan none (some m) from rfl] at he
  obtain ⟨k, b, above, p, ha, hp, hb, -, rfl⟩ :=
    exists_connect_of_mem_placeFrom plan none y left bottom serial he
  cases above with
  | none => cases hp
  | some n =>
    obtain rfl := Option.some.inj hp
    rcases aboveFrom_cases ha with e | ⟨hle, hlt, t, ht, hne⟩
    · -- the top of the row is under the root
      obtain rfl := Option.some.inj e
      exact ⟨0, k + 1, root, b, by omega, rfl, hb, hk, by rw [hid]⟩
    · obtain ⟨a, ha, hid', hc⟩ :=
        exists_getElem?_nodes_placeFrom plan (some (plan.idOf m)) y left bottom serial ht
      have hka : a.kind ≠ .fieldGroup := by
        rw [show a.kind = t.card.kind from congrArg Prod.fst hc]
        exact hrow t (List.mem_of_getElem? ht) hne
      refine ⟨n - serial + 1, k + 1, a, b, by omega, ha, hb, hka, ?_⟩
      rw [hid', show serial + (n - serial) = n by omega]

end Tree

/-- What is placed under a root, numbered from `serial` on. -/
structure Placed.Under [Scalar α] (plan : Plan α) (root : Node α) (serial : Nat)
    (p : Placed α) : Prop where
  next : p.next = serial + p.nodes.length
  ids : p.nodes.map Node.id = (List.range' serial p.nodes.length).map plan.idOf
  inner : ∀ n ∈ p.nodes, n.kind ≠ .operation ∧ n.kind ≠ .var ∧ n.data.isRoot = none
  targets : p.edges.map Edge.target = p.nodes.map Node.id
  descends : ∀ e ∈ p.edges, Descends (root :: p.nodes) e

section Under

variable [Scalar α] {plan : Plan α} {root : Node α} {serial : Nat} {p : Placed α}

theorem Placed.Under.filter_operation (hp : p.Under plan root serial) :
    p.nodes.filter (·.kind = .operation) = [] :=
  List.filter_eq_nil_iff.2 fun n hn => by simp [(hp.inner n hn).1]

theorem Placed.Under.filter_not_operation (hp : p.Under plan root serial) :
    p.nodes.filter (·.kind ≠ .operation) = p.nodes :=
  List.filter_eq_self.2 fun n hn => by simp [(hp.inner n hn).1]

end Under

/-- The row of a selection set, placed under a root. -/
theorem Tree.under_placeRow [Scalar α] {plan : Plan α} {config : LayoutConfig α}
    {fragments : Fragments} {expanding : List Text} {selections : List Selection}
    {row : List (Tree α)}
    (h : (ofSelections config fragments expanding selections).outcome = .ok row) {root : Node α}
    {m : Nat} (hid : root.id = plan.idOf m) (hk : root.kind ≠ .fieldGroup) (center y : α)
    (serial : Nat) :
    (placeRow plan (some root.id) center y serial row).Under plan root serial where
  next := by rw [placeRow, next_placeFrom, length_nodes_placeFrom]
  ids := by rw [placeRow, ids_placeFrom, length_nodes_placeFrom]
  inner _ hn := node_of_built h hn
  targets := targets_placeFrom plan _ _ _ _ _ _
  descends _ he := descends_of_mem_placeFrom hid hk (fun t ht => (card_of_built h t ht).2.2.2) he

/-! ## Sheets -/

namespace Sheet

/-- What the root of an operation shows. -/
def rootContent (o : Operation) : NodeKind × Text × NodeData :=
  let operationType := Text.ofString o.operationType.keyword
  let name := o.name.getD anonymous
  (.operation, operationType ++ ": " ++ name,
    { name, isRoot := some true, fieldType := some operationType })

theorem kind_of_content_eq {n : Node α} {o : Operation} (h : n.content = rootContent o) :
    n.kind = .operation := congrArg Prod.fst h

theorem isRoot_of_content_eq {n : Node α} {o : Operation} (h : n.content = rootContent o) :
    n.data.isRoot = some true := congrArg (fun c => c.2.2.isRoot) h

/-- The sheet on which some operations are drawn. -/
structure Grown (plan : Plan α) (drawn : List Operation) (s : Sheet α) : Prop where
  next : s.next = s.nodes.length
  ids : s.nodes.map Node.id = (List.range s.nodes.length).map plan.idOf
  kinds : ∀ n ∈ s.nodes, n.kind ≠ .var ∧ (n.data.isRoot = some true ↔ n.kind = .operation)
  /-- The roots show the operations, in order. -/
  roots : (s.nodes.filter (·.kind = .operation)).map Node.content = drawn.map rootContent
  /-- Every node but the roots is the target of one edge. -/
  targets : s.edges.map Edge.target = (s.nodes.filter (·.kind ≠ .operation)).map Node.id
  descends : ∀ e ∈ s.edges, Descends s.nodes e

theorem grown_empty (plan : Plan α) : Grown plan [] .empty where
  next := rfl
  ids := rfl
  kinds := by simp [empty]
  roots := rfl
  targets := rfl
  descends := by simp [empty]

variable [Scalar α] {plan : Plan α} {fragments : Fragments} {drawn : List Operation}
  {s s' : Sheet α}

/-- A root of the next number and what is placed under it. -/
theorem Grown.push_under {root : Node α} {o : Operation} {p : Placed α} (hs : Grown plan drawn s)
    (hid : root.id = plan.idOf s.next) (hc : root.content = rootContent o)
    (hp : p.Under plan root (s.next + 1)) :
    Grown plan (drawn ++ [o]) ⟨s.nodes ++ root :: p.nodes, s.edges ++ p.edges, p.next⟩ where
  next := by
    simp only [hp.next, hs.next, List.length_append, List.length_cons]
    omega
  ids := by
    simp only [List.map_append, List.map_cons, hs.ids, hid, hp.ids, hs.next, List.length_append,
      List.length_cons, List.range_eq_range', ← List.range'_append_1, List.range'_succ]
    simp
  kinds n hn := by
    rcases List.mem_append.1 hn with hn | hn
    · exact hs.kinds n hn
    rcases List.mem_cons.1 hn with rfl | hn
    · simp [kind_of_content_eq hc, isRoot_of_content_eq hc]
    · obtain ⟨ho, hv, hr⟩ := hp.inner n hn
      simp [ho, hv, hr]
  roots := by
    rw [List.filter_append, List.filter_cons_of_pos (by simp [kind_of_content_eq hc]),
      hp.filter_operation, List.map_append, hs.roots, List.map_append, List.map_singleton,
      List.map_singleton, hc]
  targets := by
    rw [List.filter_append, List.filter_cons_of_neg (by simp [kind_of_content_eq hc]),
      hp.filter_not_operation, List.map_append, List.map_append, hs.targets, hp.targets]
  descends e he := by
    rcases List.mem_append.1 he with he | he
    · exact (hs.descends e he).append _
    · exact (hp.descends e he).append_before _

/-- Drawing one more operation. -/
theorem Grown.draw {o : Operation} (hs : Grown plan drawn s)
    (h : (s.draw plan fragments o).outcome = .ok s') : Grown plan (drawn ++ [o]) s' := by
  obtain ⟨row, hrow, rfl⟩ := outcome_draw_eq_ok_iff.1 h
  exact hs.push_under rfl rfl (Tree.under_placeRow hrow rfl (by simp [rootOf]) _ _ _)

/-- All operations of a document. -/
theorem grown_of_drawAll {operations : List Operation}
    (h : (drawAll plan fragments .empty operations).outcome = .ok s) : Grown plan operations s :=
  drawAll_induction (fun _ _ _ _ h hs => hs.draw h) [] h (grown_empty plan)

end Sheet

end QueryDiagram
