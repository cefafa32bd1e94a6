import Mathlib
import QueryDiagram.Proofs.Diagram.Edits
import QueryDiagram.Proofs.Diagram.Sheet
import QueryDiagram.Proofs.Identifiers
import QueryDiagram.Proofs.Request

/-!
# Diagrams are forests

Every diagram that is built is a forest with one root for each operation, beside a column of
variables without edges (`isForest_ofSheet`). Whether a diagram is a forest shows in its frame, so
edits keep it one (`IsForest.of_frame_eq`).
-/

namespace QueryDiagram

open GraphQL

variable {α : Type}

/-! ## Variables -/

namespace Variables

variable [Scalar α] (plan : Plan α) (index : Nat) (values : Record Json)

theorem ids_nodesFrom :
    (nodesFrom plan index values).map Node.id = values.keys.map idOf := by
  induction values generalizing index with
  | nil => rfl
  | cons p rest ih => exact congrArg (idOf p.1 :: ·) (ih (index + 1))

theorem kind_of_mem_nodesFrom {n : Node α} (hn : n ∈ nodesFrom plan index values) :
    n.kind = .var ∧ n.data.isRoot = none := by
  induction values generalizing index with
  | nil => simp [nodesFrom] at hn
  | cons p rest ih =>
    rcases List.mem_cons.1 hn with rfl | hn
    · exact ⟨rfl, rfl⟩
    · exact ih (index + 1) hn

theorem filter_operation_nodesFrom :
    (nodesFrom plan index values).filter (·.kind = .operation) = [] :=
  List.filter_eq_nil_iff.2 fun n hn => by
    simp [kind_of_mem_nodesFrom plan index values hn]

end Variables

/-! ## Sheets -/

namespace Sheet.Grown

variable {plan : Plan α} {drawn : List Operation} {s : Sheet α}

theorem id_of_getElem? (hs : Grown plan drawn s) {i : Nat} {n : Node α}
    (hn : s.nodes[i]? = some n) : n.id = plan.idOf i := by
  have hi := (List.getElem?_eq_some_iff.1 hn).1
  have h := congrArg (fun ids => ids[i]?) hs.ids
  simp only [List.getElem?_map, hn, List.getElem?_range hi, Option.map_some] at h
  exact Option.some.inj h

theorem nodup_ids (hs : Grown plan drawn s) : (s.nodes.map Node.id).Nodup := by
  rw [hs.ids]
  exact List.nodup_range.map plan.idOf_injective

theorem nodup_targets (hs : Grown plan drawn s) : (s.edges.map Edge.target).Nodup := by
  rw [hs.targets]
  exact hs.nodup_ids.sublist (List.filter_sublist.map _)

/-- The identifier of an edge tells its target, and that the edge. -/
theorem nodup_edgeIds (hs : Grown plan drawn s) : (s.edges.map Edge.id).Nodup := by
  refine hs.nodup_targets.of_map.map_on fun e he e' he' h => ?_
  refine List.inj_on_of_nodup_map hs.nodup_targets he he' ?_
  obtain ⟨i, j, a, b, -, -, hb, -, rfl⟩ := hs.descends e he
  obtain ⟨i', j', a', b', -, -, hb', -, rfl⟩ := hs.descends e' he'
  rw [hs.id_of_getElem? hb, hs.id_of_getElem? hb'] at h
  obtain rfl := plan.eq_of_connect_id_eq h
  obtain rfl := Option.some.inj (hb.symm.trans hb')
  rfl

theorem length_edges (hs : Grown plan drawn s) :
    s.edges.length + drawn.length = s.nodes.length := by
  have ht := congrArg List.length hs.targets
  have hr := congrArg List.length hs.roots
  simp only [List.length_map] at ht hr
  have hsum := List.length_eq_length_filter_add (l := s.nodes) (·.kind = .operation)
  simp only [decide_not] at ht
  omega

theorem countP_target (hs : Grown plan drawn s) {n : Node α} (hn : n ∈ s.nodes) :
    s.edges.countP (·.target = n.id) = if n.kind = .operation then 0 else 1 := by
  have hcount : s.edges.countP (·.target = n.id) = (s.edges.map Edge.target).count n.id := by
    rw [List.count, List.countP_map]
    exact List.countP_congr fun e _ => by simp
  rw [hcount, hs.targets]
  split_ifs with hk
  · -- the root would have to be a node of another kind
    refine List.count_eq_zero_of_not_mem fun hmem => ?_
    obtain ⟨m, hm, hid⟩ := List.mem_map.1 hmem
    obtain ⟨hm, hkm⟩ := List.mem_filter.1 hm
    obtain rfl := List.inj_on_of_nodup_map hs.nodup_ids hm hn hid
    simp [hk] at hkm
  · refine List.count_eq_one_of_mem (hs.nodup_ids.sublist (List.filter_sublist.map _)) ?_
    exact List.mem_map_of_mem (List.mem_filter.2 ⟨hn, by simpa using hk⟩)

end Sheet.Grown

namespace Diagram

/-! ## Forests -/

/-- The number of nodes of the trees. -/
def treeSize (d : Diagram α) : Nat := d.nodes.countP (·.kind ≠ .var)

/-- The nodes of the diagram form trees with one root for each operation, beside a column of
variables. -/
structure IsForest (d : Diagram α) : Prop where
  nodup_ids : (d.nodes.map Node.id).Nodup
  /-- The nodes of the trees come first, numbered from zero on, then the variables in order. -/
  ids : d.nodes.map Node.id =
    (List.range d.treeSize).map (fun i => ("node-" : Text) ++ Text.ofNat i) ++
      d.variableValues.keys.map Variables.idOf
  var_iff : ∀ i n, d.nodes[i]? = some n → (n.kind = .var ↔ d.treeSize ≤ i)
  isRoot_iff : ∀ n ∈ d.nodes, n.data.isRoot = some true ↔ n.kind = .operation
  /-- There is one root for each operation, in order. -/
  roots : (d.nodes.filter (·.kind = .operation)).map (·.data.fieldType) =
    (operationsOf d.document).map fun o => some (Text.ofString o.operationType.keyword)
  /-- Every edge goes from a node to a later one. -/
  ends : ∀ e ∈ d.edges, ∃ (i j : Nat) (a b : Node α), i < j ∧ d.nodes[i]? = some a ∧
    d.nodes[j]? = some b ∧ e.source = a.id ∧ e.target = b.id
  nodup_edgeIds : (d.edges.map Edge.id).Nodup
  /-- Roots and variables are under no node, every other node is under exactly one. -/
  incoming : ∀ n ∈ d.nodes, d.edges.countP (·.target = n.id) =
    if n.kind = .operation ∨ n.kind = .var then 0 else 1
  length_edges : d.edges.length + (operationsOf d.document).length = d.treeSize
  outgoing : ∀ n ∈ d.nodes, n.kind = .fieldGroup ∨ n.kind = .var → ∀ e ∈ d.edges,
    e.source ≠ n.id
  /-- An edge is marked exactly if it leads to a fragment, and it has no label. -/
  marked : ∀ e ∈ d.edges, ∀ n ∈ d.nodes, e.target = n.id →
    e = Edge.connect e.source n.id (if n.kind = .fragment then some "fragment" else none)

section Built

variable [Scalar α] {mode : LayoutMode} {config : LayoutConfig α} {r : Request} {s : Sheet α}
  {operations : List Operation}

theorem treeSize_ofSheet (hs : s.Grown { config, mode } operations) :
    (ofSheet mode config r s).treeSize = s.nodes.length := by
  have ht : s.nodes.countP (·.kind ≠ .var) = s.nodes.length :=
    List.countP_eq_length.2 fun n hn => by simpa using (hs.kinds n hn).1
  have hv : (Variables.nodes { config, mode } r.variableValues).countP (·.kind ≠ .var) = 0 :=
    List.countP_eq_zero.2 fun n hn => by simp [(Variables.kind_of_mem_nodesFrom _ _ _ hn).1]
  rw [treeSize, ofSheet, List.countP_append, ht, hv, Nat.add_zero]

theorem nodup_ids_ofSheet (hs : s.Grown { config, mode } operations)
    (hr : r.variableValues.keys.Nodup) :
    ((ofSheet mode config r s).nodes.map Node.id).Nodup := by
  rw [ofSheet, List.map_append, List.nodup_append]
  refine ⟨hs.nodup_ids, ?_, ?_⟩
  · rw [Variables.nodes, Variables.ids_nodesFrom]
    exact hr.map Variables.idOf_injective
  · intro id hid id' hid'
    rw [hs.ids] at hid
    rw [Variables.nodes, Variables.ids_nodesFrom] at hid'
    obtain ⟨i, -, rfl⟩ := List.mem_map.1 hid
    obtain ⟨name, -, rfl⟩ := List.mem_map.1 hid'
    exact (Variables.idOf_ne_idOf config mode i name).symm

theorem filter_operation_ofSheet :
    (ofSheet mode config r s).nodes.filter (·.kind = .operation) =
      s.nodes.filter (·.kind = .operation) := by
  rw [ofSheet, List.filter_append, Variables.nodes, Variables.filter_operation_nodesFrom,
    List.append_nil]

/-- A node of a tree is known by its identifier. -/
theorem eq_of_id_eq_ofSheet (hs : s.Grown { config, mode } operations)
    (hr : r.variableValues.keys.Nodup) {a n : Node α} (ha : a ∈ s.nodes)
    (hn : n ∈ (ofSheet mode config r s).nodes) (h : a.id = n.id) : a = n :=
  List.inj_on_of_nodup_map (nodup_ids_ofSheet hs hr) (List.mem_append_left _ ha) hn h

theorem isForest_ofSheet (hs : s.Grown { config, mode } (operationsOf r.document))
    (hr : r.variableValues.keys.Nodup) : (ofSheet mode config r s).IsForest where
  nodup_ids := nodup_ids_ofSheet hs hr
  ids := by
    have hid : Plan.idOf { config, mode } = fun i => ("node-" : Text) ++ Text.ofNat i :=
      funext (Plan.idOf_eq config mode)
    rw [treeSize_ofSheet hs, ofSheet, List.map_append, hs.ids, Variables.nodes,
      Variables.ids_nodesFrom, hid]
  var_iff i n hn := by
    rw [treeSize_ofSheet hs]
    rw [ofSheet, List.getElem?_append] at hn
    split_ifs at hn with hi
    · have hk := (hs.kinds n (List.mem_of_getElem? hn)).1
      exact ⟨fun h => absurd h hk, fun h => absurd hi (by omega)⟩
    · have hk := (Variables.kind_of_mem_nodesFrom _ _ _ (List.mem_of_getElem? hn)).1
      exact ⟨fun _ => by omega, fun _ => hk⟩
  isRoot_iff n hn := by
    rcases List.mem_append.1 hn with hn | hn
    · exact (hs.kinds n hn).2
    · simp [Variables.kind_of_mem_nodesFrom _ _ _ hn]
  roots := by
    have hroots := congrArg (List.map fun c => c.2.2.fieldType) hs.roots
    rw [List.map_map, List.map_map] at hroots
    rw [filter_operation_ofSheet]
    exact hroots
  ends e he := by
    obtain ⟨i, j, a, b, hij, ha, hb, -, rfl⟩ := (hs.descends e he).append
      (Variables.nodes { config, mode } r.variableValues)
    exact ⟨i, j, a, b, hij, ha, hb, rfl, rfl⟩
  nodup_edgeIds := hs.nodup_edgeIds
  incoming n hn := by
    rcases List.mem_append.1 hn with hn' | hn'
    · simp only [(hs.kinds n hn').1, or_false]
      exact hs.countP_target hn'
    · -- an edge to the variable would lead to a node of a tree
      have hk := (Variables.kind_of_mem_nodesFrom _ _ _ hn').1
      rw [if_pos (.inr hk)]
      refine List.countP_eq_zero.2 fun e he h => ?_
      obtain ⟨i, j, a, b, -, -, hb, -, rfl⟩ := hs.descends e he
      have hb := List.mem_of_getElem? hb
      obtain rfl := eq_of_id_eq_ofSheet hs hr hb hn (of_decide_eq_true h)
      exact (hs.kinds b hb).1 hk
  length_edges := by
    rw [treeSize_ofSheet hs]
    exact hs.length_edges
  outgoing n hn hk e he h := by
    obtain ⟨i, j, a, b, -, ha, -, hka, rfl⟩ := hs.descends e he
    have ha := List.mem_of_getElem? ha
    obtain rfl := eq_of_id_eq_ofSheet hs hr ha hn h
    exact hk.elim hka (hs.kinds a ha).1
  marked e he n hn h := by
    obtain ⟨i, j, a, b, -, -, hb, -, rfl⟩ := hs.descends e he
    obtain rfl := eq_of_id_eq_ofSheet hs hr (List.mem_of_getElem? hb) hn h
    rfl

end Built

/-! ## Edits -/

variable {d d' : Diagram α}

theorem treeSize_of_frame_eq (h : d'.frame = d.frame) : d'.treeSize = d.treeSize := by
  have hk := congrArg (List.countP (· ≠ NodeKind.var))
    (map_nodes_of_frame_eq h Node.kind fun _ => rfl)
  rw [List.countP_map, List.countP_map] at hk
  exact hk

theorem map_roots_of_frame_eq (h : d'.frame = d.frame) :
    (d'.nodes.filter (·.kind = .operation)).map (·.data.fieldType) =
      (d.nodes.filter (·.kind = .operation)).map (·.data.fieldType) := by
  have hk := congrArg
    (fun e => (e.nodes.filter (·.kind = .operation)).map (·.data.fieldType)) h
  simp only [frame, List.filter_map, List.map_map] at hk
  exact hk

/-- Whether a diagram is a forest shows in its frame. -/
theorem IsForest.of_frame_eq (hd : d.IsForest) (h : d'.frame = d.frame) : d'.IsForest where
  nodup_ids := by
    rw [map_nodes_of_frame_eq h Node.id fun _ => rfl]
    exact hd.nodup_ids
  ids := by
    rw [map_nodes_of_frame_eq h Node.id fun _ => rfl, treeSize_of_frame_eq h,
      variableValues_of_frame_eq h]
    exact hd.ids
  var_iff i n hn := by
    obtain ⟨m, hm, e⟩ := exists_getElem?_of_frame_eq h hn
    rw [treeSize_of_frame_eq h, ← Node.kind_eq_of_frame_eq e]
    exact hd.var_iff i m hm
  isRoot_iff n hn := by
    obtain ⟨m, hm, e⟩ := exists_mem_of_frame_eq h hn
    have hr : m.data.isRoot = n.data.isRoot := congrArg (fun n => n.data.isRoot) e
    rw [← hr, ← Node.kind_eq_of_frame_eq e]
    exact hd.isRoot_iff m hm
  roots := by
    rw [map_roots_of_frame_eq h, document_of_frame_eq h]
    exact hd.roots
  ends e he := by
    obtain ⟨i, j, a, b, hij, ha, hb, hs, ht⟩ := hd.ends e (edges_of_frame_eq h ▸ he)
    obtain ⟨a', ha', hae⟩ := exists_getElem?_of_frame_eq h.symm ha
    obtain ⟨b', hb', hbe⟩ := exists_getElem?_of_frame_eq h.symm hb
    exact ⟨i, j, a', b', hij, ha', hb', hs.trans (Node.id_eq_of_frame_eq hae).symm,
      ht.trans (Node.id_eq_of_frame_eq hbe).symm⟩
  nodup_edgeIds := by
    rw [edges_of_frame_eq h]
    exact hd.nodup_edgeIds
  incoming n hn := by
    obtain ⟨m, hm, e⟩ := exists_mem_of_frame_eq h hn
    rw [edges_of_frame_eq h, ← Node.kind_eq_of_frame_eq e, ← Node.id_eq_of_frame_eq e]
    exact hd.incoming m hm
  length_edges := by
    rw [edges_of_frame_eq h, document_of_frame_eq h, treeSize_of_frame_eq h]
    exact hd.length_edges
  outgoing n hn := by
    obtain ⟨m, hm, e⟩ := exists_mem_of_frame_eq h hn
    rw [edges_of_frame_eq h, ← Node.kind_eq_of_frame_eq e, ← Node.id_eq_of_frame_eq e]
    exact hd.outgoing m hm
  marked e he n hn := by
    obtain ⟨m, hm, hmn⟩ := exists_mem_of_frame_eq h hn
    rw [← Node.kind_eq_of_frame_eq hmn, ← Node.id_eq_of_frame_eq hmn]
    exact hd.marked e (edges_of_frame_eq h ▸ he) m hm

theorem IsForest.of_edited {d d' : Diagram α} (hd : d.IsForest) (he : Edited d d') :
    d'.IsForest :=
  hd.of_frame_eq (he.frame_eq hd.nodup_ids)

/-! ## The result -/

variable [Scalar α] {mode : LayoutMode} {config : LayoutConfig α} {text : Text}

/-- The roots of a diagram that is built show the operations. -/
theorem roots_of_build (h : (build mode config text).outcome = .ok d) :
    (d.nodes.filter (·.kind = .operation)).map Node.content =
      (operationsOf d.document).map Sheet.rootContent := by
  obtain ⟨r, s, -, hs, rfl⟩ := outcome_build_eq_ok_iff.1 h
  obtain ⟨fragments, -, hs⟩ := outcome_sheet_eq_ok_iff.1 hs
  rw [filter_operation_ofSheet]
  exact (Sheet.grown_of_drawAll hs).roots

theorem isForest_of_build (h : (build mode config text).outcome = .ok d) : d.IsForest := by
  obtain ⟨r, s, hr, hs, rfl⟩ := outcome_build_eq_ok_iff.1 h
  obtain ⟨fragments, -, hs⟩ := outcome_sheet_eq_ok_iff.1 hs
  exact isForest_ofSheet (Sheet.grown_of_drawAll hs) (Request.nodup_keys_variableValues hr)

theorem read_of_build (h : (build mode config text).outcome = .ok d) :
    Request.read text = .ok ⟨d.query, d.document, d.operationName, d.variableValues⟩ := by
  obtain ⟨r, s, hr, hs, rfl⟩ := outcome_build_eq_ok_iff.1 h
  exact hr

/-- The diagram of a text is a forest that shows the operations of the text in its roots, and
however it is edited, it stays a forest with the same frame. -/
theorem isForest_of_edited (h : (build mode config text).outcome = .ok d) (he : Edited d d') :
    d'.IsForest ∧ d'.frame = d.frame ∧
      (d.nodes.filter (·.kind = .operation)).map Node.content =
        (operationsOf d.document).map Sheet.rootContent ∧
      Request.read text = .ok ⟨d.query, d.document, d.operationName, d.variableValues⟩ := by
  have hd := isForest_of_build h
  have hframe := he.frame_eq hd.nodup_ids
  exact ⟨hd.of_frame_eq hframe, hframe, roots_of_build h, read_of_build h⟩

/-- Two operations, a fragment that spreads itself, and a variable. -/
def twoOperations : Text :=
  ("\x7b\"query\": \"query A \x7ba ...F\x7d mutation \x7bb \x7bc\x7d\x7d " : Text) ++
    "fragment F on T \x7bd ...F\x7d\", \"variables\": \x7b\"v\": 1\x7d\x7d"

set_option maxRecDepth 20000 in
theorem isForest_of_edited_twoOperations :
    ∃ d d' : Diagram Rat, (build .precomputed (.standard Rat) twoOperations).outcome = .ok d ∧
      d.patch "node-3" { label := .set "F" } = .ok d' ∧ d'.IsForest ∧ d'.frame = d.frame := by
  have h : ∃ d d' : Diagram Rat,
      (build .precomputed (.standard Rat) twoOperations).outcome = .ok d ∧
        d.patch "node-3" { label := .set "F" } = .ok d' := ⟨_, _, by cbv, by cbv⟩
  obtain ⟨d, d', hd, hp⟩ := h
  obtain ⟨hf, he, -⟩ := isForest_of_edited hd (Edited.refl.patch hp)
  exact ⟨d, d', hd, hp, hf, he⟩

end Diagram

end QueryDiagram
