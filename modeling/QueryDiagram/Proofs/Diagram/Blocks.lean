import Mathlib.Data.List.SplitBy
import QueryDiagram.Proofs.Diagram.Forest

/-!
# Blocks of a diagram

The nodes of the trees, cut before every root (`Diagram.blocks`), with the edges that lead to them
(`edgesInto`). The operations of a document are drawn into consecutive blocks, and what stands in
the block of an operation is what it gives on an empty sheet with the same next number
(`Sheet.block_of_drawAll`).
-/

namespace QueryDiagram

open GraphQL

variable {α : Type}

/-! ## Cutting -/

/-- The nodes, cut before every root. -/
def cutAtRoots (nodes : List (Node α)) : List (List (Node α)) :=
  nodes.splitBy fun _ n => n.kind ≠ .operation

/-- Those edges that lead to one of the nodes. -/
def edgesInto (edges : List Edge) (nodes : List (Node α)) : List Edge :=
  edges.filter fun e => (nodes.map Node.id).contains e.target

theorem cutAtRoots_append {before after : List (Node α)}
    (h : ∀ n ∈ after.head?, n.kind = .operation) :
    cutAtRoots (before ++ after) = cutAtRoots before ++ cutAtRoots after :=
  List.splitBy_append fun _ _ n hn => by simp [h n hn]

theorem cutAtRoots_cons {root : Node α} {below : List (Node α)}
    (h : ∀ n ∈ below, n.kind ≠ .operation) : cutAtRoots (root :: below) = [root :: below] := by
  refine List.splitBy_of_isChain (List.cons_ne_nil _ _) (List.Pairwise.isChain ?_)
  rw [List.pairwise_cons]
  refine ⟨fun n hn => by simpa using h n hn, ?_⟩
  exact List.pairwise_of_forall_mem_list fun _ _ n hn => by simpa using h n hn

theorem edgesInto_eq_self {edges : List Edge} {nodes : List (Node α)}
    (h : ∀ e ∈ edges, e.target ∈ nodes.map Node.id) : edgesInto edges nodes = edges :=
  List.filter_eq_self.2 fun e he => List.contains_iff_mem.2 (h e he)

theorem edgesInto_eq_nil {edges : List Edge} {nodes : List (Node α)}
    (h : ∀ e ∈ edges, e.target ∉ nodes.map Node.id) : edgesInto edges nodes = [] :=
  List.filter_eq_nil_iff.2 fun e he hc => h e he (List.contains_iff_mem.1 hc)

/-! ## Sheets -/

namespace Sheet

variable [Scalar α] {plan : Plan α} {fragments : Fragments}

/-- What an operation adds to a sheet whose next number is `serial`. -/
def blockAt (plan : Plan α) (serial : Nat) (o : Operation) (row : List (Tree α)) : Sheet α :=
  withRow plan ⟨[], [], serial⟩ o row

theorem nodes_withRow (s : Sheet α) (o : Operation) (row : List (Tree α)) :
    (s.withRow plan o row).nodes = s.nodes ++ (blockAt plan s.next o row).nodes := rfl

theorem edges_withRow (s : Sheet α) (o : Operation) (row : List (Tree α)) :
    (s.withRow plan o row).edges = s.edges ++ (blockAt plan s.next o row).edges := rfl

section Block

variable {o : Operation} {row : List (Tree α)}
  (h : (Tree.ofSelections plan.config fragments [] o.body).outcome = .ok row) (serial : Nat)

include h

theorem under_blockAt : Placed.Under plan (rootOf plan serial o) (serial + 1)
    (Tree.placeRow plan (some (rootOf plan serial o).id) (rootOf plan serial o).position.x
      plan.config.treeStartY (serial + 1) row) :=
  Tree.under_placeRow h rfl (by simp [rootOf]) _ _ _

theorem cutAtRoots_blockAt :
    cutAtRoots (blockAt plan serial o row).nodes = [(blockAt plan serial o row).nodes] :=
  cutAtRoots_cons fun n hn => ((under_blockAt h serial).inner n hn).1

theorem target_mem_blockAt {e : Edge} (he : e ∈ (blockAt plan serial o row).edges) :
    e.target ∈ (blockAt plan serial o row).nodes.map Node.id := by
  have ht := List.mem_map_of_mem (f := Edge.target) he
  rw [show (blockAt plan serial o row).edges.map Edge.target = _ from
    (under_blockAt h serial).targets] at ht
  exact List.mem_cons_of_mem _ ht

end Block

theorem drawAll_append (s : Sheet α) (before after : List Operation) :
    drawAll plan fragments s (before ++ after) =
      drawAll plan fragments s before >>= fun s => drawAll plan fragments s after := by
  induction before generalizing s with
  | nil => simp [drawAll]
  | cons o os ih => simp only [List.cons_append, drawAll, bind_assoc, ih]

theorem length_cutAtRoots {operations : List Operation} {s : Sheet α}
    (h : (drawAll plan fragments .empty operations).outcome = .ok s) :
    (cutAtRoots s.nodes).length = operations.length := by
  refine drawAll_induction (motive := fun drawn s => (cutAtRoots s.nodes).length = drawn.length)
    (fun drawn s o s' ho ih => ?_) [] h rfl
  obtain ⟨row, hrow, rfl⟩ := outcome_draw_eq_ok_iff.1 ho
  rw [nodes_withRow, cutAtRoots_append (by simp [blockAt, withRow, rootOf]),
    cutAtRoots_blockAt hrow, List.length_append, List.length_append, ih]
  rfl

/-- Operations that are drawn later add nodes from a root on, and edges. -/
theorem exists_added {operations : List Operation} {s s' : Sheet α}
    (h : (drawAll plan fragments s operations).outcome = .ok s') :
    ∃ nodes edges, s'.nodes = s.nodes ++ nodes ∧ s'.edges = s.edges ++ edges ∧
      ∀ n ∈ nodes.head?, n.kind = .operation := by
  refine drawAll_induction (motive := fun _ s' => ∃ nodes edges, s'.nodes = s.nodes ++ nodes ∧
    s'.edges = s.edges ++ edges ∧ ∀ n ∈ nodes.head?, n.kind = .operation)
    (fun drawn s₁ o s₂ ho ih => ?_) [] h ⟨[], [], by simp, by simp, by simp⟩
  obtain ⟨row, hrow, rfl⟩ := outcome_draw_eq_ok_iff.1 ho
  obtain ⟨nodes, edges, hn, he, hroot⟩ := ih
  refine ⟨nodes ++ (blockAt plan s₁.next o row).nodes, edges ++ (blockAt plan s₁.next o row).edges,
    by rw [nodes_withRow, hn, List.append_assoc], by rw [edges_withRow, he, List.append_assoc], ?_⟩
  cases nodes with
  | nil => simp [blockAt, withRow, rootOf]
  | cons n ns => simpa using hroot

omit [Scalar α] in
/-- Edges that lead to the nodes beside a block do not lead to the block. -/
theorem edgesInto_between {before block after : List (Node α)} {edges₀ edges edges₁ : List Edge}
    (hd : ((before ++ block ++ after).map Node.id).Nodup)
    (h₀ : ∀ e ∈ edges₀, e.target ∈ before.map Node.id)
    (h : ∀ e ∈ edges, e.target ∈ block.map Node.id)
    (h₁ : ∀ e ∈ edges₁, e.target ∈ after.map Node.id) :
    edgesInto (edges₀ ++ edges ++ edges₁) block = edges := by
  rw [List.map_append, List.map_append, List.nodup_append', List.nodup_append'] at hd
  obtain ⟨⟨-, -, hbefore⟩, -, hafter⟩ := hd
  have he₀ := edgesInto_eq_nil fun e he => List.disjoint_left.1 hbefore (h₀ e he)
  have he₁ := edgesInto_eq_nil fun e he hb =>
    List.disjoint_left.1 hafter (List.mem_append_right _ hb) (h₁ e he)
  have he := edgesInto_eq_self h
  unfold edgesInto at he₀ he he₁ ⊢
  rw [List.filter_append, List.filter_append, he₀, he, he₁, List.nil_append, List.append_nil]

/-- An operation stands in the block of its place, and what it gives there is what it gives at its
number. -/
theorem block_of_drawAll {before after : List Operation} {o : Operation} {s : Sheet α}
    (h : (drawAll plan fragments .empty (before ++ o :: after)).outcome = .ok s) :
    ∃ row block, (Tree.ofSelections plan.config fragments [] o.body).outcome = .ok row ∧
      block = blockAt plan ((cutAtRoots s.nodes).take before.length).flatten.length o row ∧
      (cutAtRoots s.nodes)[before.length]? = some block.nodes ∧
      edgesInto s.edges block.nodes = block.edges ∧
      block.nodes <:+: s.nodes ∧ block.edges <:+: s.edges := by
  have hs := grown_of_drawAll h
  rw [drawAll_append] at h
  obtain ⟨s₀, h₀, h⟩ := Logged.outcome_bind_eq_ok_iff.1 h
  rw [drawAll] at h
  obtain ⟨s₁, h₁, h⟩ := Logged.outcome_bind_eq_ok_iff.1 h
  -- the sheet as the operation finds it, and what the operations after it add
  have hs₀ := grown_of_drawAll h₀
  have hs₁ := hs₀.draw h₁
  obtain ⟨row, hrow, rfl⟩ := outcome_draw_eq_ok_iff.1 h₁
  obtain ⟨nodes, edges, hn, he, hroot⟩ := exists_added h
  have hcut : cutAtRoots s.nodes = cutAtRoots s₀.nodes ++
      (blockAt plan s₀.next o row).nodes :: cutAtRoots nodes := by
    rw [hn, nodes_withRow, cutAtRoots_append hroot, cutAtRoots_append, cutAtRoots_blockAt hrow,
      List.append_assoc, List.singleton_append]
    simp [blockAt, withRow, rootOf]
  have hlen := length_cutAtRoots h₀
  have hoffset : ((cutAtRoots s.nodes).take before.length).flatten.length = s₀.next := by
    rw [hcut, List.take_left' hlen, hs₀.next]
    exact congrArg List.length (List.flatten_splitBy _ _)
  have h₀ : ∀ e ∈ s₀.edges, e.target ∈ s₀.nodes.map Node.id := by
    intro e hmem
    have ht := List.mem_map_of_mem (f := Edge.target) hmem
    rw [hs₀.targets] at ht
    exact List.map_subset _ (List.filter_subset_self _) ht
  have h₁ : ∀ e ∈ edges, e.target ∈ nodes.map Node.id := by
    intro e hmem
    have ht := hs.targets
    rw [hn, he, List.map_append, List.filter_append, List.map_append, hs₁.targets] at ht
    have hmem := List.mem_map_of_mem (f := Edge.target) hmem
    rw [List.append_cancel_left ht] at hmem
    exact List.map_subset _ (List.filter_subset_self _) hmem
  refine ⟨row, blockAt plan s₀.next o row, hrow, by rw [hoffset], ?_, ?_, ?_, ?_⟩
  · rw [hcut, ← hlen, List.getElem?_append_right (Nat.le_refl _)]
    simp
  · have hd := hs.nodup_ids
    rw [hn, nodes_withRow] at hd
    rw [he, edges_withRow]
    exact edgesInto_between hd h₀ (fun e => target_mem_blockAt hrow s₀.next) h₁
  · exact ⟨s₀.nodes, nodes, by rw [hn, nodes_withRow]⟩
  · exact ⟨s₀.edges, edges, by rw [he, edges_withRow]⟩

end Sheet

/-! ## Diagrams -/

namespace Diagram

/-- The nodes of the trees. -/
def treeNodes (d : Diagram α) : List (Node α) := d.nodes.filter (·.kind ≠ .var)

/-- The nodes of each tree, from its root on. -/
def blocks (d : Diagram α) : List (List (Node α)) := cutAtRoots d.treeNodes

theorem treeNodes_ofSheet [Scalar α] {mode : LayoutMode} {config : LayoutConfig α} {r : Request}
    {s : Sheet α} {operations : List Operation} (hs : s.Grown { config, mode } operations) :
    (ofSheet mode config r s).treeNodes = s.nodes := by
  rw [treeNodes, ofSheet, List.filter_append, List.filter_eq_self.2, List.filter_eq_nil_iff.2,
    List.append_nil]
  · exact fun n hn => by simp [(Variables.kind_of_mem_nodesFrom _ _ _ hn).1]
  · exact fun n hn => by simpa using (hs.kinds n hn).1

end Diagram

end QueryDiagram
