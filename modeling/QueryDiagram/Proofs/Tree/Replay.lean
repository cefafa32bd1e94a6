import QueryDiagram.Diagram.Build
import QueryDiagram.Proofs.Tree.Numbering

/-!
# Rows that can be told from their nodes and edges

Replaying edges over loose nodes hangs, edge by edge, the target below the source, as its last
child (`replay`). Over the nodes and edges of a row that is placed this gives back the row: what
its trees show and in which order, at every level (`replay_placeFrom`). So placing a row on a sheet
appends nodes and edges that encode the row (`Sheet.encodes_place`).
-/

namespace QueryDiagram

/-! ## Labelled trees -/

/-- A tree with a label at every node. -/
inductive Rose (β : Type) where
  | node (label : β) (below : List (Rose β))

namespace Rose

variable {β γ : Type}

/-- A forest is empty, or begins with a tree that has a forest below it. -/
@[elab_as_elim]
theorem forest_induction {motive : List (Rose β) → Prop} (nil : motive [])
    (cons : ∀ label below rest, motive below → motive rest → motive (.node label below :: rest)) :
    ∀ forest, motive forest
  | [] => nil
  | .node label below :: rest =>
    cons label below rest (forest_induction nil cons below) (forest_induction nil cons rest)

/-- The forest with other labels. -/
def relabel (f : β → γ) : List (Rose β) → List (Rose γ)
  | [] => []
  | .node label below :: rest => .node (f label) (relabel f below) :: relabel f rest

/-- A node that nothing hangs below. -/
def leaf (label : β) : Rose β := .node label []

/-- The label at the root. -/
def label : Rose β → β
  | node l _ => l

/-! ### Forests of identified nodes -/

/-- The identifiers in a forest. -/
def ids : List (Rose (Text × β)) → List Text
  | [] => []
  | .node label below :: rest => label.1 :: (ids below ++ ids rest)

/-- The forest with some trees as the last children of the node with an identifier. -/
def graft (id : Text) (trees : List (Rose (Text × β))) :
    List (Rose (Text × β)) → List (Rose (Text × β))
  | [] => []
  | .node label below :: rest =>
    .node label (graft id trees below ++ if label.1 = id then trees else []) ::
      graft id trees rest

variable {id id' : Text} {trees trees' forest forest' : List (Rose (Text × β))}

@[simp]
theorem ids_append : ids (forest ++ forest') = ids forest ++ ids forest' := by
  induction forest using forest_induction with
  | nil => rw [List.nil_append, ids, List.nil_append]
  | cons label below rest _ ih =>
    rw [List.cons_append, ids, ih, ids, List.cons_append, List.append_assoc]

@[simp]
theorem ids_map_leaf (labels : List (Text × β)) : ids (labels.map leaf) = labels.map Prod.fst := by
  induction labels with
  | nil => simp [ids]
  | cons l ls ih => simp [leaf, ids, ← ih]

theorem graft_append :
    graft id trees (forest ++ forest') = graft id trees forest ++ graft id trees forest' := by
  induction forest using forest_induction with
  | nil => rw [List.nil_append, graft, List.nil_append]
  | cons label below rest _ ih => rw [List.cons_append, graft, ih, graft, List.cons_append]

theorem graft_nil : graft id [] forest = forest := by
  induction forest using forest_induction with
  | nil => rw [graft]
  | cons label below rest ihb ihr => rw [graft, ihb, ihr, ite_self, List.append_nil]

/-- Nothing is grafted where the identifier is missing. -/
theorem graft_of_not_mem (h : id ∉ ids forest) : graft id trees forest = forest := by
  induction forest using forest_induction with
  | nil => rw [graft]
  | cons label below rest ihb ihr =>
    simp only [ids, List.mem_cons, List.mem_append, not_or] at h
    rw [graft, ihb h.2.1, ihr h.2.2, if_neg (Ne.symm h.1), List.append_nil]

theorem mem_ids_graft {x : Text} :
    x ∈ ids (graft id trees forest) → x ∈ ids forest ∨ x ∈ ids trees := by
  induction forest using forest_induction with
  | nil =>
    rw [graft]
    exact .inl
  | cons label below rest ihb ihr =>
    simp only [graft, ids, ids_append, List.mem_cons, List.mem_append]
    rintro (h | (h | h) | h)
    · exact .inl (.inl h)
    · exact (ihb h).imp_left fun h => .inr (.inl h)
    · split_ifs at h with hid
      · exact .inr h
      · simp [ids] at h
    · exact (ihr h).imp_left fun h => .inr (.inr h)

/-- The identifiers of a grafted forest. -/
theorem ids_graft_subset : ids (graft id trees forest) ⊆ ids forest ++ ids trees := fun _ hx =>
  List.mem_append.2 (mem_ids_graft hx)

theorem mem_ids_graft_of_mem {x : Text} (h : x ∈ ids forest) : x ∈ ids (graft id trees forest) := by
  induction forest using forest_induction with
  | nil => simp [ids] at h
  | cons label below rest ihb ihr =>
    simp only [ids, List.mem_cons, List.mem_append] at h
    simp only [graft, ids, ids_append, List.mem_cons, List.mem_append]
    rcases h with h | h | h
    · exact .inl h
    · exact .inr (.inl (.inl (ihb h)))
    · exact .inr (.inr (ihr h))

theorem mem_ids_of_graft {x : Text} (hid : id ∈ ids forest) (h : x ∈ ids trees) :
    x ∈ ids (graft id trees forest) := by
  induction forest using forest_induction with
  | nil => simp [ids] at hid
  | cons label below rest ihb ihr =>
    simp only [ids, List.mem_cons, List.mem_append] at hid
    simp only [graft, ids, ids_append, List.mem_cons, List.mem_append]
    rcases hid with rfl | hid | hid
    · exact .inr (.inl (.inr (by rwa [if_pos rfl])))
    · exact .inr (.inl (.inl (ihb hid)))
    · exact .inr (.inr (ihr hid))

/-- What is grafted in two steps is grafted in one. -/
theorem graft_graft_same (h : id ∉ ids trees) :
    graft id trees' (graft id trees forest) = graft id (trees ++ trees') forest := by
  induction forest using forest_induction with
  | nil => rw [graft, graft, graft]
  | cons label below rest ihb ihr =>
    rw [graft, graft, graft, graft_append, ihb, ihr]
    split_ifs with hid
    · rw [graft_of_not_mem h, List.append_assoc]
    · rw [graft, List.append_nil]

/-- Grafting below what was grafted is grafting what was grafted below. -/
theorem graft_graft (h : id' ∉ ids forest) :
    graft id' trees' (graft id trees forest) = graft id (graft id' trees' trees) forest := by
  induction forest using forest_induction with
  | nil => rw [graft, graft, graft]
  | cons label below rest ihb ihr =>
    simp only [ids, List.mem_cons, List.mem_append, not_or] at h
    rw [graft, graft, graft, graft_append, ihb h.2.1, ihr h.2.2, if_neg (Ne.symm h.1),
      List.append_nil]
    split_ifs with hid
    · rfl
    · rw [graft]

theorem graft_leaf (b : β) : graft id trees [leaf (id, b)] = [.node (id, b) trees] := by
  simp [leaf, graft]

theorem label_mem_ids {t : Rose (Text × β)} (h : t ∈ forest) : t.label.1 ∈ ids forest := by
  induction forest using forest_induction with
  | nil => simp at h
  | cons label below rest _ ihr =>
    rw [ids, List.mem_cons, List.mem_append]
    rcases List.mem_cons.1 h with rfl | h
    · exact .inl rfl
    · exact .inr (.inr (ihr h))

/-! ### Replaying edges -/

/-- The forest after an edge: the trees that the edge leads to hang below the node that it comes
from. An edge from elsewhere changes nothing. -/
def hang (forest : List (Rose (Text × β))) (e : Edge) : List (Rose (Text × β)) :=
  if (ids forest).contains e.source then
    graft e.source (forest.filter fun t => t.label.1 = e.target)
      (forest.filter fun t => t.label.1 ≠ e.target)
  else forest

variable {e : Edge}

theorem hang_of_not_mem (h : e.source ∉ ids forest) : hang forest e = forest :=
  if_neg (mt List.contains_iff_mem.1 h)

/-- An edge to a loose node takes it from its place. -/
theorem hang_leaf {l : Text × β} (hs : e.source ∈ ids forest) (ht : e.target = l.1)
    (hl : l.1 ∉ ids forest) (hl' : l.1 ∉ ids forest') (hs' : e.source ∉ ids forest') :
    hang (forest ++ leaf l :: forest') e = graft e.source [leaf l] forest ++ forest' := by
  have gone {f : List (Rose (Text × β))} (h : l.1 ∉ ids f) :
      f.filter (fun t => t.label.1 = e.target) = [] ∧
        f.filter (fun t => t.label.1 ≠ e.target) = f := by
    have hne : ∀ t ∈ f, t.label.1 ≠ e.target := fun t hm he =>
      h (ht ▸ he ▸ label_mem_ids hm)
    exact ⟨List.filter_eq_nil_iff.2 fun t hm => by simpa using hne t hm,
      List.filter_eq_self.2 fun t hm => by simpa using hne t hm⟩
  have hleaf : (leaf l).label.1 = e.target := ht.symm
  rw [hang, if_pos (by simp [hs]), List.filter_append,
    List.filter_append, List.filter_cons_of_pos (by simpa using hleaf),
    List.filter_cons_of_neg (by simpa using hleaf), (gone hl).1, (gone hl).2, (gone hl').1,
    (gone hl').2, graft_append, graft_of_not_mem hs', List.nil_append]

end Rose

/-- What nodes show, and their identifiers, each by itself. -/
def Node.loose {α : Type} (n : Node α) : Rose (Text × NodeKind × Text × NodeData) :=
  .leaf (n.id, n.content)

/-- The forest of the nodes, the edges being replayed one after the other. -/
def replay {α : Type} (nodes : List (Node α)) (edges : List Edge) :
    List (Rose (Text × NodeKind × Text × NodeData)) :=
  edges.foldl Rose.hang (nodes.map Node.loose)

theorem ids_map_loose {α : Type} (nodes : List (Node α)) :
    Rose.ids (nodes.map Node.loose) = nodes.map Node.id := by
  have h : nodes.map Node.loose = (nodes.map fun n => (n.id, n.content)).map Rose.leaf := by
    rw [List.map_map]
    rfl
  rw [h, Rose.ids_map_leaf, List.map_map]
  rfl

/-! ## Rows -/

namespace Tree

open Rose

variable {α : Type}

/-- What the trees of a row show. -/
def shown : List (Tree α) → List (Rose (NodeKind × Text × NodeData))
  | [] => []
  | .node card children :: rest => .node card.content (shown children) :: shown rest

variable (plan : Plan α)

/-- What the trees of a row show, with the identifiers that they get. -/
def numbered (serial : Nat) : List (Tree α) → List (Rose (Text × NodeKind × Text × NodeData))
  | [] => []
  | .node card children :: rest =>
    .node (plan.idOf serial, card.content) (numbered (serial + 1) children) ::
      numbered (serial + 1 + (subtreesOf children).length) rest

theorem relabel_numbered (serial : Nat) (row : List (Tree α)) :
    relabel Prod.snd (numbered plan serial row) = shown row := by
  induction row using row_induction generalizing serial with
  | nil => simp [numbered, relabel, shown]
  | cons card children rest ihc ihr => rw [numbered, relabel, ihc, ihr, shown]

theorem ids_numbered (serial : Nat) (row : List (Tree α)) :
    ids (numbered plan serial row) =
      (List.range' serial (subtreesOf row).length).map plan.idOf := by
  induction row using row_induction generalizing serial with
  | nil => simp [numbered, ids]
  | cons card children rest ihc ihr =>
    simp only [numbered, ids, ihc, ihr, subtreesOf_cons, List.length_cons, List.length_append,
      List.range'_succ, ← List.range'_append_1, List.map_cons, List.map_append]

/-- No node with one of some numbers from `serial` on has one of the identifiers. -/
def Unused (serial count : Nat) (ids : List Text) : Prop :=
  ∀ k, serial ≤ k → k < serial + count → plan.idOf k ∉ ids

variable {plan} {serial count : Nat} {xs xs' : List Text}

theorem Unused.mono (h : Unused plan serial count xs) {serial' count' : Nat}
    (hs : serial ≤ serial') (hc : serial' + count' ≤ serial + count) :
    Unused plan serial' count' xs := fun k hk hk' => h k (by omega) (by omega)

theorem Unused.append (h : Unused plan serial count xs) (h' : Unused plan serial count xs') :
    Unused plan serial count (xs ++ xs') := fun k hk hk' hm =>
  (List.mem_append.1 hm).elim (h k hk hk') (h' k hk hk')

theorem Unused.of_subset (h : Unused plan serial count xs') (hs : xs ⊆ xs') :
    Unused plan serial count xs := fun k hk hk' hm => h k hk hk' (hs hm)

theorem idOf_mem_range' {n : Nat} :
    plan.idOf n ∈ (List.range' serial count).map plan.idOf ↔ serial ≤ n ∧ n < serial + count := by
  rw [List.mem_map_of_injective plan.idOf_injective, List.mem_range'_1]

/-- Numbers that differ have identifiers that differ. -/
theorem unused_range' {serial' count' : Nat}
    (h : serial + count ≤ serial' ∨ serial' + count' ≤ serial) :
    Unused plan serial count ((List.range' serial' count').map plan.idOf) := by
  intro k hk hk' hm
  rw [idOf_mem_range'] at hm
  omega

/-- One of the identifiers is not that of a node with one of the numbers. -/
theorem Unused.not_mem_range' (h : Unused plan serial count xs) {x : Text} (hx : x ∈ xs)
    {serial' count' : Nat} (hs : serial ≤ serial') (hc : serial' + count' ≤ serial + count) :
    x ∉ (List.range' serial' count').map plan.idOf := by
  intro hm
  obtain ⟨j, hj, rfl⟩ := List.mem_map.1 hm
  rw [List.mem_range'_1] at hj
  exact h j (by omega) (by omega) hx

variable {p : Text} {forest tail loose below : List (Rose (Text × NodeKind × Text × NodeData))}
  {m r : Nat}

variable (plan serial count p forest tail) in
/-- A row with some numbers can be hung below `p`: the node is there, and neither the forest nor
what comes after the row has a node with one of the numbers. -/
structure Ready : Prop where
  mem : p ∈ ids forest
  not_mem : p ∉ ids tail
  unused : Unused plan serial count (ids forest)
  unused_tail : Unused plan serial count (ids tail)

/-- The root of the first tree is hung below `p`, before nodes with later numbers. -/
theorem Ready.hang_root (h : Ready plan serial (m + 1) p forest tail)
    (hl : ids loose = (List.range' (serial + 1) m).map plan.idOf)
    (content : NodeKind × Text × NodeData) (kind : Option Text) :
    hang (forest ++ leaf (plan.idOf serial, content) :: (loose ++ tail))
        (Edge.connect p (plan.idOf serial) kind) =
      graft p [leaf (plan.idOf serial, content)] forest ++ (loose ++ tail) := by
  have hroot := h.unused serial (Nat.le_refl _) (by omega)
  have hroot' := h.unused_tail serial (Nat.le_refl _) (by omega)
  have hlater : plan.idOf serial ∉ (List.range' (serial + 1) m).map plan.idOf :=
    mt idOf_mem_range'.1 (by omega)
  have hp : p ∉ (List.range' (serial + 1) m).map plan.idOf :=
    h.unused.not_mem_range' h.mem (by omega) (by omega)
  refine hang_leaf h.mem rfl hroot ?_ ?_ <;> rw [ids_append, List.mem_append, hl, not_or]
  · exact ⟨hlater, hroot'⟩
  · exact ⟨hp, h.not_mem⟩

/-- Then its children can be hung below the root. -/
theorem Ready.children (h : Ready plan serial (m + r + 1) p forest tail)
    (hl : ids loose = (List.range' (serial + 1 + m) r).map plan.idOf)
    (content : NodeKind × Text × NodeData) :
    Ready plan (serial + 1) m (plan.idOf serial)
      (graft p [leaf (plan.idOf serial, content)] forest) (loose ++ tail) := by
  have hleaf : ids [leaf (plan.idOf serial, content)] =
      (List.range' serial 1).map plan.idOf := by
    simp [leaf, ids]
  refine ⟨mem_ids_of_graft h.mem (by simp [hleaf]), ?_, ?_, ?_⟩
  · rw [ids_append, List.mem_append, hl, not_or]
    exact ⟨mt idOf_mem_range'.1 (by omega),
      h.unused_tail serial (Nat.le_refl _) (by omega)⟩
  · refine Unused.of_subset ?_ ids_graft_subset
    rw [hleaf]
    exact (h.unused.mono (by omega) (by omega)).append (unused_range' (.inr (Nat.le_refl _)))
  · rw [ids_append, hl]
    exact (unused_range' (.inl (Nat.le_refl _))).append (h.unused_tail.mono (by omega) (by omega))

/-- Then the rest of the row can be hung below `p`. -/
theorem Ready.rest (h : Ready plan serial (m + r + 1) p forest tail)
    (hb : ids below = (List.range' (serial + 1) m).map plan.idOf)
    (content : NodeKind × Text × NodeData) :
    p ∉ ids [.node (plan.idOf serial, content) below] ∧
      Ready plan (serial + 1 + m) r p
        (graft p [.node (plan.idOf serial, content) below] forest) tail := by
  have htree : ids [.node (plan.idOf serial, content) below] =
      (List.range' serial (m + 1)).map plan.idOf := by
    simp [ids, hb, List.range'_succ]
  rw [htree]
  refine ⟨h.unused.not_mem_range' h.mem (Nat.le_refl _) (by omega), mem_ids_graft_of_mem h.mem,
    h.not_mem, Unused.of_subset ?_ ids_graft_subset, h.unused_tail.mono (by omega) (by omega)⟩
  rw [htree]
  exact (h.unused.mono (by omega) (by omega)).append (unused_range' (.inr (by omega)))

/-- What is below the first tree can be hung below its root at the end of a forest. -/
theorem ready_leaf (h : Unused plan serial (m + r + 1) (ids forest))
    (hl : ids loose = (List.range' (serial + 1 + m) r).map plan.idOf)
    (content : NodeKind × Text × NodeData) :
    Ready plan (serial + 1) m (plan.idOf serial) (forest ++ [leaf (plan.idOf serial, content)])
      loose := by
  have hleaf : ids (forest ++ [leaf (plan.idOf serial, content)]) =
      ids forest ++ (List.range' serial 1).map plan.idOf := by
    simp [leaf, ids]
  refine ⟨by simp [hleaf], ?_, ?_, ?_⟩
  · rw [hl]
    exact mt idOf_mem_range'.1 (by omega)
  · rw [hleaf]
    exact (h.mono (by omega) (by omega)).append (unused_range' (.inr (Nat.le_refl _)))
  · rw [hl]
    exact unused_range' (.inl (Nat.le_refl _))

variable [Scalar α]

theorem ids_loose_placeFrom (parent : Option Text) (y left bottom : α) (row : List (Tree α)) :
    ids ((placeFrom plan parent y left bottom serial row).nodes.map Node.loose) =
      (List.range' serial (subtreesOf row).length).map plan.idOf := by
  rw [ids_map_loose, ids_placeFrom]

/-- Replaying the edges of a row below a node of a forest grafts the row there. -/
theorem foldl_hang_below (y left bottom : α) (row : List (Tree α))
    (h : Ready plan serial (subtreesOf row).length p forest tail) :
    (placeFrom plan (some p) y left bottom serial row).edges.foldl hang
        (forest ++ ((placeFrom plan (some p) y left bottom serial row).nodes.map Node.loose ++
          tail)) =
      graft p (numbered plan serial row) forest ++ tail := by
  induction row using row_induction generalizing p y left bottom serial forest tail with
  | nil => simp [numbered, graft_nil]
  | cons card children rest ihc ihr =>
    simp only [subtreesOf_cons, List.length_cons, List.length_append] at h
    obtain ⟨hp, hrest⟩ := h.rest (ids_numbered plan (serial + 1) children) card.content
    have hroot := h.unused serial (Nat.le_refl _) (by omega)
    have hnode (x : α) :
        (nodeOf plan serial x y card).loose = leaf (plan.idOf serial, card.content) := rfl
    have hloose (parent : Option Text) (y left bottom y' left' bottom' : α) :
        ids ((placeFrom plan parent y left bottom (serial + 1) children).nodes.map Node.loose ++
            (placeFrom plan (some p) y' left' bottom' (serial + 1 + (subtreesOf children).length)
              rest).nodes.map Node.loose) =
          (List.range' (serial + 1)
            ((subtreesOf children).length + (subtreesOf rest).length)).map plan.idOf := by
      rw [ids_append, ids_loose_placeFrom, ids_loose_placeFrom, ← List.map_append,
        List.range'_append_1]
    simp only [placeFrom_cons, nodes_placeBelow, edges_placeBelow, next_placeBelow, placeRow,
      next_placeFrom, edgeTo, List.map_cons, List.map_append, List.foldl_append, List.foldl_cons,
      List.foldl_nil, List.cons_append]
    -- the root is hung below `p`, what is below it below the root, the rest of the row below `p`
    rw [hnode, h.hang_root (hloose ..), List.append_assoc,
      ihc _ _ _ (h.children (ids_loose_placeFrom ..) _), graft_graft hroot, graft_leaf,
      ihr _ _ _ hrest, graft_graft_same hp, numbered, List.singleton_append]

omit [Scalar α] in
/-- An edge from elsewhere changes nothing. -/
theorem foldl_hang_edgeTo {parent : Option Text} {id : Text} {kind : NodeKind}
    (h : ∀ p, parent = some p → p ∉ ids forest) :
    (edgeTo parent id kind).foldl hang forest = forest := by
  cases parent with
  | none => rfl
  | some p => exact hang_of_not_mem (h p rfl)

/-- Replaying the edges of a row that is not below any of the nodes gives the row. -/
theorem foldl_hang_top (forest : List (Rose (Text × NodeKind × Text × NodeData)))
    (parent : Option Text) (y left bottom : α) (row : List (Tree α))
    (hparent : ∀ p, parent = some p →
      p ∉ ids forest ++ (List.range' serial (subtreesOf row).length).map plan.idOf)
    (hf : Unused plan serial (subtreesOf row).length (ids forest)) :
    (placeFrom plan parent y left bottom serial row).edges.foldl hang
        (forest ++ (placeFrom plan parent y left bottom serial row).nodes.map Node.loose) =
      forest ++ numbered plan serial row := by
  induction row using row_induction generalizing left bottom serial forest with
  | nil => simp [numbered]
  | cons card children rest _ ihr =>
    simp only [subtreesOf_cons, List.length_cons, List.length_append] at hparent hf
    have hroot := hf serial (Nat.le_refl _) (by omega)
    have hnode (x : α) :
        (nodeOf plan serial x y card).loose = leaf (plan.idOf serial, card.content) := rfl
    have htree : ids (forest ++ [.node (plan.idOf serial, card.content)
        (numbered plan (serial + 1) children)]) =
          ids forest ++ (List.range' serial ((subtreesOf children).length + 1)).map plan.idOf := by
      simp [ids, ids_numbered, List.range'_succ]
    have hall : List.range' serial ((subtreesOf children).length + 1) ++
        List.range' (serial + 1 + (subtreesOf children).length) (subtreesOf rest).length =
          List.range' serial ((subtreesOf children).length + (subtreesOf rest).length + 1) := by
      rw [Nat.add_assoc serial, Nat.add_comm 1, List.range'_append_1, Nat.add_right_comm]
    simp only [placeFrom_cons, nodes_placeBelow, edges_placeBelow, next_placeBelow, placeRow,
      next_placeFrom, List.map_cons, List.map_append, List.foldl_append, hnode]
    -- the edge to the root changes nothing, what is below the root is hung below it
    rw [foldl_hang_edgeTo, List.append_cons,
      foldl_hang_below _ _ _ _ (ready_leaf hf (ids_loose_placeFrom ..) _), graft_append,
      graft_of_not_mem hroot, graft_leaf, ihr, numbered, ← List.append_cons]
    · intro p hp
      rw [htree, List.append_assoc, ← List.map_append, hall]
      exact hparent p hp
    · rw [htree]
      exact (hf.mono (by omega) (by omega)).append (unused_range' (.inr (by omega)))
    · intro p hp
      simpa [leaf, ids, ids_loose_placeFrom, List.range'_succ, ← List.range'_append_1] using
        hparent p hp

/-- Replaying the edges of a row over its nodes gives the row, unless what it is under is one of
them. -/
theorem replay_placeFrom (parent : Option Text) (y left bottom : α) (row : List (Tree α))
    (h : ∀ p, parent = some p →
      p ∉ (placeFrom plan parent y left bottom serial row).nodes.map Node.id) :
    replay (placeFrom plan parent y left bottom serial row).nodes
      (placeFrom plan parent y left bottom serial row).edges = numbered plan serial row := by
  rw [ids_placeFrom] at h
  refine foldl_hang_top [] parent y left bottom row ?_ fun k _ _ => ?_
  · rwa [ids, List.nil_append]
  · rw [ids]
    exact List.not_mem_nil

/-- Without a node above, no edge leads to a top of the row. -/
theorem target_ne_of_top {y left bottom : α} {row : List (Tree α)} {e : Edge} {k : Nat}
    {n : Node α} (he : e ∈ (placeFrom plan none y left bottom serial row).edges)
    (hn : (placeFrom plan none y left bottom serial row).nodes[k]? = some n)
    (htop : (aboveFrom none serial row)[k]? = some none) : e.target ≠ n.id := by
  intro ht
  rw [show none = idAbove plan none none from rfl] at he hn
  obtain ⟨k', n', a, p, ha, hp, hn', -, rfl⟩ :=
    exists_connect_of_mem_placeFrom plan none y left bottom serial he
  have hk : k' = k := by
    refine (List.getElem?_inj ?_
      (nodup_ids_placeFrom plan (idAbove plan none none) y left bottom serial row)).1 ?_
    · rw [List.length_map]
      exact (List.getElem?_eq_some_iff.1 hn').1
    · rw [List.getElem?_map, List.getElem?_map, hn', hn]
      exact congrArg some ht
  obtain rfl := Option.some.inj ((hk ▸ ha).symm.trans htop)
  cases hp

variable (plan serial)

/-- Nodes and edges that encode a row under `parent`, in the order of a reader. -/
structure Encodes (parent : Option Text) (row : List (Tree α)) (nodes : List (Node α))
    (edges : List Edge) : Prop where
  ids : nodes.map Node.id = (List.range' serial (subtreesOf row).length).map plan.idOf
  contents : nodes.map Node.content = (subtreesOf row).map fun t => t.card.content
  /-- Every node has an edge from the node above it, or from `parent`. -/
  edges_eq : edges =
    (List.zipWith (edgeInto plan parent) (aboveFrom none serial row) nodes).flatten
  targets : parent ≠ none → edges.map Edge.target = nodes.map Node.id
  length_edges : parent = none → edges.length + row.length = nodes.length
  target_ne : parent = none → ∀ e ∈ edges, ∀ (k : Nat) (n : Node α), nodes[k]? = some n →
    (aboveFrom none serial row)[k]? = some none → e.target ≠ n.id
  nodup_edgeIds : (edges.map Edge.id).Nodup
  replay : (∀ p, parent = some p → p ∉ nodes.map Node.id) →
    relabel Prod.snd (replay nodes edges) = shown row

theorem encodes_placeFrom (parent : Option Text) (y left bottom : α) (row : List (Tree α)) :
    Encodes plan serial parent row (placeFrom plan parent y left bottom serial row).nodes
      (placeFrom plan parent y left bottom serial row).edges where
  ids := ids_placeFrom ..
  contents := contents_placeFrom ..
  edges_eq := edges_placeFrom plan parent y left bottom serial none row
  targets h := by
    obtain ⟨p, rfl⟩ := Option.ne_none_iff_exists'.1 h
    exact targets_placeFrom ..
  length_edges h := by
    rw [h, length_edges_placeFrom, length_nodes_placeFrom]
  target_ne h e he k n hn htop := by
    subst h
    exact target_ne_of_top he hn htop
  nodup_edgeIds := nodup_edgeIds_placeFrom ..
  replay h := by rw [replay_placeFrom _ _ _ _ _ h, relabel_numbered]

end Tree

/-- Placing a row appends nodes and edges that encode the row, and counts the nodes. -/
theorem Sheet.encodes_place {α : Type} [Scalar α] (s : Sheet α) (plan : Plan α)
    (parent : Option Text) (center y : α) (row : List (Tree α)) :
    ∃ nodes edges, s.place plan parent center y row =
        ⟨s.nodes ++ nodes, s.edges ++ edges, s.next + (Tree.subtreesOf row).length⟩ ∧
      Tree.Encodes plan s.next parent row nodes edges := by
  refine ⟨_, _, ?_, Tree.encodes_placeFrom plan s.next parent y
    (center - Scalar.half (rowWidth plan.config.siblingGap row)) y row⟩
  rw [place, Tree.placeRow, Tree.next_placeFrom]

end QueryDiagram
