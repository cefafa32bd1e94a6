import Mathlib
import QueryDiagram.Proofs.Tree.Spacing

/-!
# Rows of placed trees

The nodes of a row that is placed lie side by side with a gap between neighbours, and the row as a
whole lies in the middle under the node above it (`Centred`). This holds of the top row and of the
row of children of every node, whatever the widths and the gap are; every row lies one node height
below the one above it (`rows_centred`).
-/

namespace QueryDiagram

namespace Tree

/-! ## Nodes with their trees -/

/-- A placed node with its tree. -/
structure Spot where
  node : Node Rat
  tree : Tree Rat

namespace Spot

/-- How far to the right the node stands. -/
def x (s : Spot) : Rat := s.node.position.x

/-- How far down the node stands. -/
def y (s : Spot) : Rat := s.node.position.y

/-- The box of the subtree. -/
def box (s : Spot) : Box := boxOf s.node s.tree

theorem left_box (s : Spot) : s.box.left = s.x - s.tree.width / 2 := rfl

theorem right_box (s : Spot) : s.box.right = s.x + s.tree.width / 2 := rfl

end Spot

/-- The placed nodes of a row with their addresses, the first tree having a place. -/
def spotsFrom (place : Nat) (nodes : List (Node Rat)) (row : List (Tree Rat)) :
    List (List Nat × Spot) :=
  (addressesFrom place row).zip ((nodes.zip (subtreesOf row)).map fun p => ⟨p.1, p.2⟩)

/-- The placed nodes of a row with their addresses. -/
abbrev spots (nodes : List (Node Rat)) (row : List (Tree Rat)) : List (List Nat × Spot) :=
  spotsFrom 0 nodes row

/-- The spots of a row, from those of its first tree and of the trees after it. -/
def joined (place : Nat) (root : Spot) (below others : List (List Nat × Spot)) :
    List (List Nat × Spot) :=
  ([place], root) :: (below.map (fun s => (place :: s.1, s.2)) ++ others)

/-- The row under an address, from left to right; the top row is under the empty address. -/
def rowUnder (address : List Nat) (spots : List (List Nat × Spot)) : List Spot :=
  (spots.filter fun s => s.1.dropLast == address).map Prod.snd

@[simp]
theorem rowUnder_append (address : List Nat) (l l' : List (List Nat × Spot)) :
    rowUnder address (l ++ l') = rowUnder address l ++ rowUnder address l' := by
  simp [rowUnder]

theorem rowUnder_eq_nil {address : List Nat} {l : List (List Nat × Spot)}
    (h : ∀ s ∈ l, s.1.dropLast ≠ address) : rowUnder address l = [] := by
  rw [rowUnder, List.map_eq_nil_iff, List.filter_eq_nil_iff]
  exact fun s hs => by simpa using h s hs

section Spots

variable {place : Nat} {nodes : List (Node Rat)} {row : List (Tree Rat)}

@[simp]
theorem spotsFrom_nil (place : Nat) (nodes : List (Node Rat)) :
    spotsFrom place nodes [] = [] := by
  simp [spotsFrom]

theorem spotsFrom_cons (n : Node Rat) {below : List (Node Rat)} (others : List (Node Rat))
    {card : Card Rat} {children rest : List (Tree Rat)}
    (h : below.length = (subtreesOf children).length) :
    spotsFrom place (n :: (below ++ others)) (.node card children :: rest) =
      joined place ⟨n, .node card children⟩ (spotsFrom 0 below children)
        (spotsFrom (place + 1) others rest) := by
  rw [spotsFrom, addressesFrom_cons, subtreesOf_cons, List.zip_cons_cons, List.map_cons,
    List.zip_cons_cons, List.zip_append h, List.map_append,
    List.zip_append (by simp [length_addressesFrom, h]), List.zip_map_left]
  rfl

theorem exists_cons_of_mem_spotsFrom {s : List Nat × Spot} (h : s ∈ spotsFrom place nodes row) :
    ∃ i a, s.1 = i :: a ∧ place ≤ i :=
  exists_cons_of_mem_addressesFrom (List.of_mem_zip h).1

/-- Every placed node has an address. -/
theorem map_node_spotsFrom (h : nodes.length = (subtreesOf row).length) :
    (spotsFrom place nodes row).map (fun s => s.2.node) = nodes := by
  have hspots : (spotsFrom place nodes row).map Prod.snd =
      (nodes.zip (subtreesOf row)).map fun p => ⟨p.1, p.2⟩ :=
    List.map_snd_zip (by simp [length_addressesFrom, h])
  calc (spotsFrom place nodes row).map (fun s => s.2.node)
      = ((spotsFrom place nodes row).map Prod.snd).map Spot.node := by rw [List.map_map]; rfl
    _ = (nodes.zip (subtreesOf row)).map Prod.fst := by rw [hspots, List.map_map]; rfl
    _ = nodes := List.map_fst_zip h.le

end Spots

/-! ## Rows under addresses -/

section Under

variable {place : Nat} {root : Spot} {below others : List (List Nat × Spot)}

theorem mem_joined {s : List Nat × Spot} : s ∈ joined place root below others ↔
    s = ([place], root) ∨ (∃ b ∈ below, (place :: b.1, b.2) = s) ∨ s ∈ others := by
  rw [joined, List.mem_cons, List.mem_append, List.mem_map]

theorem rowUnder_joined (address : List Nat) :
    rowUnder address (joined place root below others) =
      (if address = [] then [root] else []) ++
        (rowUnder address (below.map fun s => (place :: s.1, s.2)) ++ rowUnder address others) := by
  rw [← rowUnder_append, joined, rowUnder, List.filter_cons]
  cases address <;> rfl

/-- What is below a place is not under an address that begins otherwise. -/
theorem rowUnder_map_cons_eq_nil (hb : ∀ s ∈ below, s.1 ≠ []) {address : List Nat}
    (h : address.head? ≠ some place) :
    rowUnder address (below.map fun s => (place :: s.1, s.2)) = [] := by
  refine rowUnder_eq_nil fun s hs e => h ?_
  obtain ⟨b, hbm, rfl⟩ := List.mem_map.1 hs
  rw [List.dropLast_cons_of_ne_nil (hb b hbm)] at e
  rw [← e, List.head?_cons]

theorem rowUnder_joined_nil (hb : ∀ s ∈ below, s.1 ≠ []) :
    rowUnder [] (joined place root below others) = root :: rowUnder [] others := by
  rw [rowUnder_joined, if_pos rfl, rowUnder_map_cons_eq_nil hb (by simp), List.nil_append,
    List.singleton_append]

theorem rowUnder_joined_place (hb : ∀ s ∈ below, s.1 ≠ [])
    (ho : ∀ s ∈ others, ∃ i a, s.1 = i :: a ∧ place + 1 ≤ i) (address : List Nat) :
    rowUnder (place :: address) (joined place root below others) = rowUnder address below := by
  have hothers : rowUnder (place :: address) others = [] := by
    refine rowUnder_eq_nil fun s hs e => ?_
    obtain ⟨i, a, ha, hi⟩ := ho s hs
    rw [ha] at e
    cases a with
    | nil => simp at e
    | cons j a =>
      obtain ⟨rfl, -⟩ := List.cons.inj e
      omega
  have hbelow : rowUnder (place :: address) (below.map fun s => (place :: s.1, s.2)) =
      rowUnder address below := by
    rw [rowUnder, List.filter_map, List.map_map]
    refine congrArg (List.map Prod.snd) (List.filter_congr fun s hs => ?_)
    rw [Function.comp_apply, List.dropLast_cons_of_ne_nil (hb s hs)]
    simp
  rw [rowUnder_joined, if_neg (List.cons_ne_nil _ _), hbelow, hothers, List.nil_append,
    List.append_nil]

theorem rowUnder_joined_of_ne (hb : ∀ s ∈ below, s.1 ≠ []) {i : Nat} (hi : i ≠ place)
    (address : List Nat) :
    rowUnder (i :: address) (joined place root below others) = rowUnder (i :: address) others := by
  rw [rowUnder_joined, if_neg (List.cons_ne_nil _ _),
    rowUnder_map_cons_eq_nil hb (by simpa using hi), List.nil_append, List.nil_append]

end Under

/-! ## Spots side by side -/

/-- The first spot begins at `left`, and each begins a gap after the one before it ends. -/
def SideBySide (gap left : Rat) : List Spot → Prop
  | [] => True
  | s :: ss => s.box.left = left ∧ SideBySide gap (s.box.right + gap) ss

/-- The spots of a row: neighbours are apart by half of their widths and a gap, and the row is as
wide as it should be and lies in the middle under `center`. -/
structure Centred (gap center : Rat) (row : List (Tree Rat)) (spots : List Spot) : Prop where
  trees : spots.map Spot.tree = row
  spaced : spots.IsChain fun s t => t.x - s.x = s.tree.width / 2 + gap + t.tree.width / 2
  width : ∀ s ∈ spots.head?, ∀ t ∈ spots.getLast?, t.box.right - s.box.left = rowWidth gap row
  middle : ∀ s ∈ spots.head?, ∀ t ∈ spots.getLast?, (s.box.left + t.box.right) / 2 = center

section SideBySide

variable {gap left : Rat} {spots : List Spot}

theorem SideBySide.isChain (h : SideBySide gap left spots) :
    spots.IsChain fun s t => t.x - s.x = s.tree.width / 2 + gap + t.tree.width / 2 := by
  induction spots generalizing left with
  | nil => exact .nil
  | cons s ss ih =>
    obtain ⟨-, h⟩ := h
    cases ss with
    | nil => exact .singleton s
    | cons t ss =>
      refine .cons_cons ?_ (ih h)
      have hleft := h.1
      rw [Spot.left_box, Spot.right_box] at hleft
      linarith

/-- The last spot ends where the row does. -/
theorem SideBySide.right_getLast (h : SideBySide gap left spots) {t : Spot}
    (ht : t ∈ spots.getLast?) :
    t.box.right = left + (slotWidths gap (spots.map Spot.tree)).sum - gap := by
  induction spots generalizing left with
  | nil => simp at ht
  | cons s ss ih =>
    obtain ⟨hleft, h⟩ := h
    have hright : s.box.right = left + s.tree.width := by
      rw [← hleft, Spot.left_box, Spot.right_box]
      ring
    rw [List.map_cons, slotWidths_cons_rat, List.sum_cons]
    cases ss with
    | nil =>
      obtain rfl : s = t := by simpa using ht
      have hnil : (slotWidths gap ([] : List (Tree Rat))).sum = 0 := rfl
      rw [hright, List.map_nil, hnil]
      ring
    | cons u ss =>
      rw [ih h (by simpa using ht), hright]
      ring

theorem SideBySide.centred {center : Rat} {row : List (Tree Rat)}
    (htrees : spots.map Spot.tree = row)
    (h : SideBySide gap (center - rowWidth gap row / 2) spots) : Centred gap center row spots := by
  have ends : ∀ s ∈ spots.head?, ∀ t ∈ spots.getLast?,
      s.box.left = center - rowWidth gap row / 2 ∧
        t.box.right = center - rowWidth gap row / 2 + rowWidth gap row := by
    intro s hs t ht
    have hne : row ≠ [] := by
      rintro rfl
      simp [List.map_eq_nil_iff.1 htrees] at hs
    have hright := h.right_getLast ht
    rw [htrees] at hright
    cases spots with
    | nil => simp at hs
    | cons u us =>
      obtain rfl : u = s := by simpa using hs
      refine ⟨h.1, ?_⟩
      rw [hright, rowWidth_rat hne]
      ring
  refine ⟨htrees, h.isChain, fun s hs t ht => ?_, fun s hs t ht => ?_⟩
  · obtain ⟨hl, hr⟩ := ends s hs t ht
    linarith
  · obtain ⟨hl, hr⟩ := ends s hs t ht
    linarith

end SideBySide

/-! ## Placed rows -/

/-- The rows of spots that are placed from `left` on at height `y`. -/
structure Rowed (config : LayoutConfig Rat) (left y : Rat) (row : List (Tree Rat))
    (spots : List (List Nat × Spot)) : Prop where
  content : ∀ s ∈ spots, s.2.node.content = s.2.tree.card.content
  trees : (rowUnder [] spots).map Spot.tree = row
  beside : SideBySide config.siblingGap left (rowUnder [] spots)
  height : ∀ s ∈ spots, s.2.y = y + s.1.tail.length * config.nodeHeight
  below : ∀ s ∈ spots,
    Centred config.siblingGap s.2.x s.2.tree.children (rowUnder s.1 spots)

section Rowed

variable {config : LayoutConfig Rat} {left y : Rat} {card : Card Rat}
  {children rest : List (Tree Rat)} {place : Nat} {root : Spot}
  {below others : List (List Nat × Spot)}

theorem rowed_nil : Rowed config left y [] [] :=
  ⟨fun _ h => absurd h List.not_mem_nil, rfl, trivial, fun _ h => absurd h List.not_mem_nil,
    fun _ h => absurd h List.not_mem_nil⟩

/-- A row from its first tree, the row of its children and the trees after it. -/
theorem Rowed.cons (ht : root.tree = .node card children) (hn : root.node.content = card.content)
    (hx : root.x = left + card.width / 2) (hy : root.y = y)
    (hbelow : Rowed config (root.x - rowWidth config.siblingGap children / 2)
      (y + config.nodeHeight) children below)
    (hothers : Rowed config (left + (card.width + config.siblingGap)) y rest others)
    (hb : ∀ s ∈ below, s.1 ≠ []) (ho : ∀ s ∈ others, ∃ i a, s.1 = i :: a ∧ place + 1 ≤ i) :
    Rowed config left y (.node card children :: rest) (joined place root below others) := by
  have hwidth : root.tree.width = card.width := by rw [ht]; rfl
  constructor
  case content =>
    intro s hs
    rcases mem_joined.1 hs with rfl | ⟨b, hbm, rfl⟩ | hs
    · rw [hn, ht]
      rfl
    · exact hbelow.content b hbm
    · exact hothers.content s hs
  case trees => rw [rowUnder_joined_nil hb, List.map_cons, hothers.trees, ht]
  case beside =>
    -- the next tree begins where the cursor is moved
    have hnext : root.box.right + config.siblingGap =
        left + (card.width + config.siblingGap) := by
      rw [Spot.right_box, hx, hwidth]
      ring
    rw [rowUnder_joined_nil hb, SideBySide, hnext, Spot.left_box, hx, hwidth]
    exact ⟨by ring, hothers.beside⟩
  case height =>
    intro s hs
    rcases mem_joined.1 hs with rfl | ⟨b, hbm, rfl⟩ | hs
    · simp [hy]
    · obtain ⟨i, a, ha⟩ := List.exists_cons_of_ne_nil (hb b hbm)
      have hheight := hbelow.height b hbm
      simp only [ha, List.tail_cons, List.length_cons, Nat.cast_succ] at hheight ⊢
      rw [hheight]
      ring
    · exact hothers.height s hs
  case below =>
    intro s hs
    rcases mem_joined.1 hs with rfl | ⟨b, hbm, rfl⟩ | hs
    · rw [rowUnder_joined_place hb ho, ht]
      exact hbelow.beside.centred hbelow.trees
    · rw [rowUnder_joined_place hb ho]
      exact hbelow.below b hbm
    · obtain ⟨i, a, ha, hi⟩ := ho s hs
      have hcentred := hothers.below s hs
      rw [ha] at hcentred ⊢
      rwa [rowUnder_joined_of_ne hb (by omega)]

end Rowed

theorem rowed_placeFrom (plan : Plan Rat) (hm : plan.mode = .precomputed) (parent : Option Text)
    (y left bottom : Rat) (serial place : Nat) (row : List (Tree Rat)) :
    Rowed plan.config left y row
      (spotsFrom place (placeFrom plan parent y left bottom serial row).nodes row) := by
  induction row using row_induction generalizing parent y left bottom serial place with
  | nil =>
    rw [spotsFrom_nil]
    exact rowed_nil
  | cons card children rest ihc ihr =>
    have hx : (nodeOf plan serial (left + Scalar.half card.width) y card).position =
        ⟨left + card.width / 2, y⟩ := by
      simp only [nodeOf, Plan.position, hm, Scalar.half_rat]
    simp only [placeFrom_cons, nodes_placeBelow, placeRow]
    rw [spotsFrom_cons _ _ (length_nodes_placeFrom ..)]
    refine Rowed.cons rfl rfl (by rw [Spot.x, hx]) (by rw [Spot.y, hx]) ?_ (ihr ..)
      (fun s hs => ?_) fun s hs => exists_cons_of_mem_spotsFrom hs
    · rw [Spot.x, hx]
      exact ihc ..
    · obtain ⟨i, a, ha, -⟩ := exists_cons_of_mem_spotsFrom hs
      rw [ha]
      exact List.cons_ne_nil i a

/-- Every placed node shows the tree at its address. Rows of placed trees are evenly spaced, and
each lies in the middle under the node above it, or under `center`; every row lies one node height
below the row above it. -/
theorem rows_centred (config : LayoutConfig Rat) (stem : Text) (parent : Option Text)
    (center y : Rat) (serial : Nat) (row : List (Tree Rat)) :
    let nodes := (placeRow ⟨config, .precomputed, stem⟩ parent center y serial row).nodes
    (spots nodes row).map (fun s => s.2.node) = nodes ∧
      Centred config.siblingGap center row (rowUnder [] (spots nodes row)) ∧
      ∀ s ∈ spots nodes row, s.2.node.content = s.2.tree.card.content ∧
        s.2.y = y + s.1.tail.length * config.nodeHeight ∧
        Centred config.siblingGap s.2.x s.2.tree.children (rowUnder s.1 (spots nodes row)) := by
  intro nodes
  have hrowed : Rowed config (center - rowWidth config.siblingGap row / 2) y row
      (spots nodes row) :=
    rowed_placeFrom ⟨config, .precomputed, stem⟩ rfl parent y _ y serial 0 row
  refine ⟨map_node_spotsFrom (length_nodes_placeFrom ..), hrowed.beside.centred hrowed.trees,
    fun s hs => ⟨hrowed.content s hs, hrowed.height s hs, hrowed.below s hs⟩⟩

/-- Two trees of unequal widths below a third. -/
def unequalPair : List (Tree Rat) :=
  [.node { kind := .field, data := { name := "a" }, width := 600 }
    [.node { kind := .field, data := { name := "b" }, width := 200 } [],
      .node { kind := .field, data := { name := "c" }, width := 300 } []]]

/-- The nodes of two trees of unequal width in a row. -/
def placedPair : List (Node Rat) :=
  (placeRow ⟨.standard Rat, .precomputed, "node"⟩ none 40 100 0 unequalPair).nodes

theorem rows_centred_unequalPair :
    ∃ s ∈ spots placedPair unequalPair, s.1 = [0] ∧ s.2.x = 40 ∧ s.2.y = 100 ∧
      Centred 50 40 (unequalPair.flatMap children)
        (rowUnder [0] (spots placedPair unequalPair)) := by
  obtain ⟨-, -, hall⟩ := rows_centred (.standard Rat) "node" none 40 100 0 unequalPair
  have hfirst : (spots placedPair unequalPair).head?.map
      (fun s => (s.1, s.2.x, s.2.tree.children)) =
        some ([0], 40, unequalPair.flatMap children) := by
    cbv
  obtain ⟨s, hs, hfields⟩ := Option.map_eq_some_iff.1 hfirst
  have ha : s.1 = [0] := congrArg Prod.fst hfields
  have hx : s.2.x = 40 := congrArg (fun f => f.2.1) hfields
  have hc : s.2.tree.children = unequalPair.flatMap children := congrArg (fun f => f.2.2) hfields
  have hmem : s ∈ spots placedPair unequalPair := List.mem_of_mem_head? hs
  obtain ⟨-, hy, hcentred⟩ := hall s hmem
  rw [ha, hx, hc] at hcentred
  refine ⟨s, hmem, ha, hx, ?_, hcentred⟩
  rw [hy, ha]
  simp

end Tree

end QueryDiagram
