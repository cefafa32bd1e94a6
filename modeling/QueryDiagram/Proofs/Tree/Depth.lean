import Mathlib
import QueryDiagram.Proofs.Layout.Rational
import QueryDiagram.Proofs.Tree.Expansion
import QueryDiagram.Proofs.Tree.Numbering

/-!
# How far down a row reaches

Placing a row tells the largest height that it used (`bottom_reported`): the greatest among where
it was to start and where its nodes are, whichever way rows follow each other. If they go down, it
is as many rows below the start as the trees are high. It does not depend on whether the places are
kept.
-/

namespace QueryDiagram

namespace Tree

section Scalar

variable {α : Type} [Scalar α]

theorem bottom_placeBelow_nil (plan : Plan α) (parent : Text) (x y : α) (serial : Nat) :
    (placeBelow plan parent x y serial []).bottom = y := by
  rw [placeBelow]

theorem bottom_placeBelow (plan : Plan α) (parent : Text) (x y : α) (serial : Nat)
    {children : List (Tree α)} (h : children ≠ []) :
    (placeBelow plan parent x y serial children).bottom =
      (placeRow plan (some parent) x (y + plan.config.nodeHeight) serial children).bottom := by
  cases children with
  | nil => exact absurd rfl h
  | cons t ts => rw [placeBelow, placeRow]

/-- Neither where a row begins nor what it is under nor how its nodes are called says how far down
it reaches. -/
theorem bottom_placeFrom_congr (plan plan' : Plan α)
    (hplan : plan.config.nodeHeight = plan'.config.nodeHeight) (parent parent' : Option Text)
    (y left left' bottom : α) (serial serial' : Nat) (row : List (Tree α)) :
    (placeFrom plan parent y left bottom serial row).bottom =
      (placeFrom plan' parent' y left' bottom serial' row).bottom := by
  induction row using row_induction
    generalizing parent parent' y left left' bottom serial serial' with
  | nil => simp
  | cons card children rest ihc ihr =>
    have hbelow (x x' : α) :
        (placeBelow plan (plan.idOf serial) x y (serial + 1) children).bottom =
          (placeBelow plan' (plan'.idOf serial') x' y (serial' + 1) children).bottom := by
      by_cases hne : children = []
      · rw [hne, bottom_placeBelow_nil, bottom_placeBelow_nil]
      · rw [bottom_placeBelow _ _ _ _ _ hne, bottom_placeBelow _ _ _ _ _ hne, placeRow, placeRow,
          hplan]
        exact ihc ..
    simp only [placeFrom_cons]
    rw [hbelow _ (left' + Scalar.half card.width)]
    exact ihr ..

end Scalar

/-! ## The greatest height -/

/-- The heights of nodes. -/
def heights (nodes : List (Node Rat)) : Set Rat := {z | ∃ n ∈ nodes, n.position.y = z}

theorem mem_heights_cons {n : Node Rat} {nodes : List (Node Rat)} {z : Rat} :
    z ∈ heights (n :: nodes) ↔ n.position.y = z ∨ z ∈ heights nodes := by
  simp [heights]

theorem mem_heights_append {nodes nodes' : List (Node Rat)} {z : Rat} :
    z ∈ heights (nodes ++ nodes') ↔ z ∈ heights nodes ∨ z ∈ heights nodes' := by
  simp [heights, or_and_right, exists_or]

section Greatest

variable {plan : Plan Rat}

theorem y_nodeOf (hm : plan.mode = .precomputed) (serial : Nat) (x y : Rat) (card : Card Rat) :
    (nodeOf plan serial x y card).position.y = y := by
  simp only [nodeOf, Plan.position, hm]

/-- The row of a tree is at the height that is asked for. -/
theorem mem_heights_placeFrom (hm : plan.mode = .precomputed) (parent : Option Text)
    (y left bottom : Rat) (serial : Nat) {row : List (Tree Rat)} (h : row ≠ []) :
    y ∈ heights (placeFrom plan parent y left bottom serial row).nodes := by
  obtain ⟨⟨card, children⟩, rest, rfl⟩ := List.exists_cons_of_ne_nil h
  rw [placeFrom_cons]
  exact mem_heights_cons.2 (.inl (y_nodeOf hm ..))

/-- Below a node at height `y` the greatest height is that of a node, or `y` if there are none. -/
theorem greatest_placeBelow (hm : plan.mode = .precomputed) (parent : Text) (x y : Rat)
    (serial : Nat) (children : List (Tree Rat))
    (h : ∀ (parent : Option Text) (y left bottom : Rat) (serial : Nat), y ≤ bottom →
      IsGreatest
        (insert bottom (heights (placeFrom plan parent y left bottom serial children).nodes))
        (placeFrom plan parent y left bottom serial children).bottom) :
    (placeBelow plan parent x y serial children).bottom ∈
        insert y (heights (placeBelow plan parent x y serial children).nodes) ∧
      ∀ z ∈ heights (placeBelow plan parent x y serial children).nodes,
        z ≤ (placeBelow plan parent x y serial children).bottom := by
  by_cases hne : children = []
  · subst hne
    rw [placeBelow]
    exact ⟨.inl rfl, fun z hz => by simp [heights] at hz⟩
  · rw [bottom_placeBelow _ _ _ _ _ hne, nodes_placeBelow, placeRow]
    obtain ⟨hmem, hupper⟩ := h (some parent) (y + plan.config.nodeHeight)
      (x - Scalar.half (rowWidth plan.config.siblingGap children)) _ serial le_rfl
    refine ⟨.inr ?_, fun z hz => hupper (.inr hz)⟩
    rcases hmem with e | hmem
    · rw [e]
      exact mem_heights_placeFrom hm _ _ _ _ _ hne
    · exact hmem

theorem isGreatest_bottom_placeFrom (hm : plan.mode = .precomputed) (parent : Option Text)
    {y bottom : Rat} (hy : y ≤ bottom) (left : Rat) (serial : Nat) (row : List (Tree Rat)) :
    IsGreatest (insert bottom (heights (placeFrom plan parent y left bottom serial row).nodes))
      (placeFrom plan parent y left bottom serial row).bottom := by
  induction row using row_induction generalizing parent y left bottom serial with
  | nil => simp [heights]
  | cons card children rest ihc ihr =>
    obtain ⟨hbmem, hbupper⟩ := greatest_placeBelow hm (plan.idOf serial)
      (left + Scalar.half card.width) y (serial + 1) children
      fun parent y left bottom serial hy => ihc parent hy left serial
    rw [placeFrom_cons]
    simp only [Scalar.larger_rat]
    generalize placeBelow plan (plan.idOf serial) (left + Scalar.half card.width) y (serial + 1)
      children = below at hbmem hbupper ⊢
    obtain ⟨hmem, hupper⟩ := ihr parent (hy.trans (le_max_left bottom below.bottom))
      (left + (card.width + plan.config.siblingGap)) below.next
    -- the rest of the row is given the greatest height so far, so it reports no less than that
    have hstart := hupper (Set.mem_insert _ _)
    constructor
    · rcases hmem with e | hmem
      · rw [e]
        rcases max_choice bottom below.bottom with e' | e' <;> rw [e']
        · exact .inl rfl
        · rcases hbmem with e'' | hbmem
          · exact .inr (mem_heights_cons.2 (.inl ((y_nodeOf hm ..).trans e''.symm)))
          · exact .inr (mem_heights_cons.2 (.inr (mem_heights_append.2 (.inl hbmem))))
      · exact .inr (mem_heights_cons.2 (.inr (mem_heights_append.2 (.inr hmem))))
    · rintro z (rfl | hz)
      · exact (le_max_left _ _).trans hstart
      rcases mem_heights_cons.1 hz with rfl | hz
      · rw [y_nodeOf hm]
        exact hy.trans ((le_max_left _ _).trans hstart)
      rcases mem_heights_append.1 hz with hz | hz
      · exact (hbupper z hz).trans ((le_max_right _ _).trans hstart)
      · exact hupper (.inr hz)

end Greatest

/-! ## Rows that go down -/

theorem heightOf_pos {row : List (Tree Rat)} (h : row ≠ []) : 1 ≤ heightOf row := by
  obtain ⟨⟨card, children⟩, rest, rfl⟩ := List.exists_cons_of_ne_nil h
  rw [heightOf, height]
  omega

/-- The lower of two rows, so many rows below the first. -/
theorem max_add_mul {step : Rat} (h : 0 ≤ step) (y : Rat) (m n : Nat) :
    max (y + m * step) (y + n * step) = y + (max m n : Nat) * step := by
  rw [max_add_add_left, ← max_mul_of_nonneg _ _ h, Nat.cast_max]

/-- A row that goes down reaches as far below its start as its trees are high. -/
theorem bottom_placeFrom_of_nonneg (plan : Plan Rat) (hh : 0 ≤ plan.config.nodeHeight)
    (parent : Option Text) {y bottom : Rat} (hy : y ≤ bottom) (left : Rat) (serial : Nat)
    (row : List (Tree Rat)) :
    (placeFrom plan parent y left bottom serial row).bottom =
      max bottom (y + (heightOf row - 1 : Nat) * plan.config.nodeHeight) := by
  induction row using row_induction generalizing parent y left bottom serial with
  | nil => simp [heightOf, hy]
  | cons card children rest ihc ihr =>
    have hbelow (x : Rat) :
        (placeBelow plan (plan.idOf serial) x y (serial + 1) children).bottom =
          y + heightOf children * plan.config.nodeHeight := by
      by_cases hne : children = []
      · rw [hne, bottom_placeBelow_nil]
        simp [heightOf]
      · obtain ⟨k, hk⟩ := Nat.exists_eq_add_of_le (heightOf_pos hne)
        rw [bottom_placeBelow _ _ _ _ _ hne, placeRow, ihc _ le_rfl, hk, Nat.add_sub_cancel_left]
        have hle : 0 ≤ (k : Rat) * plan.config.nodeHeight := by positivity
        rw [max_eq_right (by linarith)]
        push_cast
        ring
    have hrows : max (heightOf children) (heightOf rest - 1) =
        heightOf (.node card children :: rest) - 1 := by
      rw [heightOf, height]
      omega
    rw [placeFrom_cons]
    simp only [Scalar.larger_rat, hbelow]
    rw [ihr _ (hy.trans (le_max_left _ _)), max_assoc, max_add_mul hh, hrows]

/-- The depth that placing a row reports is the greatest among its start and the heights of its
nodes. For rows that go down it is the start of the lowest row. Where the places are deferred the
same depth is reported, and all nodes are at the origin. -/
theorem bottom_reported (config : LayoutConfig Rat) (stem : Text) (parent : Option Text)
    (center y : Rat) (serial : Nat) (row : List (Tree Rat)) :
    let placed := placeRow ⟨config, .precomputed, stem⟩ parent center y serial row
    let deferred := placeRow ⟨config, .deferred, stem⟩ parent center y serial row
    IsGreatest (insert y {z | ∃ n ∈ placed.nodes, n.position.y = z}) placed.bottom ∧
      (row = [] → placed.bottom = y) ∧
      (0 ≤ config.nodeHeight → row ≠ [] →
        placed.bottom = y + ((heightOf row : Rat) - 1) * config.nodeHeight) ∧
      deferred.bottom = placed.bottom ∧ ∀ n ∈ deferred.nodes, n.position = .origin := by
  intro placed deferred
  have hdeferred : deferred.bottom = placed.bottom :=
    bottom_placeFrom_congr ⟨config, .deferred, stem⟩ ⟨config, .precomputed, stem⟩ rfl ..
  refine ⟨isGreatest_bottom_placeFrom rfl parent le_rfl _ serial row, ?_, fun hh hne => ?_,
    hdeferred, fun n hn => position_of_mem_placeFrom rfl hn⟩
  · rintro rfl
    simp [placed, placeRow]
  · have hbottom : placed.bottom =
        max y (y + (heightOf row - 1 : Nat) * config.nodeHeight) :=
      bottom_placeFrom_of_nonneg ⟨config, .precomputed, stem⟩ hh parent le_rfl _ serial row
    have hle : 0 ≤ ((heightOf row - 1 : Nat) : Rat) * config.nodeHeight := by positivity
    rw [hbottom, max_eq_right (by linarith), Nat.cast_sub (heightOf_pos hne), Nat.cast_one]

/-- A tree with a tree below it, beside one with none. -/
def unevenRow : List (Tree Rat) :=
  [.node { kind := .field, data := { name := "a" }, width := 250 }
    [.node { kind := .field, data := { name := "b" }, width := 200 } []],
    .node { kind := .field, data := { name := "c" }, width := 200 } []]

theorem bottom_reported_unevenRow :
    0 ≤ (LayoutConfig.standard Rat).nodeHeight ∧ unevenRow ≠ [] ∧
      (placeRow ⟨.standard Rat, .precomputed, "node"⟩ none 0 100 0 unevenRow).bottom = 220 ∧
      (placeRow ⟨.standard Rat, .deferred, "node"⟩ none 0 100 0 unevenRow).bottom = 220 := by
  have hh : 0 ≤ (LayoutConfig.standard Rat).nodeHeight := by decide
  have hne : unevenRow ≠ [] := List.cons_ne_nil _ _
  obtain ⟨-, -, hdown, hdeferred, -⟩ :=
    bottom_reported (.standard Rat) "node" none 0 100 0 unevenRow
  have hbottom := hdown hh hne
  have hheight : heightOf unevenRow = 2 := rfl
  have hstep : (LayoutConfig.standard Rat).nodeHeight = 120 := rfl
  rw [hheight, hstep] at hbottom
  norm_num at hbottom
  exact ⟨hh, hne, hbottom, hdeferred.trans hbottom⟩

end Tree

end QueryDiagram
