import Mathlib
import QueryDiagram.Proofs.Layout.Rational
import QueryDiagram.Proofs.Tree.Level
import QueryDiagram.Proofs.Tree.Numbering

/-!
# Boxes of placed trees

Around every placed node lies a box of the width of its tree. Since a tree that is built is at
least as wide as the row of its children with a gap beside each (`fits_of_built`), a row of
children keeps half a gap from both sides of the box above it. So the boxes below a node lie
inside its box, and two boxes at the same height are apart by as many gaps as they are levels below
the row in which they separate (`apart_boxesFrom`).
-/

namespace QueryDiagram

open GraphQL

namespace Tree

/-- The extent of a node from side to side. -/
structure Box where
  left : Rat
  right : Rat

namespace Box

/-- The first box lies inside the second. -/
def Within (b c : Box) : Prop := c.left ≤ b.left ∧ b.right ≤ c.right

/-- One box ends at least so far before the other begins. -/
def Apart (d : Rat) (b c : Box) : Prop := b.right + d ≤ c.left ∨ c.right + d ≤ b.left

theorem Apart.symm {d : Rat} {b c : Box} (h : Apart d b c) : Apart d c b := Or.symm h

theorem Apart.mono {d d' : Rat} {b c : Box} (h : Apart d b c) (hd : d' ≤ d) : Apart d' b c := by
  rcases h with h | h
  · exact .inl (by linarith)
  · exact .inr (by linarith)

end Box

/-- The box around a placed node of a tree. -/
def boxOf (n : Node Rat) (t : Tree Rat) : Box where
  left := n.position.x - t.width / 2
  right := n.position.x + t.width / 2

/-- The boxes of a row whose nodes are placed, with their addresses. -/
def boxes (nodes : List (Node Rat)) (row : List (Tree Rat)) : List (List Nat × Box) :=
  (addressesFrom 0 row).zip (List.zipWith boxOf nodes (subtreesOf row))

/-! ## Boxes by recursion -/

/-- The boxes of a row that begins at `left` with the tree of a place. -/
def boxesFrom (gap : Rat) (place : Nat) (left : Rat) : List (Tree Rat) → List (List Nat × Box)
  | [] => []
  | .node card children :: rest =>
    ([place], ⟨left, left + card.width⟩) ::
      ((boxesFrom gap 0 (left + card.width / 2 - rowWidth gap children / 2) children).map
          (fun b => (place :: b.1, b.2)) ++
        boxesFrom gap (place + 1) (left + (card.width + gap)) rest)

theorem zip_boxOf_placeFrom (plan : Plan Rat) (hm : plan.mode = .precomputed)
    (parent : Option Text) (y left bottom : Rat) (serial place : Nat) (row : List (Tree Rat)) :
    (addressesFrom place row).zip
        (List.zipWith boxOf (placeFrom plan parent y left bottom serial row).nodes
          (subtreesOf row)) =
      boxesFrom plan.config.siblingGap place left row := by
  induction row using row_induction generalizing parent y left bottom serial place with
  | nil => simp [boxesFrom]
  | cons card children rest ihc ihr =>
    have hroot : boxOf (nodeOf plan serial (left + Scalar.half card.width) y card)
        (.node card children) = ⟨left, left + card.width⟩ := by
      simp only [boxOf, nodeOf, Plan.position, hm, Tree.width, Tree.card, Scalar.half_rat]
      congr 1 <;> linarith
    simp only [placeFrom_cons, nodes_placeBelow, placeRow, addressesFrom_cons, subtreesOf_cons,
      List.zipWith_cons_cons, List.zip_cons_cons, boxesFrom, hroot]
    rw [List.zipWith_append (by simp [length_nodes_placeFrom]),
      List.zip_append (by simp [length_nodes_placeFrom, length_addressesFrom]), ihr,
      List.zip_map_left, ihc]
    rfl

theorem boxes_placeRow (plan : Plan Rat) (hm : plan.mode = .precomputed) (parent : Option Text)
    (center y : Rat) (serial : Nat) (row : List (Tree Rat)) :
    boxes (placeRow plan parent center y serial row).nodes row =
      boxesFrom plan.config.siblingGap 0
        (center - rowWidth plan.config.siblingGap row / 2) row :=
  zip_boxOf_placeFrom plan hm parent y _ y serial 0 row

theorem map_fst_boxesFrom (gap : Rat) (place : Nat) (left : Rat) (row : List (Tree Rat)) :
    (boxesFrom gap place left row).map Prod.fst = addressesFrom place row := by
  induction row using row_induction generalizing place left with
  | nil => simp [boxesFrom]
  | cons card children rest ihc ihr =>
    simp [boxesFrom, ihr, ← ihc 0 (left + card.width / 2 - rowWidth gap children / 2)]

/-! ## Trees with room for their children -/

/-- The tree is wide enough for the row of its children with a gap beside each. -/
structure Fits (gap : Rat) (t : Tree Rat) : Prop where
  width_nonneg : 0 ≤ t.width
  children_le : (slotWidths gap t.children).sum ≤ t.width

/-- Every tree that is built has room for its children. -/
theorem fits_of_built {config : LayoutConfig Rat} (hmin : 0 ≤ config.minNodeWidth)
    {fragments : Fragments} {expanding : List Text} {selections : List Selection}
    {row : List (Tree Rat)}
    (h : (ofSelections config fragments expanding selections).outcome = .ok row) :
    ∀ t ∈ subtreesOf row, Fits config.siblingGap t := by
  have above (children : List (Tree Rat)) :
      (slotWidths config.siblingGap children).sum ≤
        Scalar.larger config.minNodeWidth (totalWidth config children) := by
    rw [Scalar.larger_rat, totalWidth_rat]
    exact (le_max_left _ _).trans (le_max_right _ _)
  have wide (x : Rat) : 0 ≤ Scalar.larger config.minNodeWidth x := by
    rw [Scalar.larger_rat]
    exact hmin.trans (le_max_left _ _)
  refine forall_subtreesOf_of_built ?_ ?_ ?_ ?_ h
  · exact fun fields arguments _ => ⟨wide _, wide _⟩
  · exact fun f arguments children => ⟨wide _, above children⟩
  · exact fun name label => ⟨hmin, hmin⟩
  · exact fun name children => ⟨wide _, above children⟩

theorem sum_slotWidths_nonneg {gap : Rat} (hgap : 0 ≤ gap) {row : List (Tree Rat)}
    (h : ∀ t ∈ row, 0 ≤ t.width) : 0 ≤ (slotWidths gap row).sum := by
  induction row with
  | nil => exact le_rfl
  | cons t ts ih =>
    have ht := h t List.mem_cons_self
    have hts := ih fun u hu => h u (List.mem_cons_of_mem _ hu)
    rw [slotWidths_cons_rat, List.sum_cons]
    linarith

/-! ## Boxes keep their distance -/

/-- The box keeps half a gap for each of `n` levels from both ends of an interval. -/
def Box.Inset (gap lo hi : Rat) (n : Nat) (b : Box) : Prop :=
  lo + n * (gap / 2) ≤ b.left ∧ b.right + n * (gap / 2) ≤ hi

/-- What is below a node keeps from the sides of its box, if the row of its children keeps from
its own ends. -/
theorem inset_below {gap left : Rat} {card : Card Rat} {children : List (Tree Rat)}
    (hfit : Fits gap (.node card children))
    (h : ∀ b ∈ boxesFrom gap 0 (left + card.width / 2 - rowWidth gap children / 2) children,
      b.2.Inset gap (left + card.width / 2 - rowWidth gap children / 2)
        (left + card.width / 2 - rowWidth gap children / 2 +
          (slotWidths gap children).sum - gap) b.1.tail.length)
    {b : List Nat × Box}
    (hb : b ∈ boxesFrom gap 0 (left + card.width / 2 - rowWidth gap children / 2) children) :
    b.2.Inset gap left (left + card.width) b.1.length := by
  have hne : children ≠ [] := by
    rintro rfl
    simp [boxesFrom] at hb
  have hw : (slotWidths gap children).sum ≤ card.width := hfit.children_le
  obtain ⟨i, s, hs, -⟩ := exists_cons_of_mem_addressesFrom
    (map_fst_boxesFrom gap 0 _ children ▸ List.mem_map_of_mem hb)
  obtain ⟨hl, hr⟩ := h b hb
  rw [rowWidth_rat hne] at hl hr
  rw [hs, List.tail_cons] at hl hr
  rw [Box.Inset, hs, List.length_cons, Nat.cast_succ]
  constructor <;> linarith

variable {gap : Rat} {row : List (Tree Rat)}

/-- The boxes of a row keep half a gap per level from the ends of the row. -/
theorem inset_boxesFrom (hgap : 0 ≤ gap) (hfit : ∀ t ∈ subtreesOf row, Fits gap t) {place : Nat}
    {left : Rat} {b : List Nat × Box} (hb : b ∈ boxesFrom gap place left row) :
    b.2.Inset gap left (left + (slotWidths gap row).sum - gap) b.1.tail.length := by
  induction row using row_induction generalizing place left b with
  | nil => simp [boxesFrom] at hb
  | cons card children rest ihc ihr =>
    simp only [subtreesOf_cons, List.mem_cons, List.mem_append] at hfit
    have hroot := hfit _ (.inl rfl)
    have hrest : 0 ≤ (slotWidths gap rest).sum := by
      refine sum_slotWidths_nonneg hgap fun t ht => (hfit t (.inr (.inr ?_))).width_nonneg
      exact mem_subtreesOf.2 ⟨t, ht, by cases t; simp [subtrees]⟩
    have hsum : (slotWidths gap (.node card children :: rest)).sum =
        card.width + gap + (slotWidths gap rest).sum := rfl
    have hw : 0 ≤ card.width := hroot.width_nonneg
    rw [hsum]
    simp only [boxesFrom, List.mem_cons, List.mem_append, List.mem_map] at hb
    rcases hb with rfl | ⟨b, hb, rfl⟩ | hb
    · constructor
      · simp
      · simp
        linarith
    · obtain ⟨hl, hr⟩ := inset_below hroot
        (fun b hb => ihc (fun t ht => hfit t (.inr (.inl ht))) hb) hb
      rw [List.tail_cons]
      exact ⟨hl, by linarith⟩
    · obtain ⟨hl, hr⟩ := ihr (fun t ht => hfit t (.inr (.inr ht))) hb
      constructor <;> linarith

theorem exists_cons_of_mem_boxesFrom {place : Nat} {left : Rat} {b : List Nat × Box}
    (hb : b ∈ boxesFrom gap place left row) : ∃ i s, b.1 = i :: s ∧ place ≤ i :=
  exists_cons_of_mem_addressesFrom
    (map_fst_boxesFrom gap place left row ▸ List.mem_map_of_mem hb)

section First

variable {card : Card Rat} {children rest : List (Tree Rat)} {place : Nat} {left : Rat}

/-- The boxes of the first tree of a row lie inside its own and keep half a gap per level from its
sides; their addresses begin with its place. -/
theorem inset_first (hgap : 0 ≤ gap)
    (hfit : ∀ t ∈ subtreesOf (.node card children :: rest), Fits gap t) {a : List Nat} {b : Box}
    (hb : (a, b) = ([], ⟨left, left + card.width⟩) ∨
      (a, b) ∈ boxesFrom gap 0 (left + card.width / 2 - rowWidth gap children / 2) children) :
    b.Inset gap left (left + card.width) a.length := by
  simp only [subtreesOf_cons, List.mem_cons, List.mem_append] at hfit
  rcases hb with e | hb
  · obtain ⟨rfl, rfl⟩ := Prod.mk.inj e
    constructor <;> simp
  · exact inset_below (hfit _ (.inl rfl))
      (fun b hb => inset_boxesFrom hgap (fun t ht => hfit t (.inr (.inl ht))) hb) hb

/-- A box belongs to the first tree of a row or to the others. -/
theorem mem_boxesFrom_cons {b : List Nat × Box} :
    b ∈ boxesFrom gap place left (.node card children :: rest) ↔
      (∃ a, b.1 = place :: a ∧ ((a, b.2) = ([], ⟨left, left + card.width⟩) ∨
        (a, b.2) ∈ boxesFrom gap 0 (left + card.width / 2 - rowWidth gap children / 2)
          children)) ∨
        b ∈ boxesFrom gap (place + 1) (left + (card.width + gap)) rest := by
  obtain ⟨a, b⟩ := b
  simp only [boxesFrom, List.mem_cons, List.mem_append, List.mem_map, ← or_assoc]
  refine or_congr_left ⟨?_, ?_⟩
  · rintro (e | ⟨⟨a', b'⟩, h, e⟩)
    · obtain ⟨rfl, rfl⟩ := Prod.mk.inj e
      exact ⟨[], rfl, .inl rfl⟩
    · obtain ⟨rfl, rfl⟩ := Prod.mk.inj e
      exact ⟨a', rfl, .inr h⟩
  · rintro ⟨a', rfl, e | h⟩
    · obtain ⟨rfl, rfl⟩ := Prod.mk.inj e
      exact .inl rfl
    · exact .inr ⟨(a', b), h, rfl⟩

/-- The boxes of the first tree come before those of the other trees at the same height. -/
theorem right_add_le_left (hgap : 0 ≤ gap)
    (hfit : ∀ t ∈ subtreesOf (.node card children :: rest), Fits gap t) {a s : List Nat}
    {i : Nat} {b c : Box}
    (hb : (a, b) = ([], ⟨left, left + card.width⟩) ∨
      (a, b) ∈ boxesFrom gap 0 (left + card.width / 2 - rowWidth gap children / 2) children)
    (hc : (i :: s, c) ∈ boxesFrom gap (place + 1) (left + (card.width + gap)) rest)
    (hlen : s.length = a.length) : b.right + (a.length + 1 : Nat) * gap ≤ c.left := by
  obtain ⟨-, hr⟩ := inset_first hgap hfit hb
  simp only [subtreesOf_cons, List.mem_cons, List.mem_append] at hfit
  obtain ⟨hl, -⟩ := inset_boxesFrom hgap (fun t ht => hfit t (.inr (.inr ht))) hc
  rw [List.tail_cons, hlen] at hl
  push_cast
  linarith

end First

/-- The box of an address lies inside the box of every address that it continues. -/
theorem within_boxesFrom (hgap : 0 ≤ gap) (hfit : ∀ t ∈ subtreesOf row, Fits gap t) {place : Nat}
    {left : Rat} {b c : List Nat × Box} (hb : b ∈ boxesFrom gap place left row)
    (hc : c ∈ boxesFrom gap place left row) (hp : b.1 <+: c.1) : c.2.Within b.2 := by
  induction row using row_induction generalizing place left b c with
  | nil => simp [boxesFrom] at hb
  | cons card children rest ihc ihr =>
    have hfit' := hfit
    simp only [subtreesOf_cons, List.mem_cons, List.mem_append] at hfit'
    rcases mem_boxesFrom_cons.1 hb with ⟨a, ha, hb⟩ | hb <;>
      rcases mem_boxesFrom_cons.1 hc with ⟨a', ha', hc⟩ | hc
    · rw [ha, ha', List.cons_prefix_cons] at hp
      rcases hb with e | hb
      · -- the box of the tree itself
        obtain ⟨rfl, hb⟩ := Prod.mk.inj e
        obtain ⟨hl, hr⟩ := inset_first hgap hfit hc
        have hn : (0 : Rat) ≤ a'.length * (gap / 2) := by positivity
        rw [hb]
        exact ⟨by linarith, by linarith⟩
      · rcases hc with e | hc
        · obtain ⟨rfl, -⟩ := Prod.mk.inj e
          obtain ⟨i, s, h, -⟩ := exists_cons_of_mem_boxesFrom hb
          obtain rfl : a = i :: s := h
          simp at hp
        · exact ihc (b := (a, b.2)) (c := (a', c.2)) (fun t ht => hfit' t (.inr (.inl ht))) hb hc
            hp.2
    · obtain ⟨i, s, h, hi⟩ := exists_cons_of_mem_boxesFrom hc
      rw [ha, h, List.cons_prefix_cons] at hp
      omega
    · obtain ⟨i, s, h, hi⟩ := exists_cons_of_mem_boxesFrom hb
      rw [ha', h, List.cons_prefix_cons] at hp
      omega
    · exact ihr (fun t ht => hfit' t (.inr (.inr ht))) hb hc hp

/-- Two addresses of the same length that separate so many levels above their ends. -/
inductive Separate : Nat → List Nat → List Nat → Prop
  | beside {i j s t} (hne : i ≠ j) (hlen : s.length = t.length) :
      Separate (s.length + 1) (i :: s) (j :: t)
  | under {d i s t} (h : Separate d s t) : Separate d (i :: s) (i :: t)

theorem Separate.pos {d : Nat} {a b : List Nat} (h : Separate d a b) : 1 ≤ d := by
  induction h with
  | beside hne hlen => omega
  | under h ih => exact ih

theorem exists_separate {a b : List Nat} (hlen : a.length = b.length) (hne : a ≠ b) :
    ∃ d, Separate d a b := by
  induction a generalizing b with
  | nil => cases b <;> simp_all
  | cons i s ih =>
    cases b with
    | nil => simp at hlen
    | cons j t =>
      by_cases hij : i = j
      · subst hij
        obtain ⟨d, h⟩ := ih (Nat.succ.inj hlen) fun e => hne (e ▸ rfl)
        exact ⟨d, .under h⟩
      · exact ⟨_, .beside hij (Nat.succ.inj hlen)⟩

/-- Boxes are apart by a gap for every level below the row in which their addresses separate. -/
theorem apart_boxesFrom (hgap : 0 ≤ gap) (hfit : ∀ t ∈ subtreesOf row, Fits gap t) {place : Nat}
    {left : Rat} {b c : List Nat × Box} (hb : b ∈ boxesFrom gap place left row)
    (hc : c ∈ boxesFrom gap place left row) {d : Nat} (hs : Separate d b.1 c.1) :
    b.2.Apart (d * gap) c.2 := by
  induction row using row_induction generalizing place left b c with
  | nil => simp [boxesFrom] at hb
  | cons card children rest ihc ihr =>
    have hfit' := hfit
    simp only [subtreesOf_cons, List.mem_cons, List.mem_append] at hfit'
    rcases mem_boxesFrom_cons.1 hb with ⟨a, ha, hb⟩ | hb <;>
      rcases mem_boxesFrom_cons.1 hc with ⟨a', ha', hc⟩ | hc
    · rw [ha, ha'] at hs
      cases hs with
      | beside hne _ => exact absurd rfl hne
      | under hs =>
        rcases hb with e | hb
        · obtain ⟨rfl, -⟩ := Prod.mk.inj e
          cases hs
        · rcases hc with e | hc
          · obtain ⟨rfl, -⟩ := Prod.mk.inj e
            cases hs
          · exact ihc (b := (a, b.2)) (c := (a', c.2)) (fun t ht => hfit' t (.inr (.inl ht)))
              hb hc hs
    · obtain ⟨i, s, h, hi⟩ := exists_cons_of_mem_boxesFrom hc
      obtain ⟨_, c⟩ := c
      obtain rfl : _ = i :: s := h
      rw [ha] at hs
      cases hs with
      | beside _ hlen => exact .inl (right_add_le_left hgap hfit hb hc hlen.symm)
      | under _ => omega
    · obtain ⟨i, s, h, hi⟩ := exists_cons_of_mem_boxesFrom hb
      obtain ⟨_, b⟩ := b
      obtain rfl : _ = i :: s := h
      rw [ha'] at hs
      cases hs with
      | beside _ hlen =>
        rw [hlen]
        exact .inr (right_add_le_left hgap hfit hc hb hlen)
      | under _ => omega
    · exact ihr (fun t ht => hfit' t (.inr (.inr ht))) hb hc hs

/-! ## Placed trees -/

/-- In a tree that is built and placed, every node has an address and a box of its own, the box of
a node lies inside those of all nodes above it, and two boxes at the same height are apart by a gap
for every level below the row in which the ways to them separate; so none overlap. -/
theorem boxes_apart {config : LayoutConfig Rat} (hgap : 0 ≤ config.siblingGap)
    (hmin : 0 ≤ config.minNodeWidth) {fragments : Fragments} {expanding : List Text}
    {selections : List Selection} {row : List (Tree Rat)}
    (h : (ofSelections config fragments expanding selections).outcome = .ok row) (stem : Text)
    (parent : Option Text) (center y : Rat) (serial : Nat) :
    let nodes := (placeRow ⟨config, .precomputed, stem⟩ parent center y serial row).nodes
    (boxes nodes row).length = nodes.length ∧ ((boxes nodes row).map Prod.fst).Nodup ∧
      ∀ b ∈ boxes nodes row, ∀ c ∈ boxes nodes row,
        (b.1 <+: c.1 → c.2.Within b.2) ∧
        (∀ d, Separate d b.1 c.1 → b.2.Apart (d * config.siblingGap) c.2) ∧
        (b.1.length = c.1.length → b.1 ≠ c.1 → b.2.Apart config.siblingGap c.2) := by
  intro nodes
  have hfit := fits_of_built hmin h
  have hboxes : boxes nodes row =
      boxesFrom config.siblingGap 0 (center - rowWidth config.siblingGap row / 2) row :=
    boxes_placeRow ⟨config, .precomputed, stem⟩ rfl parent center y serial row
  refine ⟨?_, ?_, ?_⟩
  · simp only [boxes, List.length_zip, List.length_zipWith, length_addressesFrom]
    have : nodes.length = (subtreesOf row).length := length_nodes_placeFrom _ _ _ _ _ _ _
    omega
  · rw [hboxes, map_fst_boxesFrom]
    exact nodup_addressesFrom 0 row
  · rw [hboxes]
    intro b hb c hc
    have hapart := fun d (hs : Separate d b.1 c.1) => apart_boxesFrom hgap hfit hb hc hs
    refine ⟨within_boxesFrom hgap hfit hb hc, hapart, fun hlen hne => ?_⟩
    obtain ⟨d, hs⟩ := exists_separate hlen hne
    have hd : (1 : Rat) ≤ d := by exact_mod_cast hs.pos
    exact (hapart d hs).mono (le_mul_of_one_le_left hgap hd)

/-- Two fields with a field below each. -/
def twoBranches : List Selection :=
  [.nested ⟨none, "a", []⟩ [.nested ⟨none, "b", []⟩ [.leaf ⟨none, "c", []⟩]],
    .nested ⟨none, "d", []⟩ [.leaf ⟨none, "e", []⟩, .spread "F"]]

theorem boxes_apart_twoBranches :
    ∃ row, (ofSelections (.standard Rat) [] [] twoBranches).outcome = .ok row ∧
      ∀ b ∈ boxes (placeRow ⟨.standard Rat, .precomputed, "node"⟩ none 0 0 0 row).nodes row,
        ∀ c ∈ boxes (placeRow ⟨.standard Rat, .precomputed, "node"⟩ none 0 0 0 row).nodes row,
          Separate 2 b.1 c.1 → b.2.Apart (2 * 50) c.2 := by
  obtain ⟨row, h⟩ : ∃ row, (ofSelections (.standard Rat) [] [] twoBranches).outcome = .ok row :=
    ⟨_, by cbv⟩
  have hgap : 0 ≤ (LayoutConfig.standard Rat).siblingGap := by decide
  have hmin : 0 ≤ (LayoutConfig.standard Rat).minNodeWidth := by decide
  obtain ⟨-, -, hapart⟩ := boxes_apart hgap hmin h "node" none 0 0 0
  exact ⟨row, h, fun b hb c hc hs => (hapart b hb c hc).2.1 2 hs⟩

end Tree

end QueryDiagram
