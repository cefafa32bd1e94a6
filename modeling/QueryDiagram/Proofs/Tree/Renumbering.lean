import QueryDiagram.Proofs.Tree.Numbering

/-!
# Rows numbered from another number on

Placing a row from a later number on raises the numbers in the identifiers of its nodes and edges
by the same offset, and changes nothing else (`lowers_placeFrom`).
-/

namespace QueryDiagram

/-- The identifiers have the same stem, and numbers that differ by `offset`. -/
def Lowers (offset : Nat) (id id' : Text) : Prop :=
  ∃ (stem : Text) (n : Nat),
    id = stem ++ "-" ++ Text.ofNat (n + offset) ∧ id' = stem ++ "-" ++ Text.ofNat n

variable {α : Type}

theorem Plan.lowers_idOf (plan : Plan α) (offset n : Nat) :
    Lowers offset (plan.idOf (n + offset)) (plan.idOf n) := ⟨plan.stem, n, rfl, rfl⟩

/-- The nodes differ in the numbers of their identifiers and in nothing else. -/
structure Node.Lowers (offset : Nat) (n n' : Node α) : Prop where
  id : QueryDiagram.Lowers offset n.id n'.id
  rest : { n with id := n'.id } = n'

/-- The edges join nodes whose identifiers differ in their numbers, and are otherwise alike. -/
structure Edge.Lowers (offset : Nat) (e e' : Edge) : Prop where
  source : QueryDiagram.Lowers offset e.source e'.source
  target : QueryDiagram.Lowers offset e.target e'.target
  left : e = Edge.connect e.source e.target e.kind
  right : e' = Edge.connect e'.source e'.target e.kind

/-- What is placed differs in the numbers of identifiers and in nothing else. -/
structure Placed.Lowers (offset : Nat) (p p' : Placed α) : Prop where
  nodes : List.Forall₂ (Node.Lowers offset) p.nodes p'.nodes
  edges : List.Forall₂ (Edge.Lowers offset) p.edges p'.edges
  next : p.next = p'.next + offset
  bottom : p.bottom = p'.bottom

namespace Tree

variable [Scalar α] (plan : Plan α) {offset : Nat} {parent parent' : Text}

theorem lowers_placeBelow {children : List (Tree α)}
    (h : ∀ (y left bottom : α) (serial : Nat) {parent parent' : Text},
      Lowers offset parent parent' →
      (placeFrom plan (some parent) y left bottom (serial + offset) children).Lowers offset
        (placeFrom plan (some parent') y left bottom serial children))
    (hp : Lowers offset parent parent') (x y : α) (serial : Nat) :
    (placeBelow plan parent x y (serial + offset) children).Lowers offset
      (placeBelow plan parent' x y serial children) := by
  cases children with
  | nil =>
    rw [placeBelow, placeBelow]
    exact ⟨.nil, .nil, rfl, rfl⟩
  | cons t ts =>
    rw [placeBelow, placeBelow]
    exact h _ _ _ _ hp

theorem lowers_placeFrom (y left bottom : α) (serial : Nat)
    (hp : Lowers offset parent parent') (row : List (Tree α)) :
    (placeFrom plan (some parent) y left bottom (serial + offset) row).Lowers offset
      (placeFrom plan (some parent') y left bottom serial row) := by
  induction row using row_induction generalizing parent parent' y left bottom serial with
  | nil =>
    rw [placeFrom_nil, placeFrom_nil]
    exact ⟨.nil, .nil, rfl, rfl⟩
  | cons card children rest ihc ihr =>
    have hid := plan.lowers_idOf offset serial
    have hb := lowers_placeBelow plan
      (fun y left bottom serial _ _ hp => ihc y left bottom serial hp)
      hid (left + Scalar.half card.width) y (serial + 1)
    rw [show serial + 1 + offset = serial + offset + 1 by omega] at hb
    rw [placeFrom_cons, placeFrom_cons]
    dsimp only
    rw [hb.next, hb.bottom]
    generalize placeBelow plan (plan.idOf serial) (left + Scalar.half card.width) y (serial + 1)
      children = below at hb
    have hr := ihr y (left + (card.width + plan.config.siblingGap))
      (Scalar.larger bottom below.bottom) below.next hp
    exact ⟨.cons ⟨hid, rfl⟩ (List.rel_append hb.nodes hr.nodes),
      .cons ⟨hp, hid, rfl, rfl⟩ (List.rel_append hb.edges hr.edges), hr.next, hr.bottom⟩

end Tree

end QueryDiagram
