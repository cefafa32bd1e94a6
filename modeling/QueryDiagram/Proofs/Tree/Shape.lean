import QueryDiagram.Proofs.Tree.Level
import QueryDiagram.Proofs.Tree.Numbering

/-!
# Trees without widths

Over the numbers of which there is only one, widths and places say nothing. Forgetting them
commutes with building the tree of a selection set (`shapes_ofSelections`) and with placing a row
(`shape_placeFrom`), so neither the settings nor the mode decide what is built.
-/

namespace QueryDiagram

open GraphQL

/-! ## Layouts that say nothing -/

instance : Scalar Unit where
  add _ _ := ()
  sub _ _ := ()
  mul _ _ := ()
  div _ _ := ()
  ofNat _ := ()
  less _ _ := false

/-- The only settings without any numbers. -/
def LayoutConfig.blank : LayoutConfig Unit := ⟨(), (), (), (), (), (), (), (), (), ()⟩

/-- The plan that gives the same identifiers and no places. -/
def Plan.blank {α : Type} (p : Plan α) : Plan Unit where
  config := .blank
  mode := .deferred
  stem := p.stem

@[simp]
theorem Plan.idOf_blank {α : Type} [Scalar α] (p : Plan α) (serial : Nat) :
    p.blank.idOf serial = p.idOf serial := rfl

/-- The node without its place. -/
def Node.shape {α : Type} (n : Node α) : Node Unit where
  id := n.id
  kind := n.kind
  label := n.label
  position := ⟨(), ()⟩
  data := n.data

/-- What is placed, without the places. -/
def Placed.shape {α : Type} (p : Placed α) : Placed Unit where
  nodes := p.nodes.map Node.shape
  edges := p.edges
  next := p.next
  bottom := ()

/-- The card without its width. -/
def Card.shape {α : Type} (c : Card α) : Card Unit where
  kind := c.kind
  data := c.data
  width := ()
  label := c.label

namespace Tree

variable {α : Type}

mutual

/-- The tree without its widths. -/
def shape : Tree α → Tree Unit
  | node card children => node card.shape (shapes children)

/-- The trees of a row without their widths. -/
def shapes : List (Tree α) → List (Tree Unit)
  | [] => []
  | t :: ts => t.shape :: shapes ts

end

@[simp]
theorem shapes_nil : shapes ([] : List (Tree α)) = [] := by rw [shapes]

@[simp]
theorem shapes_cons (card : Card α) (children rest : List (Tree α)) :
    shapes (.node card children :: rest) =
      .node card.shape (shapes children) :: shapes rest := by
  rw [shapes, shape]

theorem shapes_eq_map (row : List (Tree α)) : shapes row = row.map shape := by
  induction row with
  | nil => rw [shapes_nil, List.map_nil]
  | cons t ts ih => rw [shapes, ih, List.map_cons]

variable [Scalar α]

/-! ## Building -/

section Build

variable (config : LayoutConfig α) (fragments : Fragments)

@[simp]
theorem shape_fieldNode (f : Field) (arguments : Record Json) (children : List (Tree α)) :
    (fieldNode config f arguments children).shape =
      fieldNode .blank f arguments (shapes children) := by
  rw [fieldNode, shape]
  rfl

@[simp]
theorem shape_fragmentNode (name : Text) (children : List (Tree α)) :
    (fragmentNode config name children).shape = fragmentNode .blank name (shapes children) := by
  rw [fragmentNode, shape]
  rfl

omit [Scalar α] in
@[simp]
theorem shape_closedSpread (name label : Text) :
    (closedSpread config name label).shape = closedSpread .blank name label := by
  rw [closedSpread, shape, shapes_nil]
  rfl

theorem shapes_leafGroup (fields : List Field) :
    (leafGroup config fields).map shapes = leafGroup .blank fields := by
  unfold leafGroup
  split_ifs with hf
  · simp [Except.map]
  · cases leafArguments fields with
    | error e => rfl
    | ok pairs => simp [bind, Except.bind, Except.map, pure, Except.pure, Card.shape]

theorem shape_fieldTree (build : List Selection → Logged ConversionError (List (Tree α)))
    (field : Field × List Selection) :
    shape <$> fieldTree config build field =
      fieldTree .blank (fun body => shapes <$> build body) field := by
  simp [fieldTree]

theorem shape_inclusionTree (build : Builder α) (expanding : List Text) (i : Inclusion) :
    shape <$> inclusionTree config fragments build expanding i =
      inclusionTree .blank fragments (fun e s => shapes <$> build e s) expanding i := by
  cases i with
  | spread name =>
    cases hf : Record.get? fragments name with
    | none =>
      rw [inclusionTree_of_unknown hf, inclusionTree_of_unknown hf]
      simp
    | some fragment =>
      by_cases hn : name ∈ expanding
      · rw [inclusionTree_of_mem hf hn, inclusionTree_of_mem hf hn]
        simp
      · rw [inclusionTree_of_not_mem hf hn, inclusionTree_of_not_mem hf hn]
        simp
  | inline condition body => simp [inclusionTree]

/-- One step of the builder, if widths are forgotten before or after it. -/
theorem shapes_level (build : Builder α) (expanding : List Text) (selections : List Selection) :
    shapes <$> level config fragments build expanding selections =
      level .blank fragments (fun e s => shapes <$> build e s) expanding selections := by
  have hg : Logged.ofExcept (leafGroup LayoutConfig.blank (leaves selections)) =
      shapes <$> Logged.ofExcept (leafGroup config (leaves selections)) :=
    Logged.ext (by simp) (by simp [shapes_leafGroup])
  have hf : List.map shape <$> (nestedIn selections).mapM (fieldTree config (build expanding)) =
      (nestedIn selections).mapM (fieldTree .blank fun s => shapes <$> build expanding s) :=
    Logged.map_mapM_of_forall fun f _ => shape_fieldTree config (build expanding) f
  have hi : List.map shape <$> (inclusionsIn selections).mapM
        (inclusionTree config fragments build expanding) =
      (inclusionsIn selections).mapM
        (inclusionTree .blank fragments (fun e s => shapes <$> build e s) expanding) :=
    Logged.map_mapM_of_forall fun i _ => shape_inclusionTree config fragments build expanding i
  unfold level
  rw [hg, ← hf, ← hi]
  simp [shapes_eq_map]

/-- Forgetting the widths of a row that is built gives the row built without widths. -/
theorem shapes_ofSelections (expanding : List Text) (selections : List Selection) :
    shapes <$> ofSelections config fragments expanding selections =
      ofSelections .blank fragments expanding selections := by
  have hlevel : ∀ e s, shapes <$> ofSelections config fragments e s =
      level .blank fragments (fun e s => shapes <$> ofSelections config fragments e s) e s := by
    intro e s
    rw [← shapes_level, ← ofSelections_eq_level]
  exact eq_ofSelections_of_eq_level hlevel expanding selections

end Build

/-! ## Placing -/

section Place

variable (plan : Plan α)

theorem shape_placeBelow (parent : Text) (x y : α) (serial : Nat) (children : List (Tree α))
    (h : ∀ parent y left bottom serial,
      (placeFrom plan parent y left bottom serial children).shape =
        placeFrom plan.blank parent () () () serial (shapes children)) :
    (placeBelow plan parent x y serial children).shape =
      placeBelow plan.blank parent () () serial (shapes children) := by
  cases children with
  | nil =>
    rw [placeBelow, shapes_nil, placeBelow]
    rfl
  | cons t ts =>
    rw [placeBelow, shapes, placeBelow]
    exact h _ _ _ _ _

/-- Placing a row and forgetting the places gives the row placed without places. -/
theorem shape_placeFrom (parent : Option Text) (y left bottom : α) (serial : Nat)
    (row : List (Tree α)) :
    (placeFrom plan parent y left bottom serial row).shape =
      placeFrom plan.blank parent () () () serial (shapes row) := by
  induction row using row_induction generalizing parent y left bottom serial with
  | nil => simp [Placed.shape]
  | cons card children rest ihc ihr =>
    have hb := shape_placeBelow plan (plan.idOf serial) (left + Scalar.half card.width) y
      (serial + 1) children ihc
    have hr := ihr parent y (left + (card.width + plan.config.siblingGap))
      (Scalar.larger bottom (placeBelow plan (plan.idOf serial)
        (left + Scalar.half card.width) y (serial + 1) children).bottom)
    simp only [shapes_cons, placeFrom_cons, Plan.idOf_blank, ← hb]
    simp only [Placed.shape, ← hr, List.map_cons, List.map_append]
    rfl

theorem shape_placeRow (parent : Option Text) (center y : α) (serial : Nat)
    (row : List (Tree α)) :
    (placeRow plan parent center y serial row).shape =
      placeRow plan.blank parent () () serial (shapes row) :=
  shape_placeFrom plan parent y _ y serial row

end Place

end Tree

end QueryDiagram
