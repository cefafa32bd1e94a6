import QueryDiagram.Proofs.Diagram.Drawing
import QueryDiagram.Proofs.Diagram.Edits
import QueryDiagram.Proofs.Tree.Shape

/-!
# Diagrams without places

Forgetting the places of a diagram commutes with building it (`shape_build`) and with editing it
(`shape_patch`). Hence diagrams of one text agree in everything but places, however they are laid
out and edited.
-/

namespace QueryDiagram

open GraphQL

variable {α β : Type}

/-! ## Sheets and variables -/

namespace Sheet

/-- The sheet without places. -/
def shape (s : Sheet α) : Sheet Unit where
  nodes := s.nodes.map Node.shape
  edges := s.edges
  next := s.next

variable [Scalar α] (plan : Plan α) (fragments : Fragments)

omit [Scalar α] in
theorem shape_push (s : Sheet α) (n : Node α) : (s.push n).shape = s.shape.push n.shape := by
  simp [shape, push]

theorem shape_place (s : Sheet α) (parent : Option Text) (center y : α) (row : List (Tree α)) :
    (s.place plan parent center y row).shape =
      s.shape.place plan.blank parent () () (Tree.shapes row) := by
  rw [place, place, show s.shape.next = s.next from rfl, ← Tree.shape_placeRow plan parent center y]
  simp [shape, Placed.shape]

theorem shape_draw (s : Sheet α) (o : Operation) :
    shape <$> draw plan fragments s o = draw plan.blank fragments s.shape o := by
  have hrow := Tree.shapes_ofSelections plan.config fragments [] o.body
  rw [draw, draw, show plan.blank.config = .blank from rfl, ← hrow]
  simp only [map_bind, bind_map_left, map_pure, shape_place, shape_push]
  rfl

theorem shape_drawAll (s : Sheet α) (operations : List Operation) :
    shape <$> drawAll plan fragments s operations =
      drawAll plan.blank fragments s.shape operations := by
  induction operations generalizing s with
  | nil => simp [drawAll]
  | cons o os ih =>
    rw [drawAll, drawAll, ← shape_draw]
    simp only [map_bind, bind_map_left, ih]

end Sheet

theorem Variables.shape_nodesFrom [Scalar α] (plan : Plan α) (index : Nat)
    (values : Record Json) :
    (nodesFrom plan index values).map Node.shape = nodesFrom plan.blank index values := by
  induction values generalizing index with
  | nil => rfl
  | cons p rest ih =>
    rw [nodesFrom, nodesFrom, List.map_cons, ih]
    rfl

/-! ## Deferred places -/

section Deferred

variable [Scalar α] {plan : Plan α}

theorem Variables.position_of_mem_nodesFrom (h : plan.mode = .deferred) {index : Nat}
    {values : Record Json} {n : Node α} (hn : n ∈ nodesFrom plan index values) :
    n.position = .origin := by
  induction values generalizing index with
  | nil => simp [nodesFrom] at hn
  | cons p rest ih =>
    rcases List.mem_cons.1 hn with rfl | hn
    · exact Plan.position_of_deferred h _ _
    · exact ih hn

theorem Sheet.position_of_mem_drawAll (h : plan.mode = .deferred) {fragments : Fragments}
    {operations : List Operation} {s : Sheet α}
    (hs : (drawAll plan fragments .empty operations).outcome = .ok s) :
    ∀ n ∈ s.nodes, n.position = .origin := by
  refine drawAll_induction (motive := fun _ s => ∀ n ∈ s.nodes, n.position = .origin)
    (fun drawn s o s' ho ih n hn => ?_) [] hs (by simp [empty])
  obtain ⟨row, -, rfl⟩ := outcome_draw_eq_ok_iff.1 ho
  simp only [withRow, List.mem_append, List.mem_cons] at hn
  rcases hn with hn | rfl | hn
  · exact ih n hn
  · exact Plan.position_of_deferred h _ _
  · exact Tree.position_of_mem_placeFrom h hn

end Deferred

namespace Diagram

/-! ## Building -/

/-- The diagram without places. -/
def shape (d : Diagram α) : Diagram Unit where
  operationName := d.operationName
  variableValues := d.variableValues
  query := d.query
  document := d.document
  nodes := d.nodes.map Node.shape
  edges := d.edges
  layoutMode := .deferred

section Build

variable [Scalar α] (mode : LayoutMode) (config : LayoutConfig α)

theorem shape_sheet (plan : Plan α) (document : Document) :
    Sheet.shape <$> sheet plan document = sheet plan.blank document := by
  rw [sheet, sheet, map_bind]
  simp only [Sheet.shape_drawAll]
  rfl

theorem shape_ofRequest (r : Request) :
    shape <$> ofRequest mode config r = ofRequest .deferred .blank r := by
  have hplan : Plan.blank { config, mode } = { config := .blank, mode := .deferred } := rfl
  have hsheet := shape_sheet { config, mode } r.document
  have hvars := Variables.shape_nodesFrom { config, mode } 0 r.variableValues
  rw [hplan] at hsheet hvars
  rw [ofRequest, ofRequest, ← hsheet]
  simp only [map_bind, bind_map_left, map_pure, shape, Variables.nodes, List.map_append, hvars]
  rfl

/-- Building a diagram and forgetting its places is building it without places. -/
theorem shape_build (text : Text) :
    shape <$> build mode config text = build .deferred .blank text := by
  unfold build
  cases Request.read text with
  | error e => rfl
  | ok r => rw [← Logged.mapError_map, shape_ofRequest]

end Build

/-! ## Editing -/

theorem node?_shape (d : Diagram α) (id : Text) :
    d.shape.node? id = (d.node? id).map Node.shape := by
  rw [node?, node?, shape, List.find?_map]
  rfl

theorem shape_replace (d : Diagram α) (id : Text) (n : Node α) :
    (d.replace id n).shape = d.shape.replace id n.shape := by
  simp only [shape, replace, List.map_map]
  congr 1
  refine List.map_congr_left fun m _ => ?_
  simp only [Function.comp_apply, show m.shape.id = m.id from rfl]
  split_ifs <;> rfl

/-- Editing a diagram and forgetting its places is editing it without places. -/
theorem shape_patch (d : Diagram α) (id : Text) (p : Patch) :
    (d.patch id p).map shape = d.shape.patch id p := by
  unfold patch
  cases p.check with
  | error e => rfl
  | ok q =>
    simp only [bind, Except.bind, node?_shape]
    cases d.node? id with
    | none => rfl
    | some n => exact congrArg Except.ok (shape_replace d id (q.apply n))

theorem shape_attempt (d : Diagram α) (id : Text) (p : Patch) :
    d.shape.attempt id p = ((d.attempt id p).1, (d.attempt id p).2.shape) := by
  rw [attempt, attempt, ← shape_patch]
  cases d.patch id p <;> rfl

theorem shape_attempts (d : Diagram α) (edits : List (Text × Patch)) :
    d.shape.attempts edits = ((d.attempts edits).1, (d.attempts edits).2.shape) := by
  induction edits generalizing d with
  | nil => rfl
  | cons e rest ih => simp only [attempts, shape_attempt, ih]

/-! ## Diagrams of a mode -/

section LaidOut

variable [Scalar α] {mode : LayoutMode}

/-- The diagram is of a mode; if places are deferred then every node is at the origin. -/
def LaidOut (mode : LayoutMode) (d : Diagram α) : Prop :=
  d.layoutMode = mode ∧ (mode = .deferred → ∀ n ∈ d.nodes, n.position = .origin)

theorem LaidOut.patch {d d' : Diagram α} {id : Text} {p : Patch} (h : d.LaidOut mode)
    (hp : d.patch id p = .ok d') : d'.LaidOut mode := by
  obtain ⟨-, n, hn, rfl⟩ := patch_eq_ok_iff.1 hp
  refine ⟨h.1, fun hm m hmem => ?_⟩
  obtain ⟨m', hmem', rfl⟩ := List.mem_map.1 hmem
  split_ifs
  · exact h.2 hm n (List.mem_of_find?_eq_some hn)
  · exact h.2 hm m' hmem'

theorem LaidOut.attempts {d : Diagram α} (h : d.LaidOut mode) (edits : List (Text × Patch)) :
    (d.attempts edits).2.LaidOut mode :=
  (edited_attempts d edits).preserves (fun _ _ _ _ hp hd => hd.patch hp) h

theorem laidOut_of_build {config : LayoutConfig α} {text : Text} {d : Diagram α}
    (h : (build mode config text).outcome = .ok d) : d.LaidOut mode := by
  obtain ⟨r, s, -, hs, rfl⟩ := outcome_build_eq_ok_iff.1 h
  obtain ⟨fragments, -, hs⟩ := outcome_sheet_eq_ok_iff.1 hs
  refine ⟨rfl, fun hm n hn => ?_⟩
  rcases List.mem_append.1 hn with hn | hn
  · exact Sheet.position_of_mem_drawAll hm hs n hn
  · exact Variables.position_of_mem_nodesFrom hm hn

end LaidOut

/-! ## The result -/

/-- The diagrams show the same: they have the same nodes in the same order and the same edges, and
only the nodes' places and the layout mode may differ. -/
structure SameShape (d : Diagram α) (d' : Diagram β) : Prop where
  operationName : d.operationName = d'.operationName
  variableValues : d.variableValues = d'.variableValues
  query : d.query = d'.query
  document : d.document = d'.document
  nodes : d.nodes.map (fun n => (n.id, n.kind, n.label, n.data)) =
    d'.nodes.map (fun n => (n.id, n.kind, n.label, n.data))
  edges : d.edges = d'.edges

theorem sameShape_of_shape_eq {d : Diagram α} {d' : Diagram β} (h : d.shape = d'.shape) :
    SameShape d d' where
  operationName := congrArg Diagram.operationName h
  variableValues := congrArg Diagram.variableValues h
  query := congrArg Diagram.query h
  document := congrArg Diagram.document h
  nodes := by
    have hn := congrArg (fun e : Diagram Unit =>
      e.nodes.map fun n => (n.id, n.kind, n.label, n.data)) h
    simp only [shape, List.map_map] at hn
    exact hn
  edges := congrArg Diagram.edges h

/-- Two ways of laying out a text fail alike or give diagrams of the same shape, after the same
warnings. The same patches then fail alike and leave diagrams of the same shape. A diagram whose
places are deferred has every node at the origin, before and after the patches. -/
theorem build_agree [Scalar α] [Scalar β] (mode mode' : LayoutMode) (config : LayoutConfig α)
    (config' : LayoutConfig β) (text : Text) :
    Logged.Agree
      (fun d d' => SameShape d d' ∧ d.LaidOut mode ∧ d'.LaidOut mode' ∧
        ∀ edits, (d.attempts edits).1 = (d'.attempts edits).1 ∧
          SameShape (d.attempts edits).2 (d'.attempts edits).2 ∧
          (d.attempts edits).2.LaidOut mode ∧ (d'.attempts edits).2.LaidOut mode')
      (build mode config text) (build mode' config' text) := by
  have h := (shape_build mode config text).trans (shape_build mode' config' text).symm
  refine Logged.agree_of_map_eq_map h fun d d' hd hd' hs => ?_
  have hl := laidOut_of_build hd
  have hl' := laidOut_of_build hd'
  refine ⟨sameShape_of_shape_eq hs, hl, hl', fun edits => ?_⟩
  have he := congrArg (fun e => e.attempts edits) hs
  simp only [shape_attempts, Prod.mk.injEq] at he
  exact ⟨he.1, sameShape_of_shape_eq he.2, hl.attempts edits, hl'.attempts edits⟩

end Diagram

end QueryDiagram
