import QueryDiagram.Diagram.Build
import QueryDiagram.Proofs.Logged

/-!
# Diagrams that are drawn

When a step of drawing a diagram succeeds and what it gives: one operation
(`outcome_draw_eq_ok_iff`), the diagram of a text (`outcome_build_eq_ok_iff`). What drawing one
operation preserves, drawing all of them preserves (`drawAll_induction`).
-/

namespace QueryDiagram

open GraphQL

variable {α : Type} [Scalar α]

namespace Sheet

variable {plan : Plan α} {fragments : Fragments} {s s' : Sheet α}

/-- A sheet with a root and the row of trees under it. -/
def withRow (plan : Plan α) (s : Sheet α) (o : Operation) (row : List (Tree α)) : Sheet α :=
  let root := rootOf plan s.next o
  let placed :=
    Tree.placeRow plan (some root.id) root.position.x plan.config.treeStartY (s.next + 1) row
  ⟨s.nodes ++ root :: placed.nodes, s.edges ++ placed.edges, placed.next⟩

theorem outcome_draw_eq_ok_iff {o : Operation} :
    (draw plan fragments s o).outcome = .ok s' ↔
      ∃ row, (Tree.ofSelections plan.config fragments [] o.body).outcome = .ok row ∧
        s' = s.withRow plan o row := by
  have hplace : ∀ row, (s.push (rootOf plan s.next o)).place plan
      (some (rootOf plan s.next o).id) (rootOf plan s.next o).position.x plan.config.treeStartY
      row = s.withRow plan o row := by
    intro row
    rw [place, push, withRow]
    simp only [List.append_assoc, List.singleton_append]
  simp only [draw, Logged.outcome_bind_eq_ok_iff, Logged.outcome_pure, Except.ok.injEq, hplace]
  constructor
  · rintro ⟨row, hrow, rfl⟩
    exact ⟨row, hrow, rfl⟩
  · rintro ⟨row, hrow, rfl⟩
    exact ⟨row, hrow, rfl⟩

/-- What holds of the operations drawn so far and their sheet, if drawing one more preserves it,
holds of all operations. -/
theorem drawAll_induction {motive : List Operation → Sheet α → Prop}
    (step : ∀ drawn s o s', (draw plan fragments s o).outcome = .ok s' → motive drawn s →
      motive (drawn ++ [o]) s')
    (drawn : List Operation) {operations : List Operation}
    (h : (drawAll plan fragments s operations).outcome = .ok s') (hs : motive drawn s) :
    motive (drawn ++ operations) s' := by
  induction operations generalizing drawn s with
  | nil =>
    obtain rfl : s = s' := Except.ok.inj h
    rwa [List.append_nil]
  | cons o os ih =>
    obtain ⟨s₁, h₁, h₂⟩ := Logged.outcome_bind_eq_ok_iff.1 h
    rw [List.append_cons]
    exact ih _ h₂ (step _ _ _ _ h₁ hs)

end Sheet

namespace Diagram

variable {mode : LayoutMode} {config : LayoutConfig α}

theorem outcome_sheet_eq_ok_iff {plan : Plan α} {document : Document} {s : Sheet α} :
    (sheet plan document).outcome = .ok s ↔
      ∃ fragments, (Fragments.collect (ε := ConversionError) document).outcome = .ok fragments ∧
        (Sheet.drawAll plan fragments .empty (operationsOf document)).outcome = .ok s := by
  rw [sheet, Logged.outcome_bind_eq_ok_iff]

/-- The diagram of a request whose operations are drawn on a sheet. -/
def ofSheet (mode : LayoutMode) (config : LayoutConfig α) (r : Request) (s : Sheet α) :
    Diagram α where
  operationName := r.operationName
  variableValues := r.variableValues
  query := r.query
  document := r.document
  nodes := s.nodes ++ Variables.nodes { config, mode } r.variableValues
  edges := s.edges
  layoutMode := mode

theorem ofRequest_eq (r : Request) :
    ofRequest mode config r = ofSheet mode config r <$> sheet { config, mode } r.document := rfl

theorem outcome_build_eq_ok_iff {text : Text} {d : Diagram α} :
    (build mode config text).outcome = .ok d ↔
      ∃ r s, Request.read text = .ok r ∧
        (sheet { config, mode } r.document).outcome = .ok s ∧ d = ofSheet mode config r s := by
  unfold build
  cases Request.read text with
  | error e => simp
  | ok r =>
    simp only [ofRequest_eq, Logged.outcome_map, Logged.mapError, Except.ok.injEq,
      exists_and_left, exists_eq_left']
    cases (sheet { config, mode } r.document).outcome <;>
      simp [Except.map, Except.mapError, eq_comm]

end Diagram

end QueryDiagram
