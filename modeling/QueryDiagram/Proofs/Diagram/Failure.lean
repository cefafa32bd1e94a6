import QueryDiagram.Proofs.Diagram.Drawing
import QueryDiagram.Proofs.Tree.Conversion

/-!
# Diagrams that are not drawn

A request that is read has a diagram unless an argument that the diagram would show holds an integer
with too many digits (`Diagram.exists_conversion_error_iff`). This is the only way in which drawing
fails.
-/

namespace QueryDiagram

open GraphQL

variable {α : Type} [Scalar α]

/-- An integer of `n` digits, which are too many, is in an argument of a field of an operation, or
of a fragment that the operation reaches. -/
def HasLongInteger (d : Document) (n : Nat) : Prop :=
  ∃ o ∈ operationsOf d, ∃ f, Tree.Uses (Fragments.last? d) o.body f ∧
    ∃ s ∈ f.integers, integerDigitLimit < n ∧ digitCount s = n

theorem Sheet.failsOn_drawAll (plan : Plan α) (fragments : Fragments) (s : Sheet α)
    (operations : List Operation) :
    FailsOn (fun t => ∃ o ∈ operations, Tree.IntegerMet fragments ([], o.body) t)
      (drawAll plan fragments s operations).outcome := by
  induction operations generalizing s with
  | nil => exact (failsOn_ok s).congr (by simp)
  | cons o os ih =>
    have hdraw : FailsOn (Tree.IntegerMet fragments ([], o.body))
        (draw plan fragments s o).outcome := by
      unfold draw
      simp only [bind_pure_comp]
      exact (Tree.failsOn_ofSelections plan.config fragments [] o.body).map_outcome _
    rw [drawAll]
    refine (hdraw.bind_outcome fun s' => ih s').congr ?_
    simp

namespace Diagram

variable {mode : LayoutMode} {config : LayoutConfig α} {text : Text}

theorem failsOn_ofRequest (mode : LayoutMode) (config : LayoutConfig α) (r : Request) :
    FailsOn (fun t => ∃ o ∈ operationsOf r.document, ∃ f,
        Tree.Uses (Fragments.last? r.document) o.body f ∧ t ∈ f.integers)
      (ofRequest mode config r).outcome := by
  rw [ofRequest_eq]
  refine FailsOn.map_outcome ?_ _
  have hdraw := Sheet.failsOn_drawAll { config, mode } (Fragments.collected r.document) .empty
    (operationsOf r.document)
  have hsheet : (sheet { config, mode } r.document).outcome =
      (Sheet.drawAll { config, mode } (Fragments.collected r.document) .empty
        (operationsOf r.document)).outcome := by
    rw [sheet, Logged.bind_of_ok (Fragments.outcome_collect r.document)]
  rw [hsheet]
  refine hdraw.congr fun t => ?_
  simp only [Tree.integerMet_top_iff, Fragments.get?_collected]

/-- A text is refused as it is read, or what was read is not drawn. -/
theorem outcome_build_eq_error_iff {e : BuildError} :
    (build mode config text).outcome = .error e ↔
      (∃ cause, Request.read text = .error cause ∧ e = .request cause) ∨
        ∃ r cause, Request.read text = .ok r ∧ (ofRequest mode config r).outcome = .error cause ∧
          e = .conversion cause := by
  unfold build
  cases Request.read text with
  | error cause => simp [eq_comm]
  | ok r =>
    cases h : (ofRequest mode config r).outcome <;>
      simp [Logged.mapError, Except.mapError, h, eq_comm]

theorem outcome_build_eq_request_iff {cause : RequestError} :
    (build mode config text).outcome = .error (.request cause) ↔
      Request.read text = .error cause := by
  simp [outcome_build_eq_error_iff]

theorem outcome_build_eq_conversion_iff {cause : ConversionError} :
    (build mode config text).outcome = .error (.conversion cause) ↔
      ∃ r, Request.read text = .ok r ∧ (ofRequest mode config r).outcome = .error cause := by
  simp [outcome_build_eq_error_iff]

theorem exists_conversion_error_iff :
    (∃ cause, (build mode config text).outcome = .error (.conversion cause)) ↔
      ∃ r n, Request.read text = .ok r ∧ HasLongInteger r.document n := by
  simp only [outcome_build_eq_conversion_iff]
  constructor
  · rintro ⟨cause, r, hr, he⟩
    obtain ⟨s, ⟨o, ho, f, hf, hs⟩, hlong⟩ :=
      (failsOn_ofRequest mode config r).exists_error_iff.1 ⟨cause, he⟩
    exact ⟨r, _, hr, o, ho, f, hf, s, hs, hlong, rfl⟩
  · rintro ⟨r, n, hr, o, ho, f, hf, s, hs, hlong, rfl⟩
    obtain ⟨cause, he⟩ := (failsOn_ofRequest mode config r).exists_error_iff.2
      ⟨s, ⟨o, ho, f, hf, hs⟩, hlong⟩
    exact ⟨cause, r, hr, he⟩

theorem exists_build_iff :
    (∃ d, (build mode config text).outcome = .ok d) ↔
      ∃ r, Request.read text = .ok r ∧ ∀ n, ¬ HasLongInteger r.document n := by
  have hconversion : (∃ cause, (build mode config text).outcome = .error (.conversion cause)) ↔
      ∃ r n, Request.read text = .ok r ∧ HasLongInteger r.document n := exists_conversion_error_iff
  cases hread : Request.read text with
  | error e =>
    have hbuild : (build mode config text).outcome = .error (.request e) :=
      outcome_build_eq_request_iff.2 hread
    simp [hbuild]
  | ok r =>
    simp only [hread, Except.ok.injEq, exists_and_left, exists_eq_left'] at hconversion ⊢
    rw [← not_exists, ← hconversion]
    cases hbuild : (build mode config text).outcome with
    | ok d => simp
    | error e =>
      cases e with
      | request cause => cases hread.symm.trans (outcome_build_eq_request_iff.1 hbuild)
      | conversion cause => simp

/-- The failure names the number of digits. -/
theorem hasLongInteger_of_conversion_error {cause : ConversionError}
    (h : (build mode config text).outcome = .error (.conversion cause)) :
    ∃ r n, Request.read text = .ok r ∧ HasLongInteger r.document n ∧ cause = .integerTooLong n := by
  obtain ⟨r, hr, he⟩ := outcome_build_eq_conversion_iff.1 h
  have hfails := failsOn_ofRequest mode config r
  rw [he] at hfails
  obtain ⟨s, ⟨o, ho, f, hf, hs⟩, hlong, hcause⟩ := hfails.of_error
  exact ⟨r, _, hr, ⟨o, ho, f, hf, s, hs, hlong, rfl⟩, hcause⟩

end Diagram

end QueryDiagram
