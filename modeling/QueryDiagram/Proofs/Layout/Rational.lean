import Mathlib.Algebra.BigOperators.Group.List.Basic
import Mathlib.Algebra.Order.Ring.Rat
import QueryDiagram.Tree.Basic

/-!
# Layouts without rounding

Over the rational numbers the operations of a layout are the usual ones.
-/

namespace QueryDiagram

namespace Scalar

theorem larger_rat (x y : Rat) : larger x y = max x y := by
  have hless : less x y = decide (x < y) := rfl
  rw [larger, hless, max_def]
  rcases lt_trichotomy x y with h | rfl | h
  · simp [h, h.le]
  · simp
  · simp [h.not_gt, h.not_ge]

theorem half_rat (x : Rat) : half x = x / 2 := rfl

theorem sum_rat (xs : List Rat) : sum xs = xs.sum := by
  rw [List.sum_eq_foldl]
  rfl

end Scalar

variable {gap : Rat} {t : Tree Rat} {row : List (Tree Rat)}

theorem slotWidths_cons_rat : slotWidths gap (t :: row) = (t.width + gap) :: slotWidths gap row :=
  rfl

/-- A row that is not empty is as wide as its trees with their gaps, the last gap left out. -/
theorem rowWidth_rat (h : row ≠ []) : rowWidth gap row = (slotWidths gap row).sum - gap := by
  cases row with
  | nil => exact absurd rfl h
  | cons t ts =>
    rw [← Scalar.sum_rat]
    rfl

theorem totalWidth_rat (config : LayoutConfig Rat) (row : List (Tree Rat)) :
    totalWidth config row = max (slotWidths config.siblingGap row).sum config.minNodeWidth := by
  rw [totalWidth, Scalar.larger_rat, Scalar.sum_rat]

end QueryDiagram
