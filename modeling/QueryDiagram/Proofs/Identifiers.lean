import Mathlib.Data.List.Basic
import QueryDiagram.Diagram.Variables

/-!
# Identifiers

A numeral has no dash in it, so what stands after the last dash of an identifier is the number of
its node (`Plan.idOf_injective`), and of the identifier of an edge the number of its target
(`Plan.eq_of_connect_id_eq`). A node of a tree and a variable never share an identifier
(`Variables.idOf_ne_idOf`).
-/

namespace QueryDiagram

theorem Text.ofNat_injective {m n : Nat} (h : Text.ofNat m = Text.ofNat n) : m = n := by
  rw [ofNat, ofNat, List.map_inj_right fun _ _ => CodePoint.scalar.inj] at h
  rw [← Nat.ofDigitChars_ten_toDigits (n := m), h, Nat.ofDigitChars_ten_toDigits]

/-- A numeral has nothing but digits in it. -/
theorem Text.not_mem_ofNat {c : Char} (hc : c.isDigit = false) (n : Nat) :
    CodePoint.scalar c ∉ Text.ofNat n := by
  intro h
  obtain ⟨d, hd, e⟩ := List.mem_map.1 h
  obtain rfl := CodePoint.scalar.inj e
  have hdigit := Nat.isDigit_of_mem_toDigits (by decide) (by decide) hd
  rw [hc] at hdigit
  cases hdigit

/-- What stands after the last mark of a kind. -/
theorem eq_of_append_cons_eq_append_cons {β : Type} {xs xs' ys ys' : List β} {a : β}
    (h : xs ++ a :: ys = xs' ++ a :: ys') (hy : a ∉ ys) (hy' : a ∉ ys') : ys = ys' := by
  rcases List.append_eq_append_iff.1 h with ⟨cs, -, e⟩ | ⟨cs, -, e⟩ <;> rcases cs with _ | ⟨c, cs⟩
  · exact (List.cons.inj e).2
  · exact absurd (by simp [(List.cons.inj e).2]) hy
  · exact (List.cons.inj e).2.symm
  · exact absurd (by simp [(List.cons.inj e).2]) hy'

theorem Text.eq_of_dash_ofNat {s t : Text} {m n : Nat}
    (h : s ++ "-" ++ Text.ofNat m = t ++ "-" ++ Text.ofNat n) : m = n := by
  rw [List.append_assoc, List.append_assoc] at h
  exact Text.ofNat_injective (eq_of_append_cons_eq_append_cons h
    (Text.not_mem_ofNat (by decide) m) (Text.not_mem_ofNat (by decide) n))

variable {α : Type}

theorem Plan.idOf_injective (p : Plan α) : Function.Injective p.idOf :=
  fun _ _ h => Text.eq_of_dash_ofNat h

theorem Plan.idOf_eq (config : LayoutConfig α) (mode : LayoutMode) (n : Nat) :
    Plan.idOf { config, mode } n = ("node-" : Text) ++ Text.ofNat n := by
  rw [idOf, ← Text.ofString_append]
  rfl

theorem Plan.eq_of_connect_id_eq (p : Plan α) {source source' : Text} {m n : Nat}
    {kind kind' : Option Text}
    (h : (Edge.connect source (p.idOf m) kind).id = (Edge.connect source' (p.idOf n) kind').id) :
    m = n := by
  simp only [Edge.connect, idOf, ← List.append_assoc] at h
  exact Text.eq_of_dash_ofNat h

theorem Variables.idOf_injective : Function.Injective Variables.idOf :=
  fun _ _ h => List.append_cancel_left h

/-- The identifiers of nodes and of variables begin with different letters. -/
theorem Variables.idOf_ne_idOf (config : LayoutConfig α) (mode : LayoutMode) (n : Nat)
    (name : Text) : Variables.idOf name ≠ Plan.idOf { config, mode } n := by
  intro h
  have := congrArg List.head? h
  simp [idOf, Plan.idOf, Text.ofString] at this

end QueryDiagram
