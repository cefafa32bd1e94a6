import Mathlib.Data.List.Nodup
import QueryDiagram.Tree.Basic

/-!
# Trees in the order of a reader

The trees of a row and all trees below them, a tree before what is below it and that before its
next sibling (`subtreesOf`), and in the same order the addresses of their roots (`addressesFrom`):
the place in the top row, then the place in the row of children, and so on. Addresses are distinct
(`nodup_addressesFrom`).
-/

namespace QueryDiagram

namespace Tree

variable {α β : Type}

/-- A row is empty, or begins with a tree whose children are a row of their own. -/
@[elab_as_elim]
theorem row_induction {motive : List (Tree α) → Prop} (nil : motive [])
    (cons : ∀ card children rest, motive children → motive rest →
      motive (.node card children :: rest)) : ∀ row, motive row
  | [] => nil
  | .node card children :: rest =>
    cons card children rest (row_induction nil cons children) (row_induction nil cons rest)

/-! ## Subtrees -/

mutual

/-- The tree and all trees below it. -/
def subtrees : Tree α → List (Tree α)
  | node card children => node card children :: subtreesOf children

/-- The trees of a row and all trees below them. -/
def subtreesOf : List (Tree α) → List (Tree α)
  | [] => []
  | t :: ts => t.subtrees ++ subtreesOf ts

end

@[simp]
theorem subtreesOf_nil : subtreesOf ([] : List (Tree α)) = [] := by rw [subtreesOf]

@[simp]
theorem subtreesOf_cons (card : Card α) (children rest : List (Tree α)) :
    subtreesOf (.node card children :: rest) =
      .node card children :: (subtreesOf children ++ subtreesOf rest) := by
  rw [subtreesOf, subtrees, List.cons_append]

theorem mem_subtreesOf {row : List (Tree α)} {s : Tree α} :
    s ∈ subtreesOf row ↔ ∃ t ∈ row, s ∈ t.subtrees := by
  induction row with
  | nil => simp
  | cons t ts ih => simp [subtreesOf, ih]

/-! ## Addresses -/

mutual

/-- The addresses in a tree that has a place in its row. -/
def addresses (place : Nat) : Tree α → List (List Nat)
  | node _ children => [place] :: (addressesFrom 0 children).map (place :: ·)

/-- The addresses in a row whose first tree has a place. -/
def addressesFrom (place : Nat) : List (Tree α) → List (List Nat)
  | [] => []
  | t :: ts => addresses place t ++ addressesFrom (place + 1) ts

end

@[simp]
theorem addressesFrom_nil (place : Nat) : addressesFrom place ([] : List (Tree α)) = [] := by
  rw [addressesFrom]

@[simp]
theorem addressesFrom_cons (place : Nat) (card : Card α) (children rest : List (Tree α)) :
    addressesFrom place (.node card children :: rest) =
      [place] :: ((addressesFrom 0 children).map (place :: ·) ++
        addressesFrom (place + 1) rest) := by
  rw [addressesFrom, addresses, List.cons_append]

theorem length_addressesFrom (place : Nat) (row : List (Tree α)) :
    (addressesFrom place row).length = (subtreesOf row).length := by
  induction row using row_induction generalizing place with
  | nil => simp
  | cons card children rest ihc ihr => simp [ihc, ihr]

/-- An address begins with a place in the row. -/
theorem exists_cons_of_mem_addressesFrom {place : Nat} {row : List (Tree α)} {a : List Nat}
    (h : a ∈ addressesFrom place row) : ∃ i s, a = i :: s ∧ place ≤ i := by
  induction row using row_induction generalizing place with
  | nil => simp at h
  | cons card children rest _ ihr =>
    simp only [addressesFrom_cons, List.mem_cons, List.mem_append, List.mem_map] at h
    rcases h with rfl | ⟨s, -, rfl⟩ | h
    · exact ⟨place, [], rfl, Nat.le_refl _⟩
    · exact ⟨place, s, rfl, Nat.le_refl _⟩
    · obtain ⟨i, s, rfl, hi⟩ := ihr h
      exact ⟨i, s, rfl, by omega⟩

theorem nodup_addressesFrom (place : Nat) (row : List (Tree α)) :
    (addressesFrom place row).Nodup := by
  induction row using row_induction generalizing place with
  | nil => simp
  | cons card children rest ihc ihr =>
    have below : ∀ s ∈ addressesFrom 0 children, s ≠ [] := by
      intro s hs e
      obtain ⟨i, s', rfl, -⟩ := exists_cons_of_mem_addressesFrom hs
      simp at e
    have beside : ∀ s, place :: s ∉ addressesFrom (place + 1) rest := by
      intro s hs
      obtain ⟨i, s', e, hi⟩ := exists_cons_of_mem_addressesFrom hs
      obtain ⟨rfl, -⟩ := List.cons.inj e
      omega
    rw [addressesFrom_cons, List.nodup_cons, List.nodup_append]
    refine ⟨?_, (ihc 0).map fun _ _ e => (List.cons.inj e).2, ihr (place + 1), ?_⟩
    · rw [List.mem_append, List.mem_map]
      rintro (⟨s, hs, e⟩ | h)
      · exact below s hs (List.cons.inj e).2
      · exact beside [] h
    · intro a ha b hb e
      obtain ⟨s, -, rfl⟩ := List.mem_map.1 ha
      exact beside s (e ▸ hb)

/-! ## Trees at their addresses -/

/-- The trees of a row and all trees below them, with their addresses. -/
def located (row : List (Tree α)) : List (List Nat × Tree α) :=
  (addressesFrom 0 row).zip (subtreesOf row)

theorem exists_of_mem_zip {place : Nat} {row : List (Tree α)} {a : List Nat} {t : Tree α}
    (h : (a, t) ∈ (addressesFrom place row).zip (subtreesOf row)) :
    ∃ i u, row[i]? = some u ∧
      (a = [place + i] ∧ t = u ∨ ∃ b, a = (place + i) :: b ∧ (b, t) ∈ located u.children) := by
  induction row using row_induction generalizing place with
  | nil => simp at h
  | cons card children rest _ ihr =>
    rw [addressesFrom_cons, subtreesOf_cons, List.zip_cons_cons, List.mem_cons,
      List.zip_append (by simp [length_addressesFrom]), List.mem_append, List.zip_map_left,
      List.mem_map] at h
    rcases h with e | ⟨⟨b, u⟩, hb, e⟩ | h
    · obtain ⟨rfl, rfl⟩ := Prod.mk.inj e
      exact ⟨0, _, rfl, .inl ⟨rfl, rfl⟩⟩
    · obtain ⟨rfl, rfl⟩ := Prod.mk.inj e
      exact ⟨0, .node card children, rfl, .inr ⟨b, rfl, hb⟩⟩
    · obtain ⟨i, u, hu, ha⟩ := ihr h
      refine ⟨i + 1, u, hu, ?_⟩
      rwa [Nat.add_assoc, Nat.add_comm 1 i] at ha

/-- A tree has a place in the row, or an address below the tree that has. -/
theorem exists_of_mem_located {row : List (Tree α)} {a : List Nat} {t : Tree α}
    (h : (a, t) ∈ located row) :
    ∃ i u, row[i]? = some u ∧
      (a = [i] ∧ t = u ∨ ∃ b, a = i :: b ∧ (b, t) ∈ located u.children) := by
  simpa only [Nat.zero_add] using exists_of_mem_zip h

end Tree

end QueryDiagram
