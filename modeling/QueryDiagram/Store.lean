import QueryDiagram.Diagram.Basic

/-!
# Stores of results

The diagrams that a service holds, oldest first, under serial numbers that are never used twice.
-/

namespace QueryDiagram

/-- The results that are kept, oldest first. -/
structure Store (α : Type) where
  entries : List (Nat × Diagram α)
  /-- The number of results ever stored, and the serial number of the next. -/
  issued : Nat

namespace Store

variable {α : Type}

/-- The store before anything was stored. -/
def empty : Store α := ⟨[], 0⟩

/-- The serial numbers of the results. -/
def ids (s : Store α) : List Nat := s.entries.map Prod.fst

/-- The result with a serial number. -/
def get? (s : Store α) (id : Nat) : Option (Diagram α) := s.entries.lookup id

/-- Drops the oldest entry as long as there are `capacity` or more. There has to be one to drop. -/
def evict (capacity : Nat) (entries : List (Nat × Diagram α)) :
    Option (List (Nat × Diagram α)) :=
  if capacity ≤ entries.length then
    match entries with
    | [] => none
    | _ :: rest => evict capacity rest
  else some entries

/-- Stores a diagram as the newest entry, after making room for it. -/
def add (s : Store α) (capacity : Nat) (d : Diagram α) : Option (Store α) :=
  (evict capacity s.entries).map fun entries => ⟨entries ++ [(s.issued, d)], s.issued + 1⟩

/-- Puts another diagram in the place of one that is stored. -/
def update (s : Store α) (id : Nat) (d : Diagram α) : Store α :=
  { s with entries := s.entries.map fun e => if e.1 = id then (id, d) else e }

/-- The store without a result. -/
def erase (s : Store α) (id : Nat) : Store α :=
  { s with entries := s.entries.filter fun e => e.1 ≠ id }

end Store

end QueryDiagram
