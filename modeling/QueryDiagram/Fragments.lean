import QueryDiagram.GraphQL.Document
import QueryDiagram.Logged
import QueryDiagram.Record

/-!
# Fragments of a document

Spreads find a fragment by its name, wherever in the document it is defined. Of fragments with the
same name the last one counts, at the place of the first.
-/

namespace QueryDiagram

open GraphQL

/-- The fragments of a document under their names. -/
abbrev Fragments := Record Fragment

namespace Fragments

/-- A fragment taken in, and a warning if its name is taken. -/
def add (known : Fragments × List Warning) (f : Fragment) : Fragments × List Warning :=
  (Record.insert f.name f known.1,
    if (Record.get? known.1 f.name).isSome then known.2 ++ [.repeatedFragment f.name] else known.2)

/-- The fragments among definitions, in order. -/
def definedIn (d : Document) : List Fragment :=
  d.filterMap fun
    | .fragment f => some f
    | _ => none

/-- The fragments of a document by name, with a warning for every repeated definition. -/
def collect {ε : Type} (d : Document) : Logged ε Fragments :=
  let known := (definedIn d).foldl add ([], [])
  ⟨known.2, .ok known.1⟩

/-- The number of fragments that are not being expanded. -/
def unexpanded (fs : Fragments) (expanding : List Text) : Nat :=
  fs.countP fun f => f.1 ∉ expanding

theorem unexpanded_cons_le (fs : Fragments) (expanding : List Text) (name : Text) :
    fs.unexpanded (name :: expanding) ≤ fs.unexpanded expanding :=
  List.countP_mono_left fun f _ h => by simp at h ⊢; exact h.2

/-- Expanding a fragment leaves fewer to expand, so a walk along spreads ends. -/
theorem unexpanded_cons_lt {fs : Fragments} {expanding : List Text} {name : Text} {f : Fragment}
    (h : Record.get? fs name = some f) (hn : name ∉ expanding) :
    fs.unexpanded (name :: expanding) < fs.unexpanded expanding := by
  induction fs with
  | nil => simp [Record.get?] at h
  | cons p fs ih =>
    have hle := unexpanded_cons_le fs expanding name
    unfold unexpanded at ih hle ⊢
    unfold Record.get? at h
    by_cases hp : p.1 = name
    · simp [hp, hn] at hle ⊢
      omega
    · have := ih (by rwa [if_neg hp] at h)
      by_cases he : p.1 ∈ expanding <;> simp_all

end Fragments

end QueryDiagram
