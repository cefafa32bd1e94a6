import Mathlib.Data.List.Basic
import QueryDiagram.Fragments

/-!
# What selections reach through spreads

The names that selections spread at any depth (`spreadsIn`), and those that they reach when every
spread also stands for what its fragment spreads (`Reaches`). Collecting the fragments of a
document keeps the last definition of each name (`Fragments.get?_collected`).
-/

namespace QueryDiagram

namespace GraphQL

/-! ## Spreads -/

mutual

/-- The names that a selection spreads, itself or inside its fields and inline fragments. -/
def Selection.spreads : Selection → List Text
  | .leaf _ => []
  | .nested _ body => spreadsIn body
  | .spread name => [name]
  | .inline _ body => spreadsIn body

/-- The names of the spreads in selections, in order. -/
def spreadsIn : List Selection → List Text
  | [] => []
  | s :: ss => s.spreads ++ spreadsIn ss

end

theorem mem_spreadsIn {selections : List Selection} {name : Text} :
    name ∈ spreadsIn selections ↔ ∃ s ∈ selections, name ∈ s.spreads := by
  induction selections with
  | nil => simp [spreadsIn]
  | cons s ss ih => simp [spreadsIn, ih]

/-- The names that selections reach: those that they spread, and those that the fragments of
reached names spread. -/
inductive Reaches (fragment? : Text → Option Fragment) (selections : List Selection) :
    Text → Prop
  | spread {name} (h : name ∈ spreadsIn selections) : Reaches fragment? selections name
  | through {inner name fragment} (hr : Reaches fragment? selections inner)
      (hf : fragment? inner = some fragment) (h : name ∈ spreadsIn fragment.body) :
      Reaches fragment? selections name

section Reaches

variable {fragment? : Text → Option Fragment} {selections body : List Selection}
  {name inner : Text}

theorem Reaches.mono (h : ∀ name ∈ spreadsIn body, Reaches fragment? selections name)
    (hr : Reaches fragment? body name) : Reaches fragment? selections name := by
  induction hr with
  | spread hs => exact h _ hs
  | through _ hf hs ih => exact ih.through hf hs

theorem Reaches.of_mem {s : Selection} (h : s ∈ selections)
    (hs : ∀ name ∈ spreadsIn body, name ∈ s.spreads) (hr : Reaches fragment? body name) :
    Reaches fragment? selections name :=
  hr.mono fun _ hn => .spread (mem_spreadsIn.2 ⟨s, h, hs _ hn⟩)

theorem reaches_of_spread_mem (h : .spread name ∈ selections) :
    Reaches fragment? selections name :=
  .spread (mem_spreadsIn.2 ⟨_, h, by simp [Selection.spreads]⟩)

theorem Reaches.of_nested {field : Field} (h : .nested field body ∈ selections)
    (hr : Reaches fragment? body name) : Reaches fragment? selections name :=
  hr.of_mem h fun _ hn => by rwa [Selection.spreads]

theorem Reaches.of_inline {condition : Option Text} (h : .inline condition body ∈ selections)
    (hr : Reaches fragment? body name) : Reaches fragment? selections name :=
  hr.of_mem h fun _ hn => by rwa [Selection.spreads]

theorem Reaches.of_fragment {fragment : Fragment} (h : .spread inner ∈ selections)
    (hf : fragment? inner = some fragment) (hr : Reaches fragment? fragment.body name) :
    Reaches fragment? selections name :=
  hr.mono fun _ hn => (reaches_of_spread_mem h).through hf hn

/-- What holds of the names that are spread, and with a name of those that its fragment spreads,
holds of every name that is reached. -/
theorem Reaches.preserves {motive : Text → Prop} (hr : Reaches fragment? selections name)
    (hs : ∀ name ∈ spreadsIn selections, motive name)
    (hf : ∀ inner fragment, motive inner → fragment? inner = some fragment →
      ∀ name ∈ spreadsIn fragment.body, motive name) : motive name := by
  induction hr with
  | spread h => exact hs _ h
  | through _ hfrag h ih => exact hf _ _ ih hfrag _ h

end Reaches

end GraphQL

open GraphQL

namespace Fragments

/-! ## Last definitions -/

/-- The last fragment of a name that a document defines. -/
def last? (d : Document) (name : Text) : Option Fragment :=
  ((definedIn d).filter (·.name = name)).getLast?

/-- The fragments of a document by name. -/
def collected (d : Document) : Fragments := ((definedIn d).foldl add ([], [])).1

theorem outcome_collect {ε : Type} (d : Document) :
    (collect (ε := ε) d).outcome = .ok (collected d) := rfl

/-- Of fragments with the same name the last one counts. -/
theorem get?_collected (d : Document) : Record.get? (collected d) = last? d := by
  suffices ∀ (name : Text) (defs : List Fragment) (known : Fragments × List Warning),
      Record.get? (defs.foldl add known).1 name =
        ((defs.filter (·.name = name)).getLast?).or (Record.get? known.1 name) by
    funext name
    rw [collected, this, last?]
    exact Option.or_none
  intro name defs
  induction defs with
  | nil => simp
  | cons f defs ih =>
    intro known
    rw [List.foldl_cons, ih, add, Record.get?_insert]
    by_cases hn : f.name = name
    · rw [if_pos hn, List.filter_cons_of_pos (by simpa using hn), List.getLast?_cons]
      cases (defs.filter (·.name = name)).getLast? <;> rfl
    · rw [if_neg hn, List.filter_cons_of_neg (by simpa using hn)]

theorem mem_definedIn {d : Document} {f : Fragment} : f ∈ definedIn d ↔ .fragment f ∈ d := by
  simp only [definedIn, List.mem_filterMap]
  constructor
  · rintro ⟨x, hx, h⟩
    cases x <;> simp_all
  · exact fun h => ⟨_, h, rfl⟩

theorem mem_of_last?_eq_some {d : Document} {name : Text} {f : Fragment}
    (h : last? d name = some f) : .fragment f ∈ d ∧ f.name = name := by
  obtain ⟨hm, hn⟩ := List.mem_filter.1 (List.mem_of_getLast? h)
  exact ⟨mem_definedIn.1 hm, by simpa using hn⟩

end Fragments

end QueryDiagram
