import Mathlib
import QueryDiagram.Proofs.Tree.Level

/-!
# How far spreads are expanded

Whatever the fragments spread, the recursion of the builder is well founded and its equation has
one solution. A tree is at most as high as its selections are nested, with the nesting of every
fragment that was left to expand added once (`heightOf_le_of_built`). On the way from the top down
to a node no fragment is expanded twice, and none of those that were being expanded before
(`expandsOnce_of_built`).
-/

namespace QueryDiagram

open GraphQL

/-! ## Nesting of selections -/

namespace GraphQL

mutual

/-- The number of selections on the longest way into a selection, itself counted. -/
def Selection.nesting : Selection → Nat
  | .leaf _ => 1
  | .nested _ body => 1 + nestingOf body
  | .spread _ => 1
  | .inline _ body => 1 + nestingOf body

/-- How deeply the deepest of the selections is nested. -/
def nestingOf : List Selection → Nat
  | [] => 0
  | s :: ss => max s.nesting (nestingOf ss)

end

theorem nesting_le_nestingOf {s : Selection} {selections : List Selection}
    (h : s ∈ selections) : s.nesting ≤ nestingOf selections := by
  induction selections with
  | nil => simp at h
  | cons s' ss ih =>
    rw [nestingOf]
    rcases List.mem_cons.1 h with rfl | h
    · exact Nat.le_max_left _ _
    · exact (ih h).trans (Nat.le_max_right _ _)

end GraphQL

/-- The nesting of all fragments that are not being expanded, added up. -/
def Fragments.nestingOutside (fragments : Fragments) (expanding : List Text) : Nat :=
  ((fragments.filter fun f => !expanding.contains f.1).map fun f => nestingOf f.2.body).sum

theorem Fragments.nestingOutside_cons_le (fragments : Fragments) (expanding : List Text)
    (name : Text) :
    fragments.nestingOutside (name :: expanding) ≤ fragments.nestingOutside expanding := by
  refine List.Sublist.sum_le_sum (List.Sublist.map _ ?_) fun _ _ => Nat.zero_le _
  refine List.monotone_filter_right _ fun f h => ?_
  simp only [List.contains_eq_mem, List.mem_cons, Bool.not_eq_true', decide_eq_false_iff_not,
    not_or] at h ⊢
  exact h.2

/-- Expanding a fragment takes its nesting out of the sum. -/
theorem Fragments.nestingOf_add_nestingOutside_le {fragments : Fragments} {expanding : List Text}
    {name : Text} {fragment : Fragment} (hf : Record.get? fragments name = some fragment)
    (hn : name ∉ expanding) :
    nestingOf fragment.body + fragments.nestingOutside (name :: expanding) ≤
      fragments.nestingOutside expanding := by
  induction fragments with
  | nil => simp [Record.get?] at hf
  | cons f fragments ih =>
    rw [Record.get?] at hf
    have hle := Fragments.nestingOutside_cons_le fragments expanding name
    unfold nestingOutside at ih hle ⊢
    by_cases hk : f.1 = name
    · rw [if_pos hk] at hf
      obtain rfl := Option.some.inj hf
      simp [hk, hn] at hle ⊢
      omega
    · rw [if_neg hk] at hf
      have := ih hf
      by_cases he : f.1 ∈ expanding
      · simpa [hk, he] using this
      · simp [hk, he] at this ⊢
        omega

namespace Tree

variable {α : Type}

/-! ## Height -/

mutual

/-- The number of nodes on the longest way down from the root. -/
def height : Tree α → Nat
  | node _ children => 1 + heightOf children

/-- The height of the highest of the trees. -/
def heightOf : List (Tree α) → Nat
  | [] => 0
  | t :: ts => max t.height (heightOf ts)

end

theorem heightOf_le_iff {row : List (Tree α)} {n : Nat} :
    heightOf row ≤ n ↔ ∀ t ∈ row, t.height ≤ n := by
  induction row with
  | nil => simp [heightOf]
  | cons t ts ih => simp [heightOf, ih]

/-! ## Expansions on a path -/

mutual

/-- The cards on the way from the root down to each node. -/
def paths : Tree α → List (List (Card α))
  | node card children => [card] :: (pathsOf children).map (card :: ·)

/-- The paths of all the trees. -/
def pathsOf : List (Tree α) → List (List (Card α))
  | [] => []
  | t :: ts => t.paths ++ pathsOf ts

end

theorem mem_pathsOf {row : List (Tree α)} {path : List (Card α)} :
    path ∈ pathsOf row ↔ ∃ t ∈ row, path ∈ t.paths := by
  induction row with
  | nil => simp [pathsOf]
  | cons t ts ih => simp [pathsOf, ih]

/-- Whether inline fragments show this name; no fragment has such a name. -/
def isInlineName (name : Text) : Bool :=
  name == inlineName none || (inlineName (some [])).isPrefixOf name

/-- The fragment that a node expands. -/
def expansion? (card : Card α) : Option Text :=
  if card.kind = .fragment ∧ card.label = none ∧ !isInlineName card.data.name then
    some card.data.name
  else none

/-- The fragments expanded on a path, from the top down. -/
def expansions (path : List (Card α)) : List Text := path.filterMap expansion?

/-- What a path may expand that begins inside the fragments `expanding`. -/
def ExpandsOnce (expanding : List Text) (path : List (Card α)) : Prop :=
  (expansions path).Nodup ∧ ∀ name ∈ expansions path, name ∉ expanding

theorem ExpandsOnce.cons_of_none {expanding : List Text} {card : Card α}
    {path : List (Card α)} (h : ExpandsOnce expanding path) (hc : expansion? card = none) :
    ExpandsOnce expanding (card :: path) := by
  rwa [ExpandsOnce, expansions, List.filterMap_cons_none hc]

theorem ExpandsOnce.cons_of_not_mem {expanding : List Text} {card : Card α}
    {path : List (Card α)} {name : Text} (h : ExpandsOnce (name :: expanding) path)
    (hn : name ∉ expanding) (hc : card.data.name = name) :
    ExpandsOnce expanding (card :: path) := by
  obtain ⟨hd, ho⟩ := h
  rcases he : expansion? card with _ | m
  · exact ExpandsOnce.cons_of_none ⟨hd, fun m hm hm' => ho m hm (List.mem_cons_of_mem _ hm')⟩ he
  · obtain rfl : name = m := by
      unfold expansion? at he
      split_ifs at he
      rw [← hc]
      exact Option.some.inj he
    rw [ExpandsOnce, expansions, List.filterMap_cons_some he]
    refine ⟨List.nodup_cons.2 ⟨fun hm => ho _ hm List.mem_cons_self, hd⟩, ?_⟩
    intro m hm
    rcases List.mem_cons.1 hm with rfl | hm
    · exact hn
    · exact fun hm' => ho m hm (List.mem_cons_of_mem _ hm')

theorem expandsOnce_nil {expanding : List Text} : ExpandsOnce expanding ([] : List (Card α)) :=
  ⟨.nil, fun _ h => absurd h List.not_mem_nil⟩

/-! ## Built trees -/

variable [Scalar α] {config : LayoutConfig α} {fragments : Fragments} {expanding : List Text}
  {selections : List Selection}

theorem heightOf_le_of_built {row : List (Tree α)}
    (h : (ofSelections config fragments expanding selections).outcome = .ok row) :
    heightOf row ≤ nestingOf selections + fragments.nestingOutside expanding := by
  refine built_induction (motive := fun expanding selections row =>
    heightOf row ≤ nestingOf selections + fragments.nestingOutside expanding) ?_ h
  intro expanding selections row h
  rw [heightOf_le_iff]
  intro t ht
  rcases h.cases_of_mem ht with ⟨f, arguments, hf, rfl⟩ |
    ⟨f, body, hm, children, arguments, hc, -, rfl⟩ | ⟨i, hm, hi⟩
  · have := nesting_le_nestingOf hf
    simp only [groupNode, height, heightOf, Selection.nesting] at this ⊢
    omega
  · have := nesting_le_nestingOf hm
    simp only [fieldNode, height, Selection.nesting] at this hc ⊢
    omega
  · cases hi with
    | unknown hf | recursive hf hn =>
      have := nesting_le_nestingOf (spread_mem_inclusionsIn.1 hm)
      simp only [closedSpread, height, heightOf, Selection.nesting] at this ⊢
      omega
    | expanded hf hn hc =>
      have := nesting_le_nestingOf (spread_mem_inclusionsIn.1 hm)
      have := Fragments.nestingOf_add_nestingOutside_le hf hn
      simp only [fragmentNode, height, Selection.nesting] at *
      omega
    | inline hc =>
      have := nesting_le_nestingOf (inline_mem_inclusionsIn.1 hm)
      simp only [fragmentNode, height, Selection.nesting] at this hc ⊢
      omega

theorem expansion?_inlineName (condition : Option Text) (children : List (Tree α)) :
    expansion? (fragmentNode config (inlineName condition) children).card = none := by
  have hname : isInlineName (inlineName condition) := by
    cases condition with
    | none => simp [isInlineName]
    | some c => simp [isInlineName, inlineName]
  unfold expansion?
  rw [if_neg]
  rintro ⟨-, -, h⟩
  simp [fragmentNode, card, fragmentData, hname] at h

theorem expandsOnce_of_built {row : List (Tree α)}
    (h : (ofSelections config fragments expanding selections).outcome = .ok row) :
    ∀ path ∈ pathsOf row, ExpandsOnce expanding path := by
  refine built_induction (motive := fun expanding _ row =>
    ∀ path ∈ pathsOf row, ExpandsOnce expanding path) ?_ h
  intro expanding selections row h path hpath
  obtain ⟨t, ht, hp⟩ := mem_pathsOf.1 hpath
  rcases h.cases_of_mem ht with ⟨f, arguments, hf, rfl⟩ |
    ⟨f, body, hm, children, arguments, hc, -, rfl⟩ | ⟨i, hm, hi⟩
  · simp only [groupNode, paths, pathsOf, List.map_nil, List.mem_singleton] at hp
    subst hp
    exact expandsOnce_nil.cons_of_none (by simp [expansion?])
  · simp only [fieldNode, paths, List.mem_cons, List.mem_map] at hp
    rcases hp with rfl | ⟨p, hp, rfl⟩
    · exact expandsOnce_nil.cons_of_none (by simp [expansion?])
    · exact (hc p hp).cons_of_none (by simp [expansion?])
  · cases hi with
    | unknown hf | recursive hf hn =>
      simp only [closedSpread, paths, pathsOf, List.map_nil, List.mem_singleton] at hp
      subst hp
      exact expandsOnce_nil.cons_of_none (by simp [expansion?])
    | expanded hf hn hc =>
      simp only [fragmentNode, paths, List.mem_cons, List.mem_map] at hp
      rcases hp with rfl | ⟨p, hp, rfl⟩
      · exact expandsOnce_nil.cons_of_not_mem hn rfl
      · exact (hc p hp).cons_of_not_mem hn rfl
    | inline hc =>
      simp only [fragmentNode, paths, List.mem_cons, List.mem_map] at hp
      rcases hp with rfl | ⟨p, hp, rfl⟩
      · exact expandsOnce_nil.cons_of_none (expansion?_inlineName _ _)
      · exact (hc p hp).cons_of_none (expansion?_inlineName _ _)

/-- Building a tree ends for all fragments, also for those that spread themselves or each other:
the levels of the recursion are well founded, and its equation has the builder as its only
solution. The tree is no higher than the nesting of its selections and of all fragments left to
expand, and no way down from its top expands a fragment twice or one that was being expanded. -/
theorem expansion_ends (config : LayoutConfig α) (fragments : Fragments) :
    WellFounded (Below fragments) ∧
      (∀ build : Builder α,
        build = level config fragments build ↔ build = ofSelections config fragments) ∧
      ∀ (expanding : List Text) (selections : List Selection) (row : List (Tree α)),
        (ofSelections config fragments expanding selections).outcome = .ok row →
          heightOf row ≤ nestingOf selections + fragments.nestingOutside expanding ∧
          ∀ path ∈ pathsOf row,
            (expansions path).Nodup ∧ ∀ name ∈ expansions path, name ∉ expanding := by
  refine ⟨wellFounded_below fragments, fun build => ⟨fun h => ?_, ?_⟩, ?_⟩
  · funext expanding selections
    exact eq_ofSelections_of_eq_level (fun e s => congrFun₂ h e s) expanding selections
  · rintro rfl
    funext expanding selections
    exact ofSelections_eq_level config fragments expanding selections
  · exact fun expanding selections row h => ⟨heightOf_le_of_built h, expandsOnce_of_built h⟩

/-- Two fragments that spread each other. -/
def mutualSpreads : Fragments :=
  [("A", ⟨"A", "T", [.leaf ⟨none, "x", []⟩, .spread "B"]⟩), ("B", ⟨"B", "T", [.spread "A"]⟩)]

theorem expansion_ends_mutualSpreads :
    ∃ row, (ofSelections (.standard Rat) mutualSpreads [] [.spread "A"]).outcome = .ok row ∧
      heightOf row ≤ 3 ∧ ∀ path ∈ pathsOf row, (expansions path).Nodup := by
  obtain ⟨row, h⟩ :
      ∃ row, (ofSelections (.standard Rat) mutualSpreads [] [.spread "A"]).outcome = .ok row :=
    ⟨_, by cbv⟩
  obtain ⟨hh, hp⟩ := (expansion_ends (.standard Rat) mutualSpreads).2.2 _ _ row h
  exact ⟨row, h, hh.trans (by decide), fun path hpath => (hp path hpath).1⟩

end Tree

end QueryDiagram
