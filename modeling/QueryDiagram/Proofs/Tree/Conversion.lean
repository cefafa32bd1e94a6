import QueryDiagram.Proofs.Argument
import QueryDiagram.Proofs.Tree.Spreads

/-!
# Trees that are built

Building a tree converts the arguments of every field that is met on the way down, and fails only
on an integer in one of them (`failsOn_ofSelections`). From the top these are the fields of the
selections at any depth and those of the fragments that they reach (`integerMet_top_iff`).
-/

namespace QueryDiagram

open GraphQL

/-! ## Fields in selections -/

namespace GraphQL

mutual

/-- The fields in a selection, at any depth. -/
def Selection.fields : Selection → List Field
  | .leaf f => [f]
  | .nested f body => f :: fieldsIn body
  | .spread _ => []
  | .inline _ body => fieldsIn body

/-- The fields in selections, in order. -/
def fieldsIn : List Selection → List Field
  | [] => []
  | s :: ss => s.fields ++ fieldsIn ss

end

theorem mem_fieldsIn {selections : List Selection} {f : Field} :
    f ∈ fieldsIn selections ↔ ∃ s ∈ selections, f ∈ s.fields := by
  induction selections with
  | nil => simp [fieldsIn]
  | cons s ss ih => simp [fieldsIn, ih]

end GraphQL

namespace Tree

/-- The fields among selections themselves. -/
def fieldsAt (selections : List Selection) : List Field :=
  leaves selections ++ (nestedIn selections).map Prod.fst

theorem mem_fieldsAt {selections : List Selection} {f : Field} :
    f ∈ fieldsAt selections ↔ .leaf f ∈ selections ∨ ∃ body, .nested f body ∈ selections := by
  simp [fieldsAt]

/-! ## Integers that are met -/

/-- The integer is in an argument of a field that is met on the way down from a level. -/
def IntegerMet (fragments : Fragments) (l : List Text × List Selection) (s : Text) : Prop :=
  ∃ l' f, Met fragments l' l ∧ f ∈ fieldsAt l'.2 ∧ s ∈ f.integers

/-- It is met at the level itself or on the way down from a level below. -/
theorem integerMet_iff {fragments : Fragments} {l : List Text × List Selection} {s : Text} :
    IntegerMet fragments l s ↔
      (∃ f ∈ fieldsAt l.2, s ∈ f.integers) ∨ ∃ l', Below fragments l' l ∧
        IntegerMet fragments l' s := by
  constructor
  · rintro ⟨l', f, hmet, hf, hs⟩
    rcases Relation.ReflTransGen.cases_tail hmet with rfl | ⟨l'', hmet, hb⟩
    · exact .inl ⟨f, hf, hs⟩
    · exact .inr ⟨l'', hb, l', f, hmet, hf, hs⟩
  · rintro (⟨f, hf, hs⟩ | ⟨l'', hb, l', f, hmet, hf, hs⟩)
    · exact ⟨l, f, .refl, hf, hs⟩
    · exact ⟨l', f, hmet.tail hb, hf, hs⟩

/-! ## Building -/

variable {α : Type} [Scalar α] {config : LayoutConfig α} {fragments : Fragments}
  {expanding : List Text} {selections : List Selection}

theorem failsOn_leafArguments (fields : List Field) :
    FailsOn (fun s => ∃ f ∈ fields, s ∈ f.integers) (leafArguments fields) := by
  induction fields with
  | nil => exact (failsOn_ok []).congr (by simp)
  | cons f fs ih =>
    rw [leafArguments]
    split_ifs with hempty
    · rw [List.isEmpty_iff] at hempty
      exact ih.congr (by simp [Field.integers, hempty, integersOfFields])
    · refine ((failsOn_argumentRecord f.arguments).bind fun arguments => ih.map _).congr ?_
      simp [Field.integers]

theorem failsOn_leafGroup (config : LayoutConfig α) (fields : List Field) :
    FailsOn (fun s => ∃ f ∈ fields, s ∈ f.integers) (leafGroup config fields) := by
  unfold leafGroup
  split_ifs with hempty
  · rw [List.isEmpty_iff] at hempty
    exact (failsOn_ok []).congr (by simp [hempty])
  · exact (failsOn_leafArguments fields).map _

/-- What is met by a spread or an inline fragment, if `below` is met on levels below. -/
def metIn (fragments : Fragments) (below : List Text × List Selection → Text → Prop)
    (expanding : List Text) (i : Inclusion) (s : Text) : Prop :=
  match i with
  | .spread name => ∃ fragment, Record.get? fragments name = some fragment ∧ name ∉ expanding ∧
      below (name :: expanding, fragment.body) s
  | .inline _ body => below (expanding, body) s

theorem failsOn_inclusionTree (config : LayoutConfig α) {build : Builder α}
    {below : List Text × List Selection → Text → Prop}
    (h : ∀ l, Below fragments l (expanding, selections) →
      FailsOn (below l) (build l.1 l.2).outcome) {i : Inclusion}
    (hi : i ∈ inclusionsIn selections) :
    FailsOn (metIn fragments below expanding i)
      (inclusionTree config fragments build expanding i).outcome := by
  cases i with
  | inline condition body =>
    have hb := h (expanding, body) (.inline (inline_mem_inclusionsIn.1 hi))
    rw [inclusionTree, bind_pure_comp]
    exact hb.map_outcome _
  | spread name =>
    cases hf : Record.get? fragments name with
    | none =>
      rw [inclusionTree_of_unknown hf]
      rintro s ⟨fragment, hf', -⟩
      cases hf.symm.trans hf'
    | some fragment =>
      by_cases hn : name ∈ expanding
      · rw [inclusionTree_of_mem hf hn]
        rintro s ⟨fragment', -, hn', -⟩
        exact absurd hn hn'
      · have hb := h (name :: expanding, fragment.body)
          (.spread (spread_mem_inclusionsIn.1 hi) hf hn)
        rw [inclusionTree_of_not_mem hf hn]
        refine (hb.map_outcome _).congr fun s => ⟨fun hs => ⟨fragment, hf, hn, hs⟩, ?_⟩
        rintro ⟨fragment', hf', -, hs⟩
        obtain rfl := Option.some.inj (hf.symm.trans hf')
        exact hs

theorem failsOn_fieldTree (config : LayoutConfig α)
    {build : List Selection → Logged ConversionError (List (Tree α))} {met : Text → Prop}
    {f : Field × List Selection} (h : FailsOn met (build f.2).outcome) :
    FailsOn (fun s => met s ∨ s ∈ f.1.integers) (fieldTree config build f).outcome := by
  refine h.bind_outcome fun children => ?_
  have ha : FailsOn (· ∈ f.1.integers) (Logged.ofExcept (argumentRecord f.1.arguments)).outcome :=
    failsOn_argumentRecord f.1.arguments
  rw [bind_pure_comp]
  exact ha.map_outcome _

/-- The levels below are those of the fields, of the spreads and of the inline fragments. -/
theorem exists_below_iff {below : List Text × List Selection → Text → Prop} {s : Text} :
    (∃ l, Below fragments l (expanding, selections) ∧ below l s) ↔
      (∃ f ∈ nestedIn selections, below (expanding, f.2) s) ∨
        ∃ i ∈ inclusionsIn selections, metIn fragments below expanding i s := by
  constructor
  · rintro ⟨l, hb, hs⟩
    cases hb with
    | field h => exact .inl ⟨_, mem_nestedIn.2 h, hs⟩
    | inline h => exact .inr ⟨_, inline_mem_inclusionsIn.2 h, hs⟩
    | spread h hf hn => exact .inr ⟨_, spread_mem_inclusionsIn.2 h, _, hf, hn, hs⟩
  · rintro (⟨f, hf, hs⟩ | ⟨i, hi, hs⟩)
    · exact ⟨_, .field (mem_nestedIn.1 hf), hs⟩
    · cases i with
      | inline condition body => exact ⟨_, .inline (inline_mem_inclusionsIn.1 hi), hs⟩
      | spread name =>
        obtain ⟨fragment, hf, hn, hs⟩ := hs
        exact ⟨_, .spread (spread_mem_inclusionsIn.1 hi) hf hn, hs⟩

/-- A level fails on the integers of its own fields and on those that are met below it. -/
theorem failsOn_level {build : Builder α} {below : List Text × List Selection → Text → Prop}
    (h : ∀ l, Below fragments l (expanding, selections) →
      FailsOn (below l) (build l.1 l.2).outcome) :
    FailsOn (fun s => (∃ f ∈ fieldsAt selections, s ∈ f.integers) ∨
        ∃ l, Below fragments l (expanding, selections) ∧ below l s)
      (level config fragments build expanding selections).outcome := by
  have hgroup : FailsOn (fun s => ∃ f ∈ leaves selections, s ∈ f.integers)
      (Logged.ofExcept (leafGroup config (leaves selections))).outcome :=
    failsOn_leafGroup config (leaves selections)
  have hfields := failsOn_mapM (nestedIn selections) fun f hf =>
    failsOn_fieldTree config (h (expanding, f.2) (.field (mem_nestedIn.1 hf)))
  have hincluded := failsOn_mapM (inclusionsIn selections) fun i hi =>
    failsOn_inclusionTree config h hi
  have hlevel := hgroup.bind_outcome fun group => hfields.bind_outcome fun fields =>
    hincluded.map_outcome fun included => group ++ fields ++ included
  rw [level]
  simp only [bind_pure_comp]
  refine hlevel.congr fun s => ?_
  rw [exists_below_iff]
  constructor
  · rintro (⟨f, hf, hs⟩ | ⟨f, hf, hs | hs⟩ | hs)
    · exact .inl ⟨f, List.mem_append_left _ hf, hs⟩
    · exact .inr (.inl ⟨f, hf, hs⟩)
    · exact .inl ⟨f.1, List.mem_append_right _ (List.mem_map_of_mem hf), hs⟩
    · exact .inr (.inr hs)
  · rintro (⟨f, hf, hs⟩ | ⟨f, hf, hs⟩ | hs)
    · rcases List.mem_append.1 hf with hf | hf
      · exact .inl ⟨f, hf, hs⟩
      · obtain ⟨g, hg, rfl⟩ := List.mem_map.1 hf
        exact .inr (.inl ⟨g, hg, .inr hs⟩)
    · exact .inr (.inl ⟨f, hf, .inl hs⟩)
    · exact .inr (.inr hs)

/-- Building fails exactly on the integers that are met. -/
theorem failsOn_ofSelections (config : LayoutConfig α) (fragments : Fragments)
    (expanding : List Text) (selections : List Selection) :
    FailsOn (IntegerMet fragments (expanding, selections))
      (ofSelections config fragments expanding selections).outcome := by
  suffices ∀ l : List Text × List Selection, FailsOn (IntegerMet fragments l)
      (ofSelections config fragments l.1 l.2).outcome from this (expanding, selections)
  intro l
  induction l using (wellFounded_below fragments).induction with
  | _ l ih =>
    rw [ofSelections_eq_level]
    exact (failsOn_level ih).congr fun s => integerMet_iff.symm

/-! ## From the top -/

section Top

variable {f : Field} {name : Text} {s : Text}

/-- The field stands in the selections at any depth, or in a fragment that they reach. -/
def Uses (fragment? : Text → Option Fragment) (selections : List Selection) (f : Field) : Prop :=
  f ∈ fieldsIn selections ∨ ∃ name fragment, Reaches fragment? selections name ∧
    fragment? name = some fragment ∧ f ∈ fieldsIn fragment.body

theorem uses_leaf_iff {fragment? : Text → Option Fragment} {g : Field} :
    Uses fragment? [.leaf g] f ↔ f = g := by
  constructor
  · rintro (hf | ⟨name, fragment, hr, -⟩)
    · simpa [fieldsIn, Selection.fields] using hf
    · -- nothing is spread, so nothing is reached
      exact (hr.preserves (motive := fun _ => False) (by simp [spreadsIn, Selection.spreads])
        fun _ _ h => h.elim).elim
  · rintro rfl
    exact .inl (by simp [fieldsIn, Selection.fields])

theorem mem_fieldsIn_of_mem_fieldsAt (h : f ∈ fieldsAt selections) : f ∈ fieldsIn selections := by
  rw [mem_fieldsIn]
  rcases mem_fieldsAt.1 h with h | ⟨body, h⟩
  · exact ⟨_, h, by simp [Selection.fields]⟩
  · exact ⟨_, h, by simp [Selection.fields]⟩

/-- What a level met on the way down from the top selects is used, and what it spreads is
reached. -/
theorem Met.used {l : List Text × List Selection} (h : Met fragments l ([], selections)) :
    (∀ f ∈ fieldsIn l.2, Uses fragments.get? selections f) ∧
      ∀ name ∈ spreadsIn l.2, Reaches fragments.get? selections name := by
  induction h using Relation.ReflTransGen.head_induction_on with
  | refl => exact ⟨fun _ hf => .inl hf, fun _ hn => .spread hn⟩
  | head hb _ ih =>
    obtain ⟨hfields, hspreads⟩ := ih
    cases hb with
    | field h =>
      exact ⟨fun f hf => hfields f (mem_fieldsIn.2 ⟨_, h, by simp [Selection.fields, hf]⟩),
        fun n hn => hspreads n (mem_spreadsIn.2 ⟨_, h, by rwa [Selection.spreads]⟩)⟩
    | inline h =>
      exact ⟨fun f hf => hfields f (mem_fieldsIn.2 ⟨_, h, by rwa [Selection.fields]⟩),
        fun n hn => hspreads n (mem_spreadsIn.2 ⟨_, h, by rwa [Selection.spreads]⟩)⟩
    | @spread _ entered _ _ h hf _ =>
      have hr := hspreads entered (mem_spreadsIn.2 ⟨_, h, by simp [Selection.spreads]⟩)
      exact ⟨fun f hmem => .inr ⟨_, _, hr, hf, hmem⟩, fun n hn => hr.through hf hn⟩

theorem exists_met_of_mem_fieldsIn (l : List Text × List Selection) (h : f ∈ fieldsIn l.2) :
    ∃ l', Met fragments l' l ∧ f ∈ fieldsAt l'.2 := by
  induction l using (wellFounded_below fragments).induction with
  | _ l ih =>
    obtain ⟨s, hs, hf⟩ := mem_fieldsIn.1 h
    cases s with
    | spread name => simp [Selection.fields] at hf
    | leaf g =>
      obtain rfl : f = g := by simpa [Selection.fields] using hf
      exact ⟨l, .refl, mem_fieldsAt.2 (.inl hs)⟩
    | nested g body =>
      rw [Selection.fields, List.mem_cons] at hf
      rcases hf with rfl | hf
      · exact ⟨l, .refl, mem_fieldsAt.2 (.inr ⟨body, hs⟩)⟩
      · obtain ⟨l', hl, hm⟩ := ih (l.1, body) (.field hs) hf
        exact ⟨l', hl.tail (.field hs), hm⟩
    | inline condition body =>
      rw [Selection.fields] at hf
      obtain ⟨l', hl, hm⟩ := ih (l.1, body) (.inline hs) hf
      exact ⟨l', hl.tail (.inline hs), hm⟩

/-- A fragment that is spread on the way down from the top is entered there or was before. -/
theorem exists_met_body_of_spread {l : List Text × List Selection} {fragment : Fragment}
    (hl : Met fragments l ([], selections)) (hs : .spread name ∈ l.2)
    (hf : Record.get? fragments name = some fragment) :
    ∃ expanding, Met fragments (name :: expanding, fragment.body) ([], selections) := by
  by_cases hn : name ∈ l.1
  · obtain ⟨expanding, fragment', hf', hmet⟩ := (hl.mem_or_entered hn).resolve_left (by simp)
    obtain rfl := Option.some.inj (hf.symm.trans hf')
    exact ⟨expanding, hmet⟩
  · exact ⟨l.1, hl.head (.spread hs hf hn)⟩

/-- Every fragment that is reached from the top is entered on the way down. -/
theorem exists_met_body_of_reaches (hr : Reaches fragments.get? selections name)
    {fragment : Fragment} (hf : Record.get? fragments name = some fragment) :
    ∃ expanding, Met fragments (name :: expanding, fragment.body) ([], selections) := by
  induction hr generalizing fragment with
  | spread h =>
    obtain ⟨l, hl, hs⟩ := exists_met_of_mem_spreadsIn fragments ([], selections) h
    exact exists_met_body_of_spread hl hs hf
  | through _ hf' h ih =>
    obtain ⟨expanding, hmet⟩ := ih hf'
    obtain ⟨l, hl, hs⟩ := exists_met_of_mem_spreadsIn fragments (_ :: expanding, _) h
    exact exists_met_body_of_spread (hl.trans hmet) hs hf

/-- From the top the integers are met of the fields that are used. -/
theorem integerMet_top_iff :
    IntegerMet fragments ([], selections) s ↔
      ∃ f, Uses fragments.get? selections f ∧ s ∈ f.integers := by
  constructor
  · rintro ⟨l, f, hl, hf, hs⟩
    exact ⟨f, hl.used.1 f (mem_fieldsIn_of_mem_fieldsAt hf), hs⟩
  · rintro ⟨f, hf | ⟨name, fragment, hr, hget, hf⟩, hs⟩
    · obtain ⟨l, hl, hm⟩ := exists_met_of_mem_fieldsIn ([], selections) hf
      exact ⟨l, f, hl, hm, hs⟩
    · obtain ⟨expanding, hmet⟩ := exists_met_body_of_reaches hr hget
      obtain ⟨l, hl, hm⟩ := exists_met_of_mem_fieldsIn (name :: expanding, fragment.body) hf
      exact ⟨l, f, hl.trans hmet, hm, hs⟩

end Top

end Tree

end QueryDiagram
