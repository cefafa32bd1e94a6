import Mathlib.Order.WellFounded
import QueryDiagram.Proofs.Logged
import QueryDiagram.Proofs.Tree.Preorder
import QueryDiagram.Tree.Selection

/-!
# Levels of the selection tree

A level of the tree, given as the fragments being expanded and the selections, is built from the
levels of what it selects (`Below`). The relation is well founded whatever the fragments spread
(`wellFounded_below`), and one step of the builder (`level`) over its own results is the builder
(`ofSelections_eq_level`). Hence a property of built trees follows from one statement about a
single level (`built_induction`).
-/

namespace QueryDiagram

open GraphQL

namespace Tree

/-! ## Parts of a level -/

/-- A spread, or an inline fragment with its condition and selections. -/
inductive Inclusion where
  | spread (name : Text)
  | inline (condition : Option Text) (body : List Selection)

/-- The fields with selections of their own. -/
def nestedIn (selections : List Selection) : List (Field × List Selection) :=
  selections.filterMap fun
    | .nested f body => some (f, body)
    | _ => none

/-- The spreads and inline fragments. -/
def inclusionsIn (selections : List Selection) : List Inclusion :=
  selections.filterMap fun
    | .spread name => some (.spread name)
    | .inline condition body => some (.inline condition body)
    | _ => none

variable {selections : List Selection}

@[simp]
theorem mem_leaves {f : Field} : f ∈ leaves selections ↔ .leaf f ∈ selections := by
  simp only [leaves, List.mem_filterMap]
  constructor
  · rintro ⟨s, hs, h⟩
    cases s <;> simp_all
  · exact fun h => ⟨_, h, rfl⟩

@[simp]
theorem mem_nestedIn {f : Field} {body : List Selection} :
    (f, body) ∈ nestedIn selections ↔ .nested f body ∈ selections := by
  simp only [nestedIn, List.mem_filterMap]
  constructor
  · rintro ⟨s, hs, h⟩
    cases s <;> simp_all
  · exact fun h => ⟨_, h, rfl⟩

@[simp]
theorem spread_mem_inclusionsIn {name : Text} :
    .spread name ∈ inclusionsIn selections ↔ .spread name ∈ selections := by
  simp only [inclusionsIn, List.mem_filterMap]
  constructor
  · rintro ⟨s, hs, h⟩
    cases s <;> simp_all
  · exact fun h => ⟨_, h, rfl⟩

@[simp]
theorem inline_mem_inclusionsIn {condition : Option Text} {body : List Selection} :
    .inline condition body ∈ inclusionsIn selections ↔ .inline condition body ∈ selections := by
  simp only [inclusionsIn, List.mem_filterMap]
  constructor
  · rintro ⟨s, hs, h⟩
    cases s <;> simp_all
  · exact fun h => ⟨_, h, rfl⟩

/-! ## What a level is built from -/

/-- The level on the left is one from which the level on the right is built. -/
inductive Below (fragments : Fragments) :
    List Text × List Selection → List Text × List Selection → Prop
  | field {expanding f body selections} (h : .nested f body ∈ selections) :
      Below fragments (expanding, body) (expanding, selections)
  | inline {expanding condition body selections} (h : .inline condition body ∈ selections) :
      Below fragments (expanding, body) (expanding, selections)
  | spread {expanding name fragment selections} (h : .spread name ∈ selections)
      (hf : Record.get? fragments name = some fragment) (hn : name ∉ expanding) :
      Below fragments (name :: expanding, fragment.body) (expanding, selections)

/-- A level below has fewer fragments left to expand, or as many and smaller selections. -/
theorem Below.decreases {fragments : Fragments} {l l' : List Text × List Selection}
    (h : Below fragments l l') :
    Prod.Lex (· < ·) (· < ·) (fragments.unexpanded l.1, sizeOf l.2)
      (fragments.unexpanded l'.1, sizeOf l'.2) := by
  cases h with
  | field h =>
    have := List.sizeOf_lt_of_mem h
    refine Prod.Lex.right _ ?_
    simp only [Selection.nested.sizeOf_spec] at this ⊢
    omega
  | inline h =>
    have := List.sizeOf_lt_of_mem h
    refine Prod.Lex.right _ ?_
    simp only [Selection.inline.sizeOf_spec] at this ⊢
    omega
  | spread h hf hn => exact Prod.Lex.left _ _ (Fragments.unexpanded_cons_lt hf hn)

theorem wellFounded_below (fragments : Fragments) : WellFounded (Below fragments) :=
  Subrelation.wf (fun h => h.decreases)
    (InvImage.wf (fun l : List Text × List Selection => (fragments.unexpanded l.1, sizeOf l.2))
      (Prod.lex Nat.lt_wfRel Nat.lt_wfRel).wf)

/-! ## One step of the builder -/

variable {α : Type} [Scalar α]

/-- What gives the row of a level: the fragments being expanded and the selections. -/
abbrev Builder (α : Type) : Type :=
  List Text → List Selection → Logged ConversionError (List (Tree α))

/-- The tree of a field, its selections being built by `build`. -/
def fieldTree (config : LayoutConfig α)
    (build : List Selection → Logged ConversionError (List (Tree α)))
    (field : Field × List Selection) : Logged ConversionError (Tree α) := do
  let children ← build field.2
  let arguments ← Logged.ofExcept (argumentRecord field.1.arguments)
  return fieldNode config field.1 arguments children

/-- The tree of a spread or an inline fragment, the levels below being built by `build`. -/
def inclusionTree (config : LayoutConfig α) (fragments : Fragments) (build : Builder α)
    (expanding : List Text) : Inclusion → Logged ConversionError (Tree α)
  | .spread name =>
    match Record.get? fragments name with
    | none => do
      Logged.warn (.unknownSpread name)
      return closedSpread config name unknownLabel
    | some fragment =>
      if expanding.contains name then do
        Logged.warn (.recursiveSpread name)
        return closedSpread config name recursiveLabel
      else return fragmentNode config name (← build (name :: expanding) fragment.body)
  | .inline condition body =>
    return fragmentNode config (inlineName condition) (← build expanding body)

section Spread

variable {config : LayoutConfig α} {fragments : Fragments} {build : Builder α}
  {expanding : List Text} {name : Text} {fragment : Fragment}

theorem inclusionTree_of_unknown (hf : Record.get? fragments name = none) :
    inclusionTree config fragments build expanding (.spread name) = do
      Logged.warn (.unknownSpread name)
      return closedSpread config name unknownLabel := by
  rw [inclusionTree, hf]

theorem inclusionTree_of_mem (hf : Record.get? fragments name = some fragment)
    (hn : name ∈ expanding) :
    inclusionTree config fragments build expanding (.spread name) = do
      Logged.warn (.recursiveSpread name)
      return closedSpread config name recursiveLabel := by
  simp only [inclusionTree, hf, List.contains_iff_mem.2 hn, if_true]

theorem inclusionTree_of_not_mem (hf : Record.get? fragments name = some fragment)
    (hn : name ∉ expanding) :
    inclusionTree config fragments build expanding (.spread name) =
      fragmentNode config name <$> build (name :: expanding) fragment.body := by
  simp only [inclusionTree, hf, List.contains_iff_mem, hn, if_false, bind_pure_comp]

end Spread

/-- The row of a level, the levels below being built by `build`. -/
def level (config : LayoutConfig α) (fragments : Fragments) (build : Builder α) : Builder α :=
  fun expanding selections => do
    let group ← Logged.ofExcept (leafGroup config (leaves selections))
    let fields ← (nestedIn selections).mapM (fieldTree config (build expanding))
    let included ← (inclusionsIn selections).mapM
      (inclusionTree config fragments build expanding)
    return group ++ fields ++ included

theorem ofNested_eq_mapM (config : LayoutConfig α) (fragments : Fragments)
    (expanding : List Text) (selections : List Selection) :
    ofNested config fragments expanding selections =
      (nestedIn selections).mapM
        (fieldTree config (ofSelections config fragments expanding)) := by
  induction selections with
  | nil => simp [ofNested, nestedIn]
  | cons s rest ih =>
    cases s <;> rw [ofNested]
    case nested f body =>
      simp only [ih, nestedIn, List.filterMap_cons, List.mapM_cons, fieldTree, bind_assoc,
        pure_bind]
    all_goals simp [ih, nestedIn]

theorem ofSpread_eq_inclusionTree (config : LayoutConfig α) (fragments : Fragments)
    (expanding : List Text) (name : Text) :
    ofSpread config fragments expanding name =
      inclusionTree config fragments (ofSelections config fragments) expanding
        (.spread name) := by
  rw [ofSpread]
  split
  · rename_i hf
    exact (inclusionTree_of_unknown hf).symm
  · rename_i fragment hf
    split_ifs with hn
    · exact (inclusionTree_of_mem hf hn).symm
    · rw [inclusionTree_of_not_mem hf hn, bind_pure_comp]

theorem ofFragments_eq_mapM (config : LayoutConfig α) (fragments : Fragments)
    (expanding : List Text) (selections : List Selection) :
    ofFragments config fragments expanding selections =
      (inclusionsIn selections).mapM
        (inclusionTree config fragments (ofSelections config fragments) expanding) := by
  induction selections with
  | nil => simp [ofFragments, inclusionsIn]
  | cons s rest ih =>
    cases s <;> rw [ofFragments]
    case spread name =>
      simp only [ih, ofSpread_eq_inclusionTree, inclusionsIn, List.filterMap_cons, List.mapM_cons]
    case inline condition body =>
      simp only [ih, inclusionsIn, List.filterMap_cons, List.mapM_cons, inclusionTree, bind_assoc,
        pure_bind]
    all_goals simp [ih, inclusionsIn]

/-- The builder is one step of itself. -/
theorem ofSelections_eq_level (config : LayoutConfig α) (fragments : Fragments)
    (expanding : List Text) (selections : List Selection) :
    ofSelections config fragments expanding selections =
      level config fragments (ofSelections config fragments) expanding selections := by
  rw [ofSelections, ofNested_eq_mapM, ofFragments_eq_mapM]
  rfl

section Congruence

variable {config : LayoutConfig α} {fragments : Fragments} {build build' : Builder α}
  {expanding : List Text} {selections : List Selection}

/-- A level depends on the levels below it and on no others. -/
theorem level_congr
    (h : ∀ l, Below fragments l (expanding, selections) → build l.1 l.2 = build' l.1 l.2) :
    level config fragments build expanding selections =
      level config fragments build' expanding selections := by
  have hf : ∀ f ∈ nestedIn selections,
      fieldTree config (build expanding) f = fieldTree config (build' expanding) f := by
    intro f hf
    rw [fieldTree, fieldTree, h (expanding, f.2) (.field (mem_nestedIn.1 hf))]
  have hi : ∀ i ∈ inclusionsIn selections,
      inclusionTree config fragments build expanding i =
        inclusionTree config fragments build' expanding i := by
    intro i hi
    cases i with
    | spread name =>
      cases hg : Record.get? fragments name with
      | none => rw [inclusionTree_of_unknown hg, inclusionTree_of_unknown hg]
      | some fragment =>
        by_cases hn : name ∈ expanding
        · rw [inclusionTree_of_mem hg hn, inclusionTree_of_mem hg hn]
        · rw [inclusionTree_of_not_mem hg hn, inclusionTree_of_not_mem hg hn,
            h (name :: expanding, fragment.body)
              (.spread (spread_mem_inclusionsIn.1 hi) hg hn)]
    | inline condition body =>
      rw [inclusionTree, inclusionTree,
        h (expanding, body) (.inline (inline_mem_inclusionsIn.1 hi))]
  unfold level
  rw [Logged.mapM_congr hf, Logged.mapM_congr hi]

/-- The recursion of the builder has no other solution. -/
theorem eq_ofSelections_of_eq_level
    (h : ∀ expanding selections,
      build expanding selections = level config fragments build expanding selections)
    (expanding : List Text) (selections : List Selection) :
    build expanding selections = ofSelections config fragments expanding selections := by
  suffices ∀ l : List Text × List Selection,
      build l.1 l.2 = ofSelections config fragments l.1 l.2 from this (expanding, selections)
  intro l
  induction l using (wellFounded_below fragments).induction with
  | _ l ih => rw [h, ofSelections_eq_level, level_congr ih]

end Congruence

/-! ## Rows that are built -/

/-- The group of some leaves with their arguments. -/
def groupNode (config : LayoutConfig α) (fields : List Field) (arguments : Option (Record Json)) :
    Tree α :=
  .node
    { kind := .fieldGroup
      data :=
        { name := "Fields", fieldType := some "fieldGroup",
          fields := some (fields.map Field.name), arguments }
      width :=
        Scalar.larger config.minNodeWidth (Scalar.ofNat fields.length * config.fieldSlotWidth) }
    []

theorem eq_groupNode_of_mem_leafGroup {config : LayoutConfig α} {fields : List Field}
    {group : List (Tree α)} {t : Tree α} (h : leafGroup config fields = .ok group)
    (ht : t ∈ group) : fields ≠ [] ∧ ∃ arguments, t = groupNode config fields arguments := by
  unfold leafGroup at h
  split_ifs at h with hf
  · obtain rfl := Except.ok.inj h
    simp at ht
  · cases ha : leafArguments fields with
    | error e => simp [ha, bind, Except.bind] at h
    | ok pairs =>
      rw [ha] at h
      obtain rfl := Except.ok.inj h
      exact ⟨by simpa using hf, _, List.mem_singleton.1 ht⟩

/-- How a field shows, where `rows` says which rows its selections have. -/
def FieldShown (config : LayoutConfig α) (rows : List Selection → List (Tree α) → Prop)
    (field : Field × List Selection) (t : Tree α) : Prop :=
  ∃ children arguments, rows field.2 children ∧
    argumentRecord field.1.arguments = .ok arguments ∧
    t = fieldNode config field.1 arguments children

/-- How a spread or an inline fragment shows, where `rows` says which rows a level has. -/
inductive InclusionShown (config : LayoutConfig α) (fragments : Fragments)
    (rows : List Text → List Selection → List (Tree α) → Prop) (expanding : List Text) :
    Inclusion → Tree α → Prop
  | unknown {name} (hf : Record.get? fragments name = none) :
      InclusionShown config fragments rows expanding (.spread name)
        (closedSpread config name unknownLabel)
  | recursive {name fragment} (hf : Record.get? fragments name = some fragment)
      (hn : name ∈ expanding) :
      InclusionShown config fragments rows expanding (.spread name)
        (closedSpread config name recursiveLabel)
  | expanded {name fragment children} (hf : Record.get? fragments name = some fragment)
      (hn : name ∉ expanding) (hr : rows (name :: expanding) fragment.body children) :
      InclusionShown config fragments rows expanding (.spread name)
        (fragmentNode config name children)
  | inline {condition body children} (hr : rows expanding body children) :
      InclusionShown config fragments rows expanding (.inline condition body)
        (fragmentNode config (inlineName condition) children)

/-- How a level shows, where `rows` says which rows the levels below it have. -/
inductive LevelShown (config : LayoutConfig α) (fragments : Fragments)
    (rows : List Text → List Selection → List (Tree α) → Prop) (expanding : List Text)
    (selections : List Selection) : List (Tree α) → Prop
  | intro {group fields included} (hg : leafGroup config (leaves selections) = .ok group)
      (hf : List.Forall₂ (FieldShown config (rows expanding)) (nestedIn selections) fields)
      (hi : List.Forall₂ (InclusionShown config fragments rows expanding)
        (inclusionsIn selections) included) :
      LevelShown config fragments rows expanding selections (group ++ fields ++ included)

section Said

variable {config : LayoutConfig α} {fragments : Fragments}
  {rows : List Text → List Selection → List (Tree α) → Prop} {expanding : List Text} {t : Tree α}
  {name : Text} {fragment : Fragment} {condition : Option Text} {body : List Selection}

/-! What a tree says about the selection that it shows. -/

theorem FieldShown.children {rows : List Selection → List (Tree α) → Prop}
    {field : Field × List Selection} (h : FieldShown config rows field t) :
    rows field.2 t.children := by
  obtain ⟨children, arguments, hc, -, rfl⟩ := h
  exact hc

theorem InclusionShown.children_of_inline
    (h : InclusionShown config fragments rows expanding (.inline condition body) t) :
    rows expanding body t.children := by
  cases h with
  | inline hr => exact hr

theorem InclusionShown.of_not_mem
    (h : InclusionShown config fragments rows expanding (.spread name) t)
    (hf : Record.get? fragments name = some fragment) (hn : name ∉ expanding) :
    rows (name :: expanding) fragment.body t.children ∧ t.card.label = none := by
  cases h with
  | unknown hf' => simp [hf'] at hf
  | recursive _ hn' => exact absurd hn' hn
  | expanded hf' _ hr =>
    obtain rfl := Option.some.inj (hf'.symm.trans hf)
    exact ⟨hr, rfl⟩

theorem InclusionShown.label_of_mem
    (h : InclusionShown config fragments rows expanding (.spread name) t)
    (hf : Record.get? fragments name = some fragment) (hn : name ∈ expanding) :
    t.card.label = some recursiveLabel := by
  cases h with
  | unknown hf' => simp [hf'] at hf
  | recursive _ _ => rfl
  | expanded _ hn' _ => exact absurd hn hn'

end Said

theorem exists_mem_of_forall₂ {β γ : Type} {r : β → γ → Prop} {xs : List β} {ys : List γ}
    (h : List.Forall₂ r xs ys) {y : γ} (hy : y ∈ ys) : ∃ x ∈ xs, r x y := by
  induction h with
  | nil => simp at hy
  | cons hr _ ih =>
    rcases List.mem_cons.1 hy with rfl | hy
    · exact ⟨_, List.mem_cons_self, hr⟩
    · obtain ⟨x, hx, h⟩ := ih hy
      exact ⟨x, List.mem_cons_of_mem _ hx, h⟩

section Shown

variable {config : LayoutConfig α} {fragments : Fragments} {build : Builder α}
  {expanding : List Text} {selections : List Selection}

theorem outcome_fieldTree_eq_ok_iff
    {build : List Selection → Logged ConversionError (List (Tree α))}
    {field : Field × List Selection} {t : Tree α} :
    (fieldTree config build field).outcome = .ok t ↔
      FieldShown config (fun body row => (build body).outcome = .ok row) field t := by
  simp only [fieldTree, FieldShown, Logged.outcome_bind_eq_ok_iff, Logged.outcome_ofExcept,
    Logged.outcome_pure, Except.ok.injEq]
  constructor
  · rintro ⟨children, hc, arguments, ha, rfl⟩
    exact ⟨children, arguments, hc, ha, rfl⟩
  · rintro ⟨children, arguments, hc, ha, rfl⟩
    exact ⟨children, hc, arguments, ha, rfl⟩

theorem outcome_inclusionTree_eq_ok_iff {i : Inclusion} {t : Tree α} :
    (inclusionTree config fragments build expanding i).outcome = .ok t ↔
      InclusionShown config fragments (fun e s row => (build e s).outcome = .ok row)
        expanding i t := by
  constructor
  · intro h
    cases i with
    | spread name =>
      cases hf : Record.get? fragments name with
      | none =>
        rw [inclusionTree_of_unknown hf] at h
        obtain rfl : closedSpread config name unknownLabel = t := Except.ok.inj h
        exact .unknown hf
      | some fragment =>
        by_cases hn : name ∈ expanding
        · rw [inclusionTree_of_mem hf hn] at h
          obtain rfl : closedSpread config name recursiveLabel = t := Except.ok.inj h
          exact .recursive hf hn
        · rw [inclusionTree_of_not_mem hf hn, ← bind_pure_comp] at h
          obtain ⟨children, hc, ht⟩ := Logged.outcome_bind_eq_ok_iff.1 h
          obtain rfl := Except.ok.inj ht
          exact .expanded hf hn hc
    | inline condition body =>
      obtain ⟨children, hc, ht⟩ := Logged.outcome_bind_eq_ok_iff.1 h
      obtain rfl := Except.ok.inj ht
      exact .inline hc
  · intro h
    cases h with
    | unknown hf =>
      rw [inclusionTree_of_unknown hf]
      rfl
    | recursive hf hn =>
      rw [inclusionTree_of_mem hf hn]
      rfl
    | expanded hf hn hr =>
      rw [inclusionTree_of_not_mem hf hn, ← bind_pure_comp]
      exact Logged.outcome_bind_eq_ok_iff.2 ⟨_, hr, rfl⟩
    | inline hr => exact Logged.outcome_bind_eq_ok_iff.2 ⟨_, hr, rfl⟩

theorem outcome_level_eq_ok_iff {row : List (Tree α)} :
    (level config fragments build expanding selections).outcome = .ok row ↔
      LevelShown config fragments (fun e s row => (build e s).outcome = .ok row)
        expanding selections row := by
  simp only [level, Logged.outcome_bind_eq_ok_iff, Logged.outcome_ofExcept,
    Logged.outcome_mapM_eq_ok_iff, outcome_fieldTree_eq_ok_iff, outcome_inclusionTree_eq_ok_iff,
    Logged.outcome_pure, Except.ok.injEq]
  constructor
  · rintro ⟨group, hg, fields, hf, included, hi, rfl⟩
    exact .intro hg hf hi
  · rintro ⟨hg, hf, hi⟩
    exact ⟨_, hg, _, hf, _, hi, rfl⟩

variable {rows rows' : List Text → List Selection → List (Tree α) → Prop}

theorem LevelShown.mono {row : List (Tree α)}
    (h : LevelShown config fragments rows expanding selections row)
    (hr : ∀ l, Below fragments l (expanding, selections) → ∀ row, rows l.1 l.2 row →
      rows' l.1 l.2 row) :
    LevelShown config fragments rows' expanding selections row := by
  obtain ⟨hg, hf, hi⟩ := h
  refine .intro hg ?_ ?_
  · refine List.Forall₂.imp ?_ ((List.forall₂_and_left _ _).2 ⟨fun _ h => h, hf⟩)
    rintro f t ⟨hm, children, arguments, hc, ha, rfl⟩
    exact ⟨children, arguments, hr (expanding, f.2) (.field (mem_nestedIn.1 hm)) _ hc, ha, rfl⟩
  · refine List.Forall₂.imp ?_ ((List.forall₂_and_left _ _).2 ⟨fun _ h => h, hi⟩)
    rintro i t ⟨hm, h⟩
    cases h with
    | unknown hf => exact .unknown hf
    | recursive hf hn => exact .recursive hf hn
    | expanded hf hn hc =>
      exact .expanded hf hn (hr (_, _) (.spread (spread_mem_inclusionsIn.1 hm) hf hn) _ hc)
    | inline hc => exact .inline (hr (_, _) (.inline (inline_mem_inclusionsIn.1 hm)) _ hc)

/-- Every tree of a row is a group of leaves, or shows a field, a spread or an inline fragment. -/
theorem LevelShown.cases_of_mem {row : List (Tree α)} {t : Tree α}
    (h : LevelShown config fragments rows expanding selections row) (ht : t ∈ row) :
    (∃ f arguments, .leaf f ∈ selections ∧ t = groupNode config (leaves selections) arguments) ∨
      (∃ f body, .nested f body ∈ selections ∧ FieldShown config (rows expanding) (f, body) t) ∨
      ∃ i ∈ inclusionsIn selections, InclusionShown config fragments rows expanding i t := by
  obtain ⟨hg, hf, hi⟩ := h
  rw [List.append_assoc, List.mem_append, List.mem_append] at ht
  rcases ht with ht | ht | ht
  · obtain ⟨hne, arguments, rfl⟩ := eq_groupNode_of_mem_leafGroup hg ht
    obtain ⟨f, hf⟩ := List.exists_mem_of_ne_nil _ hne
    exact .inl ⟨f, arguments, mem_leaves.1 hf, rfl⟩
  · obtain ⟨⟨f, body⟩, hm, h⟩ := exists_mem_of_forall₂ hf ht
    exact .inr (.inl ⟨f, body, mem_nestedIn.1 hm, h⟩)
  · obtain ⟨i, hm, h⟩ := exists_mem_of_forall₂ hi ht
    exact .inr (.inr ⟨i, hm, h⟩)

/-- What holds of a row whenever it holds of the rows below it holds of every row that is
built. -/
theorem built_induction {motive : List Text → List Selection → List (Tree α) → Prop}
    (step : ∀ expanding selections row,
      LevelShown config fragments motive expanding selections row →
        motive expanding selections row)
    {row : List (Tree α)}
    (h : (ofSelections config fragments expanding selections).outcome = .ok row) :
    motive expanding selections row := by
  suffices ∀ l : List Text × List Selection, ∀ row : List (Tree α),
      (ofSelections config fragments l.1 l.2).outcome = .ok row → motive l.1 l.2 row from
    this (expanding, selections) row h
  intro l
  induction l using (wellFounded_below fragments).induction with
  | _ l ih =>
    intro row h
    rw [ofSelections_eq_level, outcome_level_eq_ok_iff] at h
    exact step _ _ _ (h.mono fun l' hl' row hrow => ih l' hl' row hrow)

/-- What holds of every kind of tree that the builder makes holds at every place of a row. -/
theorem forall_subtreesOf_of_built {p : Tree α → Prop}
    (group : ∀ fields arguments, fields ≠ [] → p (groupNode config fields arguments))
    (field : ∀ f arguments children, p (fieldNode config f arguments children))
    (closed : ∀ name label, p (closedSpread config name label))
    (fragment : ∀ name children, p (fragmentNode config name children)) {row : List (Tree α)}
    (h : (ofSelections config fragments expanding selections).outcome = .ok row) :
    ∀ t ∈ subtreesOf row, p t := by
  refine built_induction (motive := fun _ _ row => ∀ t ∈ subtreesOf row, p t) ?_ h
  intro expanding selections row h s hs
  obtain ⟨t, ht, hs⟩ := mem_subtreesOf.1 hs
  rcases h.cases_of_mem ht with ⟨f, arguments, hf, rfl⟩ |
    ⟨f, body, hm, children, arguments, hc, -, rfl⟩ | ⟨i, hm, hi⟩
  · obtain rfl : s = groupNode config (leaves selections) arguments := by
      simpa [groupNode, subtrees] using hs
    exact group _ _ (List.ne_nil_of_mem (mem_leaves.2 hf))
  · rcases List.mem_cons.1 hs with rfl | hs
    · exact field _ _ _
    · exact hc s hs
  · cases hi with
    | unknown hf | recursive hf hn =>
      obtain rfl : s = closedSpread config _ _ := by simpa [closedSpread, subtrees] using hs
      exact closed _ _
    | expanded hf hn hc | inline hc =>
      rcases List.mem_cons.1 hs with rfl | hs
      · exact fragment _ _
      · exact hc s hs

end Shown

end Tree

end QueryDiagram
