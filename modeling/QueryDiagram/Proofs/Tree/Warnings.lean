import QueryDiagram.Proofs.GraphQL.Names
import QueryDiagram.Proofs.Tree.Numbering

/-!
# Warnings of built trees

A spread that is not expanded shows which warning was given for it (`spreadWarning?`). Nothing else
is labelled like it, as the names in a document have no spaces. The builder meets its levels in the
order of a reader, so what it warns of is what the trees that it built tell in that order
(`tells_ofSelections`).
-/

namespace QueryDiagram

open GraphQL

/-! ## Labels that tell of a warning -/

/-- The warning that stands behind a label. -/
def spreadWarning? (label name : Text) : Option Warning :=
  if label = Tree.unknownLabel then some (.unknownSpread name)
  else if label = Tree.recursiveLabel then some (.recursiveSpread name)
  else none

/-- The warning of which the node tells. -/
def Node.warning? {α : Type} (n : Node α) : Option Warning := spreadWarning? n.label n.data.name

/-- The warning of which the node of a card tells. -/
def Card.warning? {α : Type} (c : Card α) : Option Warning :=
  spreadWarning? c.displayLabel c.data.name

/-- A label with a mark that neither of the two labels has. -/
theorem spreadWarning?_of_mem {label : Text} {c : CodePoint} (h : c ∈ label)
    (hu : c ∉ Tree.unknownLabel) (hr : c ∉ Tree.recursiveLabel) (name : Text) :
    spreadWarning? label name = none := by
  have hne : label ≠ Tree.unknownLabel := fun e => hu (e ▸ h)
  have hne' : label ≠ Tree.recursiveLabel := fun e => hr (e ▸ h)
  rw [spreadWarning?, if_neg hne, if_neg hne']

/-- Both labels have a space, and a name has none. -/
theorem spreadWarning?_of_isName {label : Text} (h : IsName label) (name : Text) :
    spreadWarning? label name = none := by
  have hspace : CodePoint.scalar ' ' ∉ label := h.not_mem (by decide)
  have hne : label ≠ Tree.unknownLabel := fun e => hspace (e ▸ by decide)
  have hne' : label ≠ Tree.recursiveLabel := fun e => hspace (e ▸ by decide)
  rw [spreadWarning?, if_neg hne, if_neg hne']

/-- A group is labelled with a name, or with several and commas between them. -/
theorem spreadWarning?_join {names : List Text} (hne : names ≠ []) (h : ∀ n ∈ names, IsName n)
    (name : Text) : spreadWarning? (Text.join ", " names) name = none := by
  match names, hne with
  | [n], _ =>
    have hjoin : Text.join ", " [n] = n := by simp [Text.join]
    rw [hjoin]
    exact spreadWarning?_of_isName (h n List.mem_cons_self) name
  | n :: n' :: rest, _ =>
    have hcomma : CodePoint.scalar ',' ∈ Text.join ", " (n :: n' :: rest) := by
      simp [Text.join, Text.ofString]
    exact spreadWarning?_of_mem hcomma (by decide) (by decide) name

theorem spreadWarning?_inlineName (condition : Option Text) (name : Text) :
    spreadWarning? (Tree.inlineName condition) name = none := by
  have hdot : CodePoint.scalar '.' ∈ Tree.inlineName condition := by
    cases condition <;> simp [Tree.inlineName, Text.ofString]
  exact spreadWarning?_of_mem hdot (by decide) (by decide) name

namespace Tree

/-! ## What trees tell -/

section Told

variable {α : Type}

/-- The warnings of which a tree tells, in the order of a reader. -/
def told (t : Tree α) : List Warning := t.subtrees.filterMap fun s => s.card.warning?

/-- The warnings of which a row of trees tells, in the order of a reader. -/
def toldOf (row : List (Tree α)) : List Warning :=
  (subtreesOf row).filterMap fun s => s.card.warning?

theorem told_node (card : Card α) (children : List (Tree α)) :
    (node card children).told = card.warning?.toList ++ toldOf children := by
  rw [told, subtrees, List.filterMap_cons, toldOf]
  cases hc : card.warning? <;> simp [Tree.card, hc]

theorem told_node_of_none {card : Card α}
    (h : spreadWarning? card.displayLabel card.data.name = none) (children : List (Tree α)) :
    (node card children).told = toldOf children := by
  rw [told_node, Card.warning?, h, Option.toList_none, List.nil_append]

theorem toldOf_eq_flatMap (row : List (Tree α)) : toldOf row = row.flatMap told := by
  induction row with
  | nil => simp [toldOf]
  | cons t ts ih => rw [toldOf, subtreesOf, List.filterMap_append, List.flatMap_cons, ← ih]; rfl

@[simp]
theorem toldOf_append (row row' : List (Tree α)) :
    toldOf (row ++ row') = toldOf row ++ toldOf row' := by
  simp only [toldOf_eq_flatMap, List.flatMap_append]

@[simp]
theorem toldOf_nil : toldOf ([] : List (Tree α)) = [] := by simp [toldOf]

/-- The nodes of a row tell of the same warnings as its trees. -/
theorem filterMap_warning_placeFrom [Scalar α] (plan : Plan α) (parent : Option Text)
    (y left bottom : α) (serial : Nat) (row : List (Tree α)) :
    (placeFrom plan parent y left bottom serial row).nodes.filterMap Node.warning? =
      toldOf row := by
  have h := congrArg (List.filterMap fun c => spreadWarning? c.2.1 c.2.2.name)
    (contents_placeFrom plan parent y left bottom serial row)
  rw [List.filterMap_map, List.filterMap_map] at h
  exact h

end Told

variable {α : Type} [Scalar α] {config : LayoutConfig α} {fragments : Fragments}
  {expanding : List Text} {selections : List Selection}

/-! ## Single nodes -/

theorem told_fieldNode {field : Field} (h : IsName field.name) (arguments : Record Json)
    (children : List (Tree α)) :
    (fieldNode config field arguments children).told = toldOf children := by
  rw [fieldNode, told_node_of_none]
  exact spreadWarning?_of_isName h field.name

theorem told_fragmentNode {name : Text} (h : spreadWarning? name name = none)
    (children : List (Tree α)) :
    (fragmentNode config name children).told = toldOf children := by
  rw [fragmentNode, told_node_of_none]
  exact h

omit [Scalar α] in
theorem told_closedSpread (name label : Text) :
    (closedSpread config name label).told = (spreadWarning? label name).toList := by
  rw [closedSpread, told_node, toldOf_nil, List.append_nil]
  rfl

theorem toldOf_leafGroup {fields : List Field} {group : List (Tree α)}
    (h : leafGroup config fields = .ok group) (hn : ∀ f ∈ fields, IsName f.name) :
    toldOf group = [] := by
  rw [toldOf_eq_flatMap, List.flatMap_eq_nil_iff]
  intro t ht
  obtain ⟨hne, arguments, rfl⟩ := eq_groupNode_of_mem_leafGroup h ht
  have hnames : ∀ n ∈ fields.map Field.name, IsName n := by simpa using hn
  rw [groupNode, told_node_of_none, toldOf_nil]
  exact spreadWarning?_join (by simpa using hne) hnames "Fields"

/-! ## Steps of the builder -/

/-- If the computation succeeds, then it has warned of what its result tells. -/
def Tells {ε β : Type} (a : Logged ε β) (told : β → List Warning) : Prop :=
  ∀ v, a.outcome = .ok v → a.warnings = told v

section Rules

variable {ε β γ : Type} {told : β → List Warning}

theorem Tells.map {a : Logged ε β} (h : Tells a told) {f : β → γ} {told' : γ → List Warning}
    (hf : ∀ v, told' (f v) = told v) : Tells (f <$> a) told' := by
  intro w hw
  rw [← bind_pure_comp] at hw
  obtain ⟨v, hv, hw⟩ := Logged.outcome_bind_eq_ok_iff.1 hw
  obtain rfl := Except.ok.inj hw
  rw [Logged.warnings_map, hf, h v hv]

theorem tells_mapM {f : γ → Logged ε β} {xs : List γ} (h : ∀ x ∈ xs, Tells (f x) told) :
    Tells (xs.mapM f) fun vs => vs.flatMap told := by
  induction xs with
  | nil =>
    intro vs hvs
    obtain rfl : [] = vs := Except.ok.inj hvs
    rfl
  | cons x xs ih =>
    intro vs hvs
    rw [List.mapM_cons] at hvs ⊢
    obtain ⟨v, hv, hvs⟩ := Logged.outcome_bind_eq_ok_iff.1 hvs
    obtain ⟨vs', hvs', hvs⟩ := Logged.outcome_bind_eq_ok_iff.1 hvs
    obtain rfl := Except.ok.inj hvs
    have htail := ih (fun y hy => h y (List.mem_cons_of_mem _ hy)) vs' hvs'
    rw [Logged.warnings_bind_of_ok hv, Logged.warnings_bind_of_ok hvs', Logged.warnings_pure,
      List.append_nil, h x List.mem_cons_self v hv, htail]
    simp only [List.flatMap_cons]

end Rules

theorem tells_fieldTree {build : List Selection → Logged ConversionError (List (Tree α))}
    {field : Field × List Selection} (h : Tells (build field.2) toldOf)
    (hn : IsName field.1.name) : Tells (fieldTree config build field) told := by
  intro t ht
  obtain ⟨children, hc, ht⟩ := Logged.outcome_bind_eq_ok_iff.1 ht
  obtain ⟨arguments, ha, ht⟩ := Logged.outcome_bind_eq_ok_iff.1 ht
  obtain rfl := Except.ok.inj ht
  rw [fieldTree, Logged.warnings_bind_of_ok hc, Logged.warnings_bind_of_ok ha,
    Logged.warnings_ofExcept, Logged.warnings_pure, h children hc, told_fieldNode hn]
  simp

theorem tells_inclusionTree {build : Builder α}
    (h : ∀ l, Below fragments l (expanding, selections) → Tells (build l.1 l.2) toldOf)
    (hn : Named selections) {i : Inclusion} (hi : i ∈ inclusionsIn selections) :
    Tells (inclusionTree config fragments build expanding i) told := by
  cases i with
  | inline condition body =>
    have hb := h (expanding, body) (.inline (inline_mem_inclusionsIn.1 hi))
    rw [inclusionTree, bind_pure_comp]
    exact hb.map fun row => told_fragmentNode (spreadWarning?_inlineName condition _) row
  | spread name =>
    have hs := spread_mem_inclusionsIn.1 hi
    have hname : IsName name := hn.2 name (mem_spreadsIn.2 ⟨_, hs, by simp [Selection.spreads]⟩)
    cases hf : Record.get? fragments name with
    | none =>
      rw [inclusionTree_of_unknown hf]
      rintro t ht
      obtain rfl : closedSpread config name unknownLabel = t := Except.ok.inj ht
      rw [told_closedSpread]
      rfl
    | some fragment =>
      by_cases hm : name ∈ expanding
      · rw [inclusionTree_of_mem hf hm]
        rintro t ht
        obtain rfl : closedSpread config name recursiveLabel = t := Except.ok.inj ht
        rw [told_closedSpread]
        rfl
      · have hb := h (name :: expanding, fragment.body) (.spread hs hf hm)
        rw [inclusionTree_of_not_mem hf hm]
        exact hb.map fun row => told_fragmentNode (spreadWarning?_of_isName hname name) row

/-- A level warns as the levels below it do, in the order in which it shows them. -/
theorem tells_level {build : Builder α}
    (h : ∀ l, Below fragments l (expanding, selections) → Tells (build l.1 l.2) toldOf)
    (hn : Named selections) :
    Tells (level config fragments build expanding selections) toldOf := by
  have hleaf : ∀ f ∈ leaves selections, IsName f.name := fun f hf =>
    hn.1 f (mem_fieldsIn_of_mem_fieldsAt (List.mem_append_left _ hf))
  have hfields : Tells ((nestedIn selections).mapM (fieldTree config (build expanding)))
      fun row => row.flatMap told := by
    refine tells_mapM fun f hf => ?_
    have hname : IsName f.1.name := hn.1 f.1
      (mem_fieldsIn_of_mem_fieldsAt (List.mem_append_right _ (List.mem_map_of_mem hf)))
    exact tells_fieldTree (h (expanding, f.2) (.field (mem_nestedIn.1 hf))) hname
  have hincluded : Tells ((inclusionsIn selections).mapM
      (inclusionTree config fragments build expanding)) fun row => row.flatMap told :=
    tells_mapM fun i hi => tells_inclusionTree h hn hi
  intro row hrow
  obtain ⟨group, hg, hrow⟩ := Logged.outcome_bind_eq_ok_iff.1 hrow
  obtain ⟨fields, hf, hrow⟩ := Logged.outcome_bind_eq_ok_iff.1 hrow
  obtain ⟨included, hi, hrow⟩ := Logged.outcome_bind_eq_ok_iff.1 hrow
  obtain rfl := Except.ok.inj hrow
  rw [level, Logged.warnings_bind_of_ok hg, Logged.warnings_bind_of_ok hf,
    Logged.warnings_bind_of_ok hi, Logged.warnings_ofExcept, Logged.warnings_pure,
    hfields fields hf, hincluded included hi, toldOf_append, toldOf_append,
    toldOf_leafGroup hg hleaf, toldOf_eq_flatMap fields, toldOf_eq_flatMap included]
  simp

/-! ## The result -/

/-- The selections of every fragment call their fields and spreads by names. -/
def NamedBodies (fragments : Fragments) : Prop :=
  ∀ name fragment, Record.get? fragments name = some fragment → Named fragment.body

/-- With the names of a level and of the fragments those of the levels below it are names. -/
theorem Below.named {l l' : List Text × List Selection} (h : Below fragments l l')
    (hf : NamedBodies fragments) (hn : Named l'.2) : Named l.2 := by
  cases h with
  | field hs =>
    refine ⟨fun f hm => hn.1 f (mem_fieldsIn.2 ⟨_, hs, by simp [Selection.fields, hm]⟩), ?_⟩
    exact fun n hm => hn.2 n (mem_spreadsIn.2 ⟨_, hs, by rwa [Selection.spreads]⟩)
  | inline hs =>
    refine ⟨fun f hm => hn.1 f (mem_fieldsIn.2 ⟨_, hs, by rwa [Selection.fields]⟩), ?_⟩
    exact fun n hm => hn.2 n (mem_spreadsIn.2 ⟨_, hs, by rwa [Selection.spreads]⟩)
  | spread _ hget _ => exact hf _ _ hget

/-- The builder warns of what the trees that it gives tell, in the order of a reader. -/
theorem tells_ofSelections (config : LayoutConfig α) (hf : NamedBodies fragments)
    (expanding : List Text) (hn : Named selections) :
    Tells (ofSelections config fragments expanding selections) toldOf := by
  suffices ∀ l : List Text × List Selection, Named l.2 →
      Tells (ofSelections config fragments l.1 l.2) toldOf from this (expanding, selections) hn
  intro l
  induction l using (wellFounded_below fragments).induction with
  | _ l ih =>
    intro hl
    rw [ofSelections_eq_level]
    exact tells_level (fun l' hb => ih l' hb (hb.named hf hl)) hl

end Tree

end QueryDiagram
