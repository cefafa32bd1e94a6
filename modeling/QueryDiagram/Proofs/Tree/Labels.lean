import Mathlib
import QueryDiagram.Proofs.Json.Reading
import QueryDiagram.Proofs.Tree.Expansion
import QueryDiagram.Proofs.Tree.Occurrences

/-!
# Labels of fragments that are not expanded

The nodes of a row are made one by one from the parts of the selections, so an address in the tree
tells from what its node and the nodes above it are made (`sourcesAlong`). A spread has a label of
its own exactly if its fragment is not defined, or is one of those that are being expanded: those
from before, and those that the nodes above it are spreads of (`spreads_labelled`). A field or a
fragment has something below it otherwise.
-/

namespace QueryDiagram

open GraphQL

namespace GraphQL

/-! ## Selection sets without gaps -/

mutual

/-- Whether no selection set inside the selection is empty. -/
def Selection.isFilled : Selection → Bool
  | .leaf _ => true
  | .nested _ body => !body.isEmpty && allFilled body
  | .spread _ => true
  | .inline _ body => !body.isEmpty && allFilled body

/-- All the selections are filled. -/
def allFilled : List Selection → Bool
  | [] => true
  | s :: ss => s.isFilled && allFilled ss

end

/-- Whether the selection set is not empty, and none inside it is. -/
def isFilled (selections : List Selection) : Bool := !selections.isEmpty && allFilled selections

theorem allFilled_iff {selections : List Selection} :
    allFilled selections ↔ ∀ s ∈ selections, s.isFilled := by
  induction selections with
  | nil => simp [allFilled]
  | cons s ss ih => simp [allFilled, ih]

theorem ne_nil_of_isFilled {selections : List Selection} (h : isFilled selections) :
    selections ≠ [] := by
  rintro rfl
  simp [isFilled] at h

theorem isFilled_of_mem {selections : List Selection} (h : isFilled selections) {s : Selection}
    (hs : s ∈ selections) : s.isFilled := by
  rw [isFilled, Bool.and_eq_true] at h
  exact allFilled_iff.1 h.2 s hs

end GraphQL

namespace Tree

/-! ## What nodes are made from -/

/-- What a node of a tree is made from. -/
inductive Source where
  /-- All fields of a level that have no selections of their own. -/
  | group (fields : List Field)
  | field (field : Field × List Selection)
  | inclusion (i : Inclusion)

namespace Source

/-- What the node shows as its kind and name. -/
def heading : Source → NodeKind × Text
  | group _ => (.fieldGroup, "Fields")
  | field f => (.field, f.1.name)
  | inclusion i => (.fragment, i.name)

/-- The selection set that is to be shown below the node, if there is one. -/
def selections? (fragments : Fragments) : Source → Option (List Selection)
  | group _ => none
  | field f => some f.2
  | inclusion (.spread name) => (Record.get? fragments name).map Fragment.body
  | inclusion (.inline _ body) => some body

end Source

/-- What the nodes of a level are made from, in the order of the row: its leaves if it has any, its
fields with selections, its spreads and inline fragments. -/
def sourcesIn (selections : List Selection) : List Source :=
  (if (leaves selections).isEmpty then [] else [.group (leaves selections)]) ++
    (nestedIn selections).map .field ++ (inclusionsIn selections).map .inclusion

/-- What the nodes on the way down to an address are made from, the node there last. -/
def sourcesAlong (fragments : Fragments) : List Selection → List Nat → Option (List Source)
  | _, [] => some []
  | selections, i :: address =>
    (sourcesIn selections)[i]?.bind fun s =>
      (sourcesAlong fragments ((s.selections? fragments).getD []) address).map (s :: ·)

theorem sourcesAlong_cons {fragments : Fragments} {selections : List Selection} {i : Nat}
    {s : Source} (hs : (sourcesIn selections)[i]? = some s) (address : List Nat) :
    sourcesAlong fragments selections (i :: address) =
      (sourcesAlong fragments ((s.selections? fragments).getD []) address).map (s :: ·) := by
  rw [sourcesAlong, hs, Option.bind_some]

theorem sourcesIn_eq_nil_iff {selections : List Selection} :
    sourcesIn selections = [] ↔ selections = [] := by
  constructor
  · intro h
    rw [sourcesIn, List.append_assoc, List.append_eq_nil_iff, List.append_eq_nil_iff,
      List.map_eq_nil_iff, List.map_eq_nil_iff] at h
    obtain ⟨hl, hn, hi⟩ := h
    rw [List.eq_nil_iff_forall_not_mem]
    intro s hs
    cases s with
    | leaf f =>
      have hf : leaves selections ≠ [] := List.ne_nil_of_mem (mem_leaves.2 hs)
      simp [hf] at hl
    | nested f body => exact List.ne_nil_of_mem (mem_nestedIn.2 hs) hn
    | spread name => exact List.ne_nil_of_mem (spread_mem_inclusionsIn.2 hs) hi
    | inline condition body => exact List.ne_nil_of_mem (inline_mem_inclusionsIn.2 hs) hi
  · rintro rfl
    rfl

/-- Where no selection set is empty, none that is shown below a node is. -/
theorem isFilled_of_selections?_eq_some {fragments : Fragments}
    (hf : ∀ f ∈ fragments, isFilled f.2.body) {selections body : List Selection}
    (hs : isFilled selections) {s : Source} (h : s ∈ sourcesIn selections)
    (hb : s.selections? fragments = some body) : isFilled body := by
  rw [sourcesIn, List.append_assoc, List.mem_append, List.mem_append, List.mem_map,
    List.mem_map] at h
  rcases h with h | ⟨⟨f, b⟩, hm, rfl⟩ | ⟨i, hm, rfl⟩
  · obtain ⟨fields, rfl⟩ : ∃ fields, s = .group fields := by
      split_ifs at h
      · simp at h
      · exact ⟨_, List.mem_singleton.1 h⟩
    cases hb
  · obtain rfl := Option.some.inj hb
    exact isFilled_of_mem hs (mem_nestedIn.1 hm)
  · cases i with
    | spread name =>
      obtain ⟨fragment, hget, rfl⟩ := Option.map_eq_some_iff.1 hb
      exact hf _ (Record.mem_of_get?_eq_some hget)
    | inline condition b =>
      obtain rfl := Option.some.inj hb
      exact isFilled_of_mem hs (inline_mem_inclusionsIn.1 hm)

theorem isFilled_of_mem_sourcesAlong {fragments : Fragments}
    (hf : ∀ f ∈ fragments, isFilled f.2.body) {selections : List Selection}
    (hs : isFilled selections) {address : List Nat} {path : List Source}
    (h : sourcesAlong fragments selections address = some path) {s : Source} (hm : s ∈ path)
    {body : List Selection} (hb : s.selections? fragments = some body) : isFilled body := by
  induction address generalizing selections path with
  | nil =>
    obtain rfl := Option.some.inj h
    simp at hm
  | cons i address ih =>
    obtain ⟨s', hs', h⟩ := Option.bind_eq_some_iff.1 h
    obtain ⟨path', h', rfl⟩ := Option.map_eq_some_iff.1 h
    have hmem := List.mem_of_getElem? hs'
    rcases List.mem_cons.1 hm with rfl | hm
    · exact isFilled_of_selections?_eq_some hf hs hmem hb
    · cases hb' : s'.selections? fragments with
      | none =>
        -- nothing is below a source without selections, so the address ends there
        rw [hb', Option.getD_none] at h'
        cases address with
        | nil =>
          obtain rfl := Option.some.inj h'
          simp at hm
        | cons j address =>
          rw [sourcesAlong, sourcesIn_eq_nil_iff.2 rfl] at h'
          simp at h'
      | some body' =>
        rw [hb', Option.getD_some] at h'
        exact ih (isFilled_of_selections?_eq_some hf hs hmem hb') h' hm

/-! ## Labels -/

variable {α : Type}

/-- Whether the tree has a label in place of what it would show. -/
def IsClosed (t : Tree α) : Prop :=
  t.card.label = some unknownLabel ∨ t.card.label = some recursiveLabel

/-- How the label of a node goes with what it is made from, where the nodes above it are made from
`above` and the fragments `expanding` were being expanded before. -/
structure Labelled (config : LayoutConfig α) (fragments : Fragments) (expanding : List Text)
    (above : List Source) (s : Source) (t : Tree α) : Prop where
  heading : heading t = s.heading
  unknown : ∀ name, s = .inclusion (.spread name) →
    (t.card.label = some unknownLabel ↔ Record.get? fragments name = none)
  recursive : ∀ name, s = .inclusion (.spread name) →
    (t.card.label = some recursiveLabel ↔
      Record.get? fragments name ≠ none ∧
        (name ∈ expanding ∨ .inclusion (.spread name) ∈ above))
  /-- There are no other labels. -/
  label_cases : t.card.label = none ∨ t.IsClosed
  /-- Only spreads have one. -/
  label_eq_none : (∀ name, s ≠ .inclusion (.spread name)) → t.card.label = none
  childless_iff : t.card.kind ≠ .fieldGroup →
    (t.children = [] ↔ t.IsClosed ∨ s.selections? fragments = some [])
  width_of_isClosed : t.IsClosed → t.width = config.minNodeWidth

theorem unknownLabel_ne_recursiveLabel : unknownLabel ≠ recursiveLabel := by decide

theorem not_isClosed_of_label_eq_none {t : Tree α} (h : t.card.label = none) : ¬ t.IsClosed := by
  rintro (h' | h') <;> simp [h] at h'

section Labelled

variable {config : LayoutConfig α} {fragments : Fragments} {expanding expanding' : List Text}
  {above above' : List Source} {s : Source} {t : Tree α}

/-- A node without a label of its own that is not made from a spread. -/
theorem labelled_of_not_spread (hs : ∀ name, s ≠ .inclusion (.spread name))
    (hh : Tree.heading t = s.heading) (hl : t.card.label = none)
    (hc : t.card.kind ≠ .fieldGroup → (t.children = [] ↔ s.selections? fragments = some [])) :
    Labelled config fragments expanding above s t where
  heading := hh
  unknown name h := absurd h (hs name)
  recursive name h := absurd h (hs name)
  label_cases := .inl hl
  label_eq_none _ := hl
  childless_iff hk := by rw [hc hk, or_iff_right (not_isClosed_of_label_eq_none hl)]
  width_of_isClosed h := absurd h (not_isClosed_of_label_eq_none hl)

/-- The label of a spread says that its fragment is unknown, or that it is being expanded; nothing
is below it then. -/
theorem labelled_of_spread {name : Text} (hh : Tree.heading t = (.fragment, name))
    (hu : t.card.label = some unknownLabel ↔ Record.get? fragments name = none)
    (hr : t.card.label = some recursiveLabel ↔
      Record.get? fragments name ≠ none ∧ name ∈ expanding)
    (hl : t.card.label = none ∨ t.IsClosed)
    (hc : t.children = [] ↔
      t.IsClosed ∨ (Record.get? fragments name).map Fragment.body = some [])
    (hw : t.IsClosed → t.width = config.minNodeWidth) :
    Labelled config fragments expanding [] (.inclusion (.spread name)) t where
  heading := hh
  unknown n h := by
    cases h
    exact hu
  recursive n h := by
    cases h
    simpa using hr
  label_cases := hl
  label_eq_none h := absurd rfl (h name)
  childless_iff _ := hc
  width_of_isClosed := hw

/-- What encloses a node may be counted as being expanded before or as a node above it. -/
theorem Labelled.of_enclosed (h : Labelled config fragments expanding above s t)
    (he : ∀ name, name ∈ expanding ∨ .inclusion (.spread name) ∈ above ↔
      name ∈ expanding' ∨ .inclusion (.spread name) ∈ above') :
    Labelled config fragments expanding' above' s t where
  heading := h.heading
  unknown := h.unknown
  recursive name hs := by rw [h.recursive name hs, he]
  label_cases := h.label_cases
  label_eq_none := h.label_eq_none
  childless_iff := h.childless_iff
  width_of_isClosed := h.width_of_isClosed

end Labelled

/-! ## Levels -/

theorem exists_getElem?_of_forall₂ {β γ : Type} {r : β → γ → Prop} {xs : List β} {ys : List γ}
    (h : List.Forall₂ r xs ys) {i : Nat} {y : γ} (hy : ys[i]? = some y) :
    ∃ x, xs[i]? = some x ∧ r x y := by
  induction h generalizing i with
  | nil => simp at hy
  | cons hr _ ih =>
    cases i with
    | zero =>
      obtain rfl := Option.some.inj hy
      exact ⟨_, rfl, hr⟩
    | succ i => exact ih hy

/-- Every node of the row is labelled as the way down to it asks. -/
def AllLabelled (config : LayoutConfig α) (fragments : Fragments) (expanding : List Text)
    (selections : List Selection) (row : List (Tree α)) : Prop :=
  ∀ p ∈ located row, ∃ above s, sourcesAlong fragments selections p.1 = some (above ++ [s]) ∧
    Labelled config fragments expanding above s p.2

variable [Scalar α]

/-- How a source shows, where `rows` says which rows a level has. -/
inductive SourceShown (config : LayoutConfig α) (fragments : Fragments)
    (rows : List Text → List Selection → List (Tree α) → Prop) (expanding : List Text) :
    Source → Tree α → Prop
  | group {fields arguments} :
      SourceShown config fragments rows expanding (.group fields)
        (groupNode config fields arguments)
  | field {f t} (h : FieldShown config (rows expanding) f t) :
      SourceShown config fragments rows expanding (.field f) t
  | inclusion {i t} (h : InclusionShown config fragments rows expanding i t) :
      SourceShown config fragments rows expanding (.inclusion i) t

section Levels

variable {config : LayoutConfig α} {fragments : Fragments}
  {rows : List Text → List Selection → List (Tree α) → Prop} {expanding : List Text}
  {selections : List Selection} {row : List (Tree α)} {s : Source} {t : Tree α}

/-- The row of a level shows its sources one by one. -/
theorem LevelShown.forall₂ (h : LevelShown config fragments rows expanding selections row) :
    List.Forall₂ (SourceShown config fragments rows expanding) (sourcesIn selections) row := by
  obtain ⟨hg, hf, hi⟩ := h
  refine List.rel_append (List.rel_append ?_ ?_) ?_
  · rcases leafGroup_eq_ok hg with ⟨hl, rfl⟩ | ⟨hl, arguments, rfl⟩
    · simp [hl]
    · rw [if_neg (by simpa using hl)]
      exact .cons .group .nil
  · exact List.forall₂_map_left_iff.2 (hf.imp fun _ _ => .field)
  · exact List.forall₂_map_left_iff.2 (hi.imp fun _ _ => .inclusion)

theorem InclusionShown.labelled_spread {name : Text}
    (h : InclusionShown config fragments rows expanding (.spread name) t)
    (hr : ∀ e body row, rows e body row → (row = [] ↔ body = [])) :
    Labelled config fragments expanding [] (.inclusion (.spread name)) t := by
  cases h with
  | unknown hf =>
    have hl : (closedSpread config name unknownLabel).IsClosed := .inl rfl
    refine labelled_of_spread rfl ?_ ?_ (.inr hl) (iff_of_true rfl (.inl hl)) fun _ => rfl
    · simp [closedSpread, card, hf]
    · simp [closedSpread, card, hf, unknownLabel_ne_recursiveLabel]
  | recursive hf hn =>
    have hl : (closedSpread config name recursiveLabel).IsClosed := .inr rfl
    refine labelled_of_spread rfl ?_ ?_ (.inr hl) (iff_of_true rfl (.inl hl)) fun _ => rfl
    · simp [closedSpread, card, hf, unknownLabel_ne_recursiveLabel.symm]
    · simp [closedSpread, card, hf, hn]
  | @expanded _ fragment children hf hn hc =>
    have hl : (fragmentNode config name children).card.label = none := rfl
    have hopen := not_isClosed_of_label_eq_none hl
    refine labelled_of_spread rfl ?_ ?_ (.inl hl) ?_ fun h => absurd h hopen
    · simp [hl, hf]
    · simp [hl, hn]
    · rw [or_iff_right hopen, hf]
      simpa [fragmentNode, Tree.children] using hr _ _ _ hc

/-- A node that shows a source below no others. -/
theorem SourceShown.labelled (h : SourceShown config fragments rows expanding s t)
    (hr : ∀ e body row, rows e body row → (row = [] ↔ body = [])) :
    Labelled config fragments expanding [] s t := by
  cases h with
  | group => exact labelled_of_not_spread (by simp) rfl rfl (fun hk => absurd rfl hk)
  | field h =>
    obtain ⟨children, arguments, hc, -, rfl⟩ := h
    refine labelled_of_not_spread (by simp) rfl rfl fun _ => ?_
    simpa [Source.selections?, fieldNode, Tree.children] using hr _ _ _ hc
  | @inclusion i _ h =>
    cases i with
    | spread name => exact h.labelled_spread hr
    | inline condition body =>
      cases h with
      | inline hc =>
        refine labelled_of_not_spread (by simp) rfl rfl fun _ => ?_
        simpa [Source.selections?, fragmentNode, Tree.children] using hr _ _ _ hc

/-- What is below a node is labelled as the way from the node down asks, with one source more above
it. -/
theorem SourceShown.labelled_below (h : SourceShown config fragments rows expanding s t)
    (hr : ∀ e body row, rows e body row → AllLabelled config fragments e body row)
    {address : List Nat} {u : Tree α} (hu : (address, u) ∈ located t.children) :
    ∃ above s', sourcesAlong fragments ((s.selections? fragments).getD []) address =
        some (above ++ [s']) ∧ Labelled config fragments expanding (s :: above) s' u := by
  cases h with
  | group => simp [groupNode, Tree.children, located] at hu
  | @field f _ h =>
    obtain ⟨above, s', hs, hl⟩ := hr _ _ _ h.children _ hu
    exact ⟨above, s', hs, hl.of_enclosed (by simp)⟩
  | @inclusion i _ h =>
    cases h with
    | unknown hf | recursive hf hn => simp [closedSpread, Tree.children, located] at hu
    | @expanded name fragment _ hf hn hc =>
      obtain ⟨above, s', hs, hl⟩ := hr _ _ _ hc _ hu
      refine ⟨above, s', by simpa [Source.selections?, hf] using hs, hl.of_enclosed ?_⟩
      -- the fragment counts as expanded before, or as spread above
      intro m
      simp only [List.mem_cons, Source.inclusion.injEq, Inclusion.spread.injEq]
      tauto
    | inline hc =>
      obtain ⟨above, s', hs, hl⟩ := hr _ _ _ hc _ hu
      exact ⟨above, s', hs, hl.of_enclosed (by simp)⟩

theorem LevelShown.eq_nil_iff (h : LevelShown config fragments rows expanding selections row) :
    row = [] ↔ selections = [] := by
  have hsources : sourcesIn selections = [] ↔ selections = [] := sourcesIn_eq_nil_iff
  rw [← hsources, ← List.length_eq_zero_iff, ← List.length_eq_zero_iff, h.forall₂.length_eq]

theorem LevelShown.allLabelled (h : LevelShown config fragments rows expanding selections row)
    (hnil : ∀ e body row, rows e body row → (row = [] ↔ body = []))
    (hr : ∀ e body row, rows e body row → AllLabelled config fragments e body row) :
    AllLabelled config fragments expanding selections row := by
  rintro ⟨address, t⟩ ht
  obtain ⟨i, u, hu, ha⟩ := exists_of_mem_located ht
  obtain ⟨s, hs, hshown⟩ := exists_getElem?_of_forall₂ h.forall₂ hu
  rcases ha with ⟨rfl, rfl⟩ | ⟨b, rfl, hb⟩
  · exact ⟨[], s, by rw [sourcesAlong_cons hs, sourcesAlong]; rfl, hshown.labelled hnil⟩
  · obtain ⟨above, s', hpath, hl⟩ := hshown.labelled_below hr hb
    exact ⟨s :: above, s', by rw [sourcesAlong_cons hs, hpath]; rfl, hl⟩

end Levels

/-! ## Built trees -/

section Built

variable {config : LayoutConfig α} {fragments : Fragments} {expanding : List Text}
  {selections : List Selection} {row : List (Tree α)}

theorem allLabelled_of_built
    (h : (ofSelections config fragments expanding selections).outcome = .ok row) :
    AllLabelled config fragments expanding selections row := by
  refine (built_induction (motive := fun expanding selections row =>
    (row = [] ↔ selections = []) ∧ AllLabelled config fragments expanding selections row) ?_ h).2
  intro expanding selections row h
  exact ⟨h.eq_nil_iff, h.allLabelled (fun _ _ _ h => h.1) fun _ _ _ h => h.2⟩

/-- In a built tree every node tells why it shows nothing, if it does. A spread is labelled as
unknown exactly if its fragment is not defined, and as recursive exactly if it is defined and was
being expanded before or is spread by a node above. It has no label of its own otherwise, and no
other node has one. If no selection set is empty, exactly the labelled nodes among fields and
fragments have nothing below them, and they have the least width. -/
theorem spreads_labelled
    (h : (ofSelections config fragments expanding selections).outcome = .ok row) :
    (∀ p ∈ located row, ∃ above s, sourcesAlong fragments selections p.1 = some (above ++ [s]) ∧
        Labelled config fragments expanding above s p.2) ∧
      (isFilled selections → (∀ f ∈ fragments, isFilled f.2.body) →
        ∀ p ∈ located row, p.2.card.kind ≠ .fieldGroup → (p.2.children = [] ↔ p.2.IsClosed)) := by
  have hall := allLabelled_of_built h
  refine ⟨hall, fun hs hf p hp hk => ?_⟩
  obtain ⟨above, s, hpath, hl⟩ := hall p hp
  rw [hl.childless_iff hk, or_iff_left]
  intro hb
  exact ne_nil_of_isFilled
    (isFilled_of_mem_sourcesAlong hf hs hpath (List.mem_append_right _ List.mem_cons_self) hb) rfl

end Built

/-- Spreads beside, below a field and below an inline fragment of one name. -/
def sameNames : List Selection :=
  [.nested ⟨none, "A", []⟩ [.spread "A", .spread "X"], .spread "A",
    .inline (some "A") [.spread "B"]]

theorem spreads_labelled_sameNames :
    ∃ row, (ofSelections (.standard Rat) mutualSpreads ["X"] sameNames).outcome = .ok row ∧
      ∀ p ∈ located row, p.2.card.kind ≠ .fieldGroup →
        (p.2.children = [] ↔ p.2.IsClosed) ∧
          ∃ above s, sourcesAlong mutualSpreads sameNames p.1 = some (above ++ [s]) ∧
            Labelled (.standard Rat) mutualSpreads ["X"] above s p.2 := by
  obtain ⟨row, h⟩ :
      ∃ row, (ofSelections (.standard Rat) mutualSpreads ["X"] sameNames).outcome = .ok row :=
    ⟨_, by cbv⟩
  obtain ⟨hall, hclosed⟩ := spreads_labelled h
  exact ⟨row, h, fun p hp hk => ⟨hclosed (by decide) (by decide) p hp hk, hall p hp⟩⟩

end Tree

end QueryDiagram
