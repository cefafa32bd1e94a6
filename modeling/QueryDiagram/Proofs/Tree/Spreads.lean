import Mathlib
import QueryDiagram.Proofs.Fragments
import QueryDiagram.Proofs.Tree.Level

/-!
# What a tree owes to spreads

The tree of some selections depends on the fragments, and on which of them are being expanded, only
at the names that the selections reach (`ofSelections_congr`). At such a name it does depend on
them: where a level is met that spreads a fragment being expanded, the tree differs from one built
while that fragment is not (`ne_of_met`). If any fragment being expanded is reached at all, then
one of them is met on a way along which no fragment is expanded twice (`exists_met_of_reaches`).
Hence a spread shows its fragment's own tree exactly if the fragment reaches none of those being
expanded (`spread_shows_own_tree_iff`).
-/

namespace QueryDiagram

open GraphQL

namespace Tree

variable {α : Type} [Scalar α]

/-! ## Names that are not reached -/

section Congruence

variable {config : LayoutConfig α} {fragments fragments' : Fragments}

/-- Fragments and names being expanded that agree on what the selections reach. -/
structure AgreeOn (fragments fragments' : Fragments) (selections : List Selection)
    (expanding expanding' : List Text) : Prop where
  fragment : ∀ name, Reaches fragments.get? selections name →
    Record.get? fragments name = Record.get? fragments' name
  expanding : ∀ name, Reaches fragments.get? selections name →
    (Record.get? fragments name).isSome → (name ∈ expanding ↔ name ∈ expanding')

namespace AgreeOn

variable {selections body : List Selection} {expanding expanding' : List Text}

theorem of_reaches (h : AgreeOn fragments fragments' selections expanding expanding')
    (hr : ∀ name, Reaches fragments.get? body name → Reaches fragments.get? selections name) :
    AgreeOn fragments fragments' body expanding expanding' where
  fragment name hn := h.fragment name (hr name hn)
  expanding name hn := h.expanding name (hr name hn)

theorem cons (h : AgreeOn fragments fragments' selections expanding expanding') (name : Text) :
    AgreeOn fragments fragments' selections (name :: expanding) (name :: expanding') where
  fragment := h.fragment
  expanding inner hn hs := by
    rw [List.mem_cons, List.mem_cons, h.expanding inner hn hs]

end AgreeOn

/-- A spread or an inline fragment shows the same if the levels below it do. -/
theorem inclusionTree_congr {selections : List Selection} {expanding expanding' : List Text}
    (h : AgreeOn fragments fragments' selections expanding expanding')
    (ih : ∀ l, Below fragments l (expanding, selections) → ∀ e',
      AgreeOn fragments fragments' l.2 l.1 e' →
      ofSelections config fragments l.1 l.2 = ofSelections config fragments' e' l.2)
    {i : Inclusion} (hi : i ∈ inclusionsIn selections) :
    inclusionTree config fragments (ofSelections config fragments) expanding i =
      inclusionTree config fragments' (ofSelections config fragments') expanding' i := by
  cases i with
  | inline condition body =>
    have hm := inline_mem_inclusionsIn.1 hi
    have hb := h.of_reaches fun name hn => hn.of_inline hm
    rw [inclusionTree, inclusionTree, ih (expanding, body) (.inline hm) expanding' hb]
  | spread name =>
    have hm := spread_mem_inclusionsIn.1 hi
    have hr : Reaches fragments.get? selections name := reaches_of_spread_mem hm
    cases hg : Record.get? fragments name with
    | none =>
      rw [inclusionTree_of_unknown hg, inclusionTree_of_unknown (h.fragment name hr ▸ hg)]
    | some fragment =>
      have hg' := h.fragment name hr ▸ hg
      have he := h.expanding name hr (by rw [hg]; rfl)
      by_cases hn : name ∈ expanding
      · rw [inclusionTree_of_mem hg hn, inclusionTree_of_mem hg' (he.1 hn)]
      · have hb := (h.cons name).of_reaches fun inner hr => hr.of_fragment hm hg
        rw [inclusionTree_of_not_mem hg hn, inclusionTree_of_not_mem hg' (mt he.2 hn),
          ih (name :: expanding, fragment.body) (.spread hm hg hn) (name :: expanding') hb]

/-- A tree depends on no more than what is reached from its selections. -/
theorem ofSelections_congr {selections : List Selection} {expanding expanding' : List Text}
    (h : AgreeOn fragments fragments' selections expanding expanding') :
    ofSelections config fragments expanding selections =
      ofSelections config fragments' expanding' selections := by
  suffices ∀ (l : List Text × List Selection) (expanding' : List Text),
      AgreeOn fragments fragments' l.2 l.1 expanding' →
      ofSelections config fragments l.1 l.2 = ofSelections config fragments' expanding' l.2 from
    this (expanding, selections) expanding' h
  clear h
  intro l
  induction l using (wellFounded_below fragments).induction with
  | _ l ih =>
    obtain ⟨expanding, selections⟩ := l
    intro expanding' h
    have hf : ∀ f ∈ nestedIn selections,
        fieldTree config (ofSelections config fragments expanding) f =
          fieldTree config (ofSelections config fragments' expanding') f := by
      intro f hf
      have hb := h.of_reaches fun name hn => hn.of_nested (mem_nestedIn.1 hf)
      rw [fieldTree, fieldTree,
        ih (expanding, f.2) (.field (mem_nestedIn.1 hf)) expanding' hb]
    rw [ofSelections_eq_level, ofSelections_eq_level]
    unfold level
    rw [Logged.mapM_congr hf, Logged.mapM_congr fun i hi => inclusionTree_congr h ih hi]

end Congruence

/-! ## Levels that are met -/

section Met

variable {config : LayoutConfig α} {fragments : Fragments}

/-- The level on the left is met on the way down from the level on the right. -/
def Met (fragments : Fragments) : List Text × List Selection → List Text × List Selection → Prop :=
  Relation.ReflTransGen (Below fragments)

theorem exists_met_of_mem_spreadsIn (fragments : Fragments) {name : Text}
    (l : List Text × List Selection) (h : name ∈ spreadsIn l.2) :
    ∃ l', Met fragments l' l ∧ .spread name ∈ l'.2 := by
  induction l using (wellFounded_below fragments).induction with
  | _ l ih =>
    obtain ⟨s, hs, hn⟩ := mem_spreadsIn.1 h
    cases s with
    | leaf f => simp [Selection.spreads] at hn
    | spread name' =>
      obtain rfl : name = name' := by simpa [Selection.spreads] using hn
      exact ⟨l, .refl, hs⟩
    | nested f body =>
      rw [Selection.spreads] at hn
      obtain ⟨l', hl, hm⟩ := ih (l.1, body) (.field hs) hn
      exact ⟨l', hl.tail (.field hs), hm⟩
    | inline condition body =>
      rw [Selection.spreads] at hn
      obtain ⟨l', hl, hm⟩ := ih (l.1, body) (.inline hs) hn
      exact ⟨l', hl.tail (.inline hs), hm⟩

/-- What is being expanded at a level was so at the top, or its fragment was entered on the way. -/
theorem Met.mem_or_entered {l top : List Text × List Selection} (h : Met fragments l top)
    {name : Text} (hn : name ∈ l.1) :
    name ∈ top.1 ∨ ∃ expanding fragment, Record.get? fragments name = some fragment ∧
      Met fragments (name :: expanding, fragment.body) top := by
  induction h using Relation.ReflTransGen.head_induction_on with
  | refl => exact .inl hn
  | head hb ht ih =>
    cases hb with
    | field _ | inline _ => exact ih hn
    | @spread expanding entered fragment selections hs hf he =>
      rcases List.mem_cons.1 hn with rfl | hn
      · exact .inr ⟨expanding, fragment, hf, ht.head (.spread hs hf he)⟩
      · exact ih hn

/-- If a fragment being expanded is reached, then a level is met that spreads one of them. -/
theorem exists_met_of_reaches {expanding : List Text} {selections : List Selection} {name : Text}
    (hr : Reaches fragments.get? selections name) (hs : (Record.get? fragments name).isSome)
    (hn : name ∈ expanding) :
    ∃ l inner, Met fragments l (expanding, selections) ∧ .spread inner ∈ l.2 ∧
      inner ∈ expanding ∧ (Record.get? fragments inner).isSome := by
  by_contra hnone
  push Not at hnone
  -- then every name that is reached is met, and the one being expanded is among them
  suffices ∃ l, Met fragments l (expanding, selections) ∧ .spread name ∈ l.2 by
    obtain ⟨l, hl, hm⟩ := this
    exact hnone l name hl hm hn hs
  clear hn hs
  induction hr with
  | spread h => exact exists_met_of_mem_spreadsIn fragments (expanding, selections) h
  | @through inner name fragment _ hf h ih =>
    obtain ⟨l, hl, hm⟩ := ih
    have hin : inner ∉ expanding := fun hin => hnone l inner hl hm hin (by rw [hf]; rfl)
    -- the fragment is entered here, or it was on the way
    have hbody : ∃ e, Met fragments (inner :: e, fragment.body) (expanding, selections) := by
      by_cases hmem : inner ∈ l.1
      · obtain ⟨e, fragment', hf', he⟩ := (hl.mem_or_entered hmem).resolve_left hin
        obtain rfl := Option.some.inj (hf.symm.trans hf')
        exact ⟨e, he⟩
      · exact ⟨l.1, hl.head (.spread hm hf hmem)⟩
    obtain ⟨e, he⟩ := hbody
    obtain ⟨l', hl', hm'⟩ :=
      exists_met_of_mem_spreadsIn fragments (inner :: e, fragment.body) h
    exact ⟨l', hl'.trans he, hm'⟩

end Met

/-! ## Rows that differ -/

section Differ

variable {config : LayoutConfig α} {fragments : Fragments}
  {rows : List Text → List Selection → List (Tree α) → Prop} {expanding expanding' : List Text}
  {selections : List Selection} {row : List (Tree α)}

theorem LevelShown.exists_parts
    (h : LevelShown config fragments rows expanding selections row) :
    ∃ group fields included, leafGroup config (leaves selections) = .ok group ∧
      List.Forall₂ (FieldShown config (rows expanding)) (nestedIn selections) fields ∧
      List.Forall₂ (InclusionShown config fragments rows expanding) (inclusionsIn selections)
        included ∧ row = group ++ fields ++ included := by
  cases h with
  | intro hg hf hi => exact ⟨_, _, _, hg, hf, hi, rfl⟩

theorem exists_both_of_forall₂ {β γ : Type} {r r' : β → γ → Prop} {xs : List β} {ys : List γ}
    (h : List.Forall₂ r xs ys) (h' : List.Forall₂ r' xs ys) {x : β} (hx : x ∈ xs) :
    ∃ y, r x y ∧ r' x y := by
  induction h with
  | nil => simp at hx
  | cons hr _ ih =>
    cases h' with
    | cons hr' h' =>
      rcases List.mem_cons.1 hx with rfl | hx
      · exact ⟨_, hr, hr'⟩
      · exact ih h' hx

/-- Where two levels with the same selections show the same row, every selection shows the same
tree. -/
theorem LevelShown.common (h : LevelShown config fragments rows expanding selections row)
    (h' : LevelShown config fragments rows expanding' selections row) :
    (∀ f ∈ nestedIn selections, ∃ t, FieldShown config (rows expanding) f t ∧
      FieldShown config (rows expanding') f t) ∧
    ∀ i ∈ inclusionsIn selections, ∃ t, InclusionShown config fragments rows expanding i t ∧
      InclusionShown config fragments rows expanding' i t := by
  obtain ⟨group, fields, included, hg, hf, hi, rfl⟩ := h.exists_parts
  obtain ⟨group', fields', included', hg', hf', hi', he⟩ := h'.exists_parts
  obtain rfl := Except.ok.inj (hg.symm.trans hg')
  rw [List.append_assoc, List.append_assoc] at he
  obtain ⟨rfl, rfl⟩ := List.append_inj (List.append_cancel_left he)
    (hf.length_eq.symm.trans hf'.length_eq)
  exact ⟨fun f hm => exists_both_of_forall₂ hf hf' hm,
    fun i hm => exists_both_of_forall₂ hi hi' hm⟩

/-- A level is met that spreads a fragment which is being expanded there. If it is not being
expanded in another run of the builder, then that run gives another row. -/
theorem ne_of_met {l top : List Text × List Selection} (h : Met fragments l top) {name : Text}
    (hm : .spread name ∈ l.2) (hs : (Record.get? fragments name).isSome) (hn : name ∈ top.1)
    (hsub : ∀ m ∈ expanding, m ∈ top.1) (hn' : name ∉ expanding) {row row' : List (Tree α)}
    (hrow : (ofSelections config fragments expanding top.2).outcome = .ok row)
    (hrow' : (ofSelections config fragments top.1 top.2).outcome = .ok row') : row ≠ row' := by
  rintro rfl
  induction h generalizing expanding row with
  | refl =>
    rw [ofSelections_eq_level, outcome_level_eq_ok_iff] at hrow hrow'
    obtain ⟨t, ht, ht'⟩ := (hrow.common hrow').2 _ (spread_mem_inclusionsIn.2 hm)
    obtain ⟨fragment, hf⟩ := Option.isSome_iff_exists.1 hs
    have hlabel := (ht.of_not_mem hf hn').2
    rw [ht'.label_of_mem hf hn] at hlabel
    cases hlabel
  | tail _ hb ih =>
    rw [ofSelections_eq_level, outcome_level_eq_ok_iff] at hrow hrow'
    obtain ⟨hfields, hincluded⟩ := hrow.common hrow'
    cases hb with
    | field hf =>
      obtain ⟨t, ht, ht'⟩ := hfields _ (mem_nestedIn.2 hf)
      exact ih hn hsub hn' ht.children ht'.children
    | inline hi =>
      obtain ⟨t, ht, ht'⟩ := hincluded _ (inline_mem_inclusionsIn.2 hi)
      exact ih hn hsub hn' ht.children_of_inline ht'.children_of_inline
    | @spread _ entered fragment _ hspread hf he =>
      -- both runs enter the fragment, which is not the one that is met
      obtain ⟨t, ht, ht'⟩ := hincluded _ (spread_mem_inclusionsIn.2 hspread)
      have he' : entered ∉ expanding := fun hmem => he (hsub _ hmem)
      have hne : name ≠ entered := fun e => he (e ▸ hn)
      refine ih (List.mem_cons_of_mem _ hn) (fun m hmem => ?_) ?_ (ht.of_not_mem hf he').1
        (ht'.of_not_mem hf he).1
      · rcases List.mem_cons.1 hmem with rfl | hmem
        · exact List.mem_cons_self
        · exact List.mem_cons_of_mem _ (hsub m hmem)
      · simp [hne, hn']

end Differ

/-! ## The result -/

/-- A spread of a fragment that is not being expanded shows what the fragment selects inside itself.
That is the fragment's own tree exactly if the fragment reaches neither itself nor any fragment
that is being expanded. -/
theorem spread_shows_own_tree_iff (config : LayoutConfig α) (fragments : Fragments)
    (expanding : List Text) {name : Text} {fragment : Fragment}
    (hf : Record.get? fragments name = some fragment) (hn : name ∉ expanding) :
    children <$> ofSpread config fragments expanding name =
        ofSelections config fragments (name :: expanding) fragment.body ∧
      ∀ row own,
        (ofSelections config fragments (name :: expanding) fragment.body).outcome = .ok row →
        (ofSelections config fragments [] fragment.body).outcome = .ok own →
        (row = own ↔ ∀ inner ∈ name :: expanding, (Record.get? fragments inner).isSome →
          ¬ Reaches fragments.get? fragment.body inner) := by
  refine ⟨?_, fun row own hrow hown => ⟨?_, fun h => ?_⟩⟩
  · rw [ofSpread_eq_inclusionTree, inclusionTree_of_not_mem hf hn, ← comp_map]
    exact id_map _
  · rintro rfl inner hmem hs hr
    obtain ⟨l, met, hl, hm, hin, hs'⟩ := exists_met_of_reaches hr hs hmem
    exact ne_of_met hl hm hs' hin (by simp) (by simp) hown hrow rfl
  · have hagree : AgreeOn fragments fragments fragment.body (name :: expanding) [] :=
      ⟨fun _ _ => rfl, fun inner hr hs => ⟨fun hm => absurd hr (h inner hm hs), by simp⟩⟩
    rw [ofSelections_congr hagree, hown] at hrow
    exact (Except.ok.inj hrow).symm

/-- What the fragment `A` of `chainedSpreads` selects. -/
def chainedBody : List Selection := [.leaf ⟨none, "x", []⟩, .spread "B"]

/-- Fragments of which `D` reaches `A`, that reaches `B`, and that reaches `C`. -/
def chainedSpreads : Fragments :=
  [("A", ⟨"A", "T", chainedBody⟩), ("B", ⟨"B", "T", [.inline none [.spread "C"]]⟩),
    ("C", ⟨"C", "T", [.leaf ⟨none, "y", []⟩]⟩), ("D", ⟨"D", "T", [.spread "A"]⟩)]

theorem mem_of_reaches_chainedBody {name : Text}
    (h : Reaches chainedSpreads.get? chainedBody name) : name ∈ (["B", "C"] : List Text) := by
  refine h.preserves (motive := (· ∈ (["B", "C"] : List Text))) (by decide) ?_
  intro inner fragment hi hf
  rcases List.mem_cons.1 hi with rfl | hi
  · obtain rfl := Option.some.inj hf
    decide
  · obtain rfl := List.mem_singleton.1 hi
    obtain rfl := Option.some.inj hf
    decide

/-- Inside `D`, which it does not reach, the fragment `A` shows its own tree; inside `C` it does
not. -/
theorem spread_shows_own_tree_iff_chained :
    ∃ own inD inC : List (Tree Rat),
      (ofSelections (.standard Rat) chainedSpreads [] chainedBody).outcome = .ok own ∧
      (children <$> ofSpread (.standard Rat) chainedSpreads ["D"] "A").outcome = .ok inD ∧
      (children <$> ofSpread (.standard Rat) chainedSpreads ["C"] "A").outcome = .ok inC ∧
      inD = own ∧ inC ≠ own := by
  have hf : Record.get? chainedSpreads "A" = some ⟨"A", "T", chainedBody⟩ := rfl
  obtain ⟨heD, hD⟩ :=
    spread_shows_own_tree_iff (.standard Rat) chainedSpreads ["D"] hf (by decide)
  obtain ⟨heC, hC⟩ :=
    spread_shows_own_tree_iff (.standard Rat) chainedSpreads ["C"] hf (by decide)
  obtain ⟨own, hown⟩ :
      ∃ row, (ofSelections (.standard Rat) chainedSpreads [] chainedBody).outcome = .ok row :=
    ⟨_, by cbv⟩
  obtain ⟨inD, hinD⟩ : ∃ row,
      (ofSelections (.standard Rat) chainedSpreads ["A", "D"] chainedBody).outcome = .ok row :=
    ⟨_, by cbv⟩
  obtain ⟨inC, hinC⟩ : ∃ row,
      (ofSelections (.standard Rat) chainedSpreads ["A", "C"] chainedBody).outcome = .ok row :=
    ⟨_, by cbv⟩
  refine ⟨own, inD, inC, hown, heD ▸ hinD, heC ▸ hinC, ?_, fun e => ?_⟩
  · -- neither `A` nor `D` is reached
    refine (hD inD own hinD hown).2 fun inner hi _ hr => ?_
    have hBC := mem_of_reaches_chainedBody hr
    simp only [List.mem_cons, List.not_mem_nil, or_false] at hi hBC
    rcases hi with rfl | rfl <;> revert hBC <;> decide
  · have hB : Reaches chainedSpreads.get? chainedBody "B" := .spread (by decide)
    have hB' : Record.get? chainedSpreads "B" = some ⟨"B", "T", [.inline none [.spread "C"]]⟩ := rfl
    exact (hC inC own hinC hown).1 e "C" (by decide) rfl (hB.through hB' (by decide))

end Tree

end QueryDiagram
