import Mathlib
import QueryDiagram.GraphQL.Parser
import QueryDiagram.Proofs.Record
import QueryDiagram.Proofs.Json.Reading
import QueryDiagram.Proofs.Tree.Occurrences

/-!
# Arguments of grouped leaves

The leaves of a level show their arguments in one record under their response names. Names come in
the order of the leaves, and under each name stand the arguments of the last leaf that has it and
takes any (`ArgumentsShown`). So a leaf keeps its own arguments exactly if that last leaf has the
same ones: those of `f(a: 1) f(a: 2)` are not all shown (`leaf_arguments_shown`).
-/

namespace QueryDiagram

open GraphQL

namespace Tree

/-! ## Fields that take arguments -/

/-- The fields that take arguments. -/
def withArguments (fields : List Field) : List Field :=
  fields.filter fun f => !f.arguments.isEmpty

/-- The last field with a response name among those that take arguments. -/
def lastNamed? (fields : List Field) (name : Text) : Option Field :=
  ((withArguments fields).filter (·.responseName = name)).getLast?

/-- A value shows the arguments of a field. -/
def ShowsArguments (f : Field) (v : Json) : Prop :=
  ∃ own, argumentRecord f.arguments = .ok own ∧ v = .object own

section WithArguments

variable {fields : List Field} {f g : Field} {v : Json} {name : Text}

theorem mem_withArguments : f ∈ withArguments fields ↔ f ∈ fields ∧ f.arguments ≠ [] := by
  simp [withArguments]

theorem withArguments_eq_nil_iff : withArguments fields = [] ↔ ∀ f ∈ fields, f.arguments = [] := by
  simp [withArguments]

theorem exists_lastNamed? (h : f ∈ withArguments fields) :
    ∃ last, lastNamed? fields f.responseName = some last := by
  have hf : f ∈ (withArguments fields).filter (·.responseName = f.responseName) :=
    List.mem_filter.2 ⟨h, by simp⟩
  exact ⟨_, List.getLast?_eq_some_getLast (List.ne_nil_of_mem hf)⟩

theorem of_lastNamed?_eq_some (h : lastNamed? fields name = some f) :
    f ∈ withArguments fields ∧ f.responseName = name := by
  obtain ⟨hm, hn⟩ := List.mem_filter.1 (List.mem_of_getLast? h)
  exact ⟨hm, by simpa using hn⟩

/-- A value that shows the arguments of one field shows those of another if they are the same. -/
theorem ShowsArguments.iff_eq (h : ShowsArguments g v) :
    ShowsArguments f v ↔ argumentRecord f.arguments = argumentRecord g.arguments := by
  obtain ⟨own, hg, rfl⟩ := h
  rw [hg]
  constructor
  · rintro ⟨own', hf, he⟩
    rw [hf, Json.object.inj he]
  · exact fun hf => ⟨own, hf, rfl⟩

end WithArguments

/-! ## Records of arguments -/

section LeafArguments

variable {fields : List Field} {pairs : List (Text × Json)}

/-- A pair shows the arguments of a field under its response name. -/
def IsEntry (f : Field) (p : Text × Json) : Prop :=
  p.1 = f.responseName ∧ ShowsArguments f p.2

theorem forall₂_of_leafArguments (h : leafArguments fields = .ok pairs) :
    List.Forall₂ IsEntry (withArguments fields) pairs := by
  induction fields generalizing pairs with
  | nil =>
    obtain rfl := Except.ok.inj h
    exact .nil
  | cons f fs ih =>
    rw [leafArguments] at h
    split_ifs at h with hf
    · rw [withArguments, List.filter_cons_of_neg (by simp [hf])]
      exact ih h
    · obtain ⟨own, hown, h⟩ := bind_eq_ok_iff.1 h
      obtain ⟨rest, hrest, h⟩ := bind_eq_ok_iff.1 h
      obtain rfl := Except.ok.inj h
      rw [withArguments, List.filter_cons_of_pos (by simp [hf])]
      exact .cons ⟨rfl, own, hown, rfl⟩ (ih hrest)

theorem keys_ofPairs_leafArguments (h : leafArguments fields = .ok pairs) :
    (Record.ofPairs pairs).keys = ((withArguments fields).map Field.responseName).eraseDups := by
  rw [Record.keys_ofPairs,
    map_eq_map_of_forall₂ (forall₂_of_leafArguments h) fun f p hp => hp.1]

theorem get?_ofPairs_leafArguments (h : leafArguments fields = .ok pairs) (name : Text) :
    Option.Rel ShowsArguments (lastNamed? fields name)
      ((Record.ofPairs pairs).get? name) := by
  have hnamed : List.Forall₂ IsEntry ((withArguments fields).filter (·.responseName = name))
      (pairs.filter (·.1 = name)) := by
    refine List.rel_filter (fun f p hp => ?_) (forall₂_of_leafArguments h)
    simp [hp.1]
  have hlast := rel_getLast?_of_forall₂ hnamed
  rw [Record.get?_ofPairs]
  revert hlast
  rw [lastNamed?]
  generalize List.getLast? _ = f, List.getLast? _ = p
  rintro (hl | _)
  · exact .some hl.2
  · exact .none

end LeafArguments

/-! ## Groups -/

/-- What a group shows of the arguments of its fields: nothing if none takes any; otherwise, under
the response name of each that does, the arguments of the last such field with that name. -/
structure ArgumentsShown (fields : List Field) (arguments : Option (Record Json)) : Prop where
  absent : arguments = none ↔ ∀ f ∈ fields, f.arguments = []
  names : ∀ shown ∈ arguments,
    shown.keys = ((withArguments fields).map Field.responseName).eraseDups
  values : ∀ shown ∈ arguments, ∀ name,
    Option.Rel ShowsArguments (lastNamed? fields name) (shown.get? name)

/-- A field's arguments stand under its response name. -/
def KeepsArguments (arguments : Option (Record Json)) (f : Field) : Prop :=
  ∃ shown ∈ arguments, ∃ v, shown.get? f.responseName = some v ∧ ShowsArguments f v

section Groups

variable {fields : List Field} {arguments : Option (Record Json)} {f : Field}

theorem ArgumentsShown.exists_shown (h : ArgumentsShown fields arguments)
    (hf : f ∈ withArguments fields) :
    ∃ shown ∈ arguments, ∃ last v, lastNamed? fields f.responseName = some last ∧
      shown.get? f.responseName = some v ∧ ShowsArguments last v := by
  cases arguments with
  | none =>
    obtain ⟨hf, hne⟩ := mem_withArguments.1 hf
    exact absurd (h.absent.1 rfl f hf) hne
  | some shown =>
    refine ⟨shown, rfl, ?_⟩
    obtain ⟨last, hlast⟩ := exists_lastNamed? hf
    have hrel := h.values shown rfl f.responseName
    rw [hlast] at hrel
    revert hrel
    generalize shown.get? f.responseName = o
    rintro ⟨hv⟩
    exact ⟨last, _, hlast, rfl, hv⟩

/-- A field keeps its arguments if the last one of its response name has the same. -/
theorem ArgumentsShown.keeps_iff (h : ArgumentsShown fields arguments)
    (hf : f ∈ withArguments fields) :
    KeepsArguments arguments f ↔ ∀ last ∈ lastNamed? fields f.responseName,
      argumentRecord f.arguments = argumentRecord last.arguments := by
  obtain ⟨shown, hshown, last, v, hlast, hv, hl⟩ := h.exists_shown hf
  obtain rfl := hshown
  rw [hlast]
  constructor
  · rintro ⟨shown', hs, v', hv', ho⟩ last' hlast'
    obtain rfl := Option.some.inj hs
    obtain rfl := Option.some.inj (hv.symm.trans hv')
    obtain rfl := Option.some.inj hlast'
    exact hl.iff_eq.1 ho
  · exact fun he => ⟨shown, rfl, v, hv, hl.iff_eq.2 (he last rfl)⟩

theorem ArgumentsShown.forall_keeps_iff (h : ArgumentsShown fields arguments) :
    (∀ f ∈ withArguments fields, KeepsArguments arguments f) ↔
      ∀ f ∈ withArguments fields, ∀ g ∈ withArguments fields, f.responseName = g.responseName →
        argumentRecord f.arguments = argumentRecord g.arguments := by
  constructor
  · intro hall f hf g hg hn
    obtain ⟨last, hlast⟩ := exists_lastNamed? hf
    have hflast := (h.keeps_iff hf).1 (hall f hf) last hlast
    rw [hn] at hlast
    rw [hflast, (h.keeps_iff hg).1 (hall g hg) last hlast]
  · intro hall f hf
    refine (h.keeps_iff hf).2 fun last hlast => ?_
    obtain ⟨hm, hn⟩ := of_lastNamed?_eq_some hlast
    exact hall f hf last hm hn.symm

end Groups

section Levels

variable {α : Type} [Scalar α] {config : LayoutConfig α} {fragments : Fragments}
  {expanding : List Text} {selections : List Selection} {row : List (Tree α)}

theorem argumentsShown_of_leafGroup {fields : List Field} {group : List (Tree α)}
    (h : leafGroup config fields = .ok group) (hne : fields ≠ []) :
    ∃ arguments, group = [groupNode config fields arguments] ∧
      ArgumentsShown fields arguments := by
  rw [leafGroup, if_neg (by simpa using hne)] at h
  obtain ⟨pairs, hpairs, h⟩ := bind_eq_ok_iff.1 h
  refine ⟨_, (Except.ok.inj h).symm, ?_⟩
  have hnil : Record.ofPairs pairs = [] ↔ ∀ f ∈ fields, f.arguments = [] := by
    rw [Record.ofPairs_eq_nil_iff, ← withArguments_eq_nil_iff, ← List.length_eq_zero_iff,
      ← (forall₂_of_leafArguments hpairs).length_eq, List.length_eq_zero_iff]
  by_cases hempty : Record.ofPairs pairs = []
  · rw [if_pos (by simpa using hempty)]
    exact ⟨iff_of_true rfl (hnil.1 hempty), by simp, by simp⟩
  · rw [if_neg (by simpa using hempty)]
    refine ⟨iff_of_false (by simp) (mt hnil.2 hempty), fun shown hs => ?_, fun shown hs name => ?_⟩
    · obtain rfl := Option.some.inj hs
      exact keys_ofPairs_leafArguments hpairs
    · obtain rfl := Option.some.inj hs
      exact get?_ofPairs_leafArguments hpairs name

/-- A level with leaves has one group, which shows under the response name of each leaf that takes
arguments those of the last such leaf with that name. All leaves keep their own arguments exactly
if no two of them have the same response name and different arguments. -/
theorem leaf_arguments_shown
    (h : (ofSelections config fragments expanding selections).outcome = .ok row)
    (hne : leaves selections ≠ []) :
    ∃ arguments others, row = groupNode config (leaves selections) arguments :: others ∧
      (∀ t ∈ others, t.card.kind ≠ .fieldGroup) ∧
      ArgumentsShown (leaves selections) arguments ∧
      ((∀ f ∈ withArguments (leaves selections), KeepsArguments arguments f) ↔
        ∀ f ∈ withArguments (leaves selections), ∀ g ∈ withArguments (leaves selections),
          f.responseName = g.responseName →
            argumentRecord f.arguments = argumentRecord g.arguments) := by
  rw [ofSelections_eq_level, outcome_level_eq_ok_iff] at h
  obtain ⟨hg, hf, hi⟩ := h
  rename_i group fields included
  obtain ⟨arguments, rfl, hshown⟩ := argumentsShown_of_leafGroup hg hne
  refine ⟨arguments, fields ++ included, by simp, fun t ht => ?_, hshown, hshown.forall_keeps_iff⟩
  rcases List.mem_append.1 ht with ht | ht
  · obtain ⟨f, -, children, own, -, -, rfl⟩ := exists_mem_of_forall₂ hf ht
    exact nofun
  · obtain ⟨i, -, hi⟩ := exists_mem_of_forall₂ hi ht
    cases hi <;> exact nofun

end Levels

/-- Two calls of a field under two names, and a field without arguments. -/
def callsApart : List Selection :=
  [.leaf ⟨some "x", "f", [("a", .int "1")]⟩, .leaf ⟨none, "g", []⟩,
    .leaf ⟨some "y", "f", [("a", .int "2")]⟩]

theorem leaf_arguments_shown_callsApart :
    ∃ row arguments others,
      (ofSelections (.standard Rat) [] [] callsApart).outcome = .ok row ∧
      row = groupNode (.standard Rat) (leaves callsApart) arguments :: others ∧
      ArgumentsShown (leaves callsApart) arguments ∧
      ∀ f ∈ withArguments (leaves callsApart), KeepsArguments arguments f := by
  obtain ⟨row, h⟩ : ∃ row, (ofSelections (.standard Rat) [] [] callsApart).outcome = .ok row :=
    ⟨_, by cbv⟩
  obtain ⟨arguments, others, hrow, -, hshown, hkeeps⟩ :=
    leaf_arguments_shown h (by simp [callsApart, leaves])
  refine ⟨row, arguments, others, h, hrow, hshown, hkeeps.2 fun f hf g hg hn => ?_⟩
  have hcalls : withArguments (leaves callsApart) =
      [⟨some "x", "f", [("a", .int "1")]⟩, ⟨some "y", "f", [("a", .int "2")]⟩] := rfl
  rw [hcalls, List.mem_pair] at hf hg
  rcases hf with rfl | rfl <;> rcases hg with rfl | rfl
  · rfl
  · exact absurd hn (by decide)
  · exact absurd hn (by decide)
  · rfl

/-- Two calls of a field that differ in their arguments alone. -/
def repeatedCall : List Selection :=
  [.leaf ⟨none, "f", [("a", .int "1")]⟩, .leaf ⟨none, "f", [("a", .int "2")]⟩]

set_option maxRecDepth 20000 in
/-- Of two calls under one name the first does not keep its arguments. -/
theorem arguments_lost_repeatedCall :
    parse "\x7bf(a: 1) f(a: 2)\x7d" = .ok [.operation ⟨.query, none, repeatedCall⟩] ∧
      ∃ row, (ofSelections (.standard Rat) [] [] repeatedCall).outcome = .ok row ∧
        ∃ t ∈ row, t.card.kind = .fieldGroup ∧
          ∃ f ∈ withArguments (leaves repeatedCall), ¬ KeepsArguments t.card.data.arguments f := by
  refine ⟨by cbv, _, by cbv, _, List.mem_cons_self, rfl, ⟨none, "f", [("a", .int "1")]⟩,
    List.mem_cons_self, ?_⟩
  rintro ⟨shown, hs, v, hv, own, hown, rfl⟩
  obtain rfl := Option.some.inj hs
  have hfirst : argumentRecord [("a", .int "1")] = .ok [("a", .int 1)] := by cbv
  obtain rfl := Except.ok.inj (hfirst.symm.trans hown)
  have hlast : some (Json.object [("a", .int 2)]) = some (.object [("a", .int 1)]) := hv
  simp at hlast

end Tree

end QueryDiagram
