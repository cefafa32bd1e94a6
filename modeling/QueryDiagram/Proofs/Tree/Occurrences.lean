import Mathlib
import QueryDiagram.Proofs.Record
import QueryDiagram.Proofs.Tree.Level

/-!
# The fields of a tree

The fields that selections have are met on a walk in source order, on which a spread stands for
what its fragment selects, unless there is none or it is being expanded (`walk`). A built tree
shows the same fields, each as often, and each under the same fields and fragments
(`perm_occurrencesOf_of_built`); every level of it shows its selections in three buckets, in source
order within each (`Arranged`).
-/

namespace QueryDiagram

open GraphQL

/-- A field as it is met: its name, whether it has selections of its own, and what encloses it from
the outside in. -/
structure Occurrence where
  name : Text
  isNested : Bool
  path : List (NodeKind × Text)
  deriving DecidableEq

/-- The occurrence with one more field or fragment around it. -/
def Occurrence.inside (kind : NodeKind) (name : Text) (o : Occurrence) : Occurrence :=
  { o with path := (kind, name) :: o.path }

namespace Tree

/-! ## Walks -/

/-- The fields that are met in selections inside the fragments `expanding`, in source order. -/
def walk (fragments : Fragments) (expanding : List Text) : List Selection → List Occurrence
  | [] => []
  | .leaf field :: rest => ⟨field.name, false, []⟩ :: walk fragments expanding rest
  | .nested field body :: rest =>
    ⟨field.name, true, []⟩ ::
      (walk fragments expanding body).map (.inside .field field.name) ++
      walk fragments expanding rest
  | .spread name :: rest =>
    (match _hf : Record.get? fragments name with
    | none => []
    | some fragment =>
      if _hn : name ∈ expanding then []
      else (walk fragments (name :: expanding) fragment.body).map (.inside .fragment name)) ++
      walk fragments expanding rest
  | .inline condition body :: rest =>
    (walk fragments expanding body).map (.inside .fragment (inlineName condition)) ++
      walk fragments expanding rest
termination_by selections => (fragments.unexpanded expanding, sizeOf selections)
decreasing_by
  all_goals first
    | exact Prod.Lex.left _ _ (Fragments.unexpanded_cons_lt _hf _hn)
    | refine Prod.Lex.right _ ?_
      simp only [List.cons.sizeOf_spec, Selection.leaf.sizeOf_spec, Selection.nested.sizeOf_spec,
        Selection.spread.sizeOf_spec, Selection.inline.sizeOf_spec]
      omega

section Walk

variable (fragments : Fragments) (expanding : List Text)

/-- The field without selections of its own. -/
def leafOccurrence (field : Field) : Occurrence := ⟨field.name, false, []⟩

/-- The field, and the fields that are met inside it. -/
def fieldOccurrences (field : Field × List Selection) : List Occurrence :=
  ⟨field.1.name, true, []⟩ ::
    (walk fragments expanding field.2).map (.inside .field field.1.name)

/-- The fields that are met inside a spread or an inline fragment. -/
def inclusionOccurrences : Inclusion → List Occurrence
  | .spread name =>
    match Record.get? fragments name with
    | none => []
    | some fragment =>
      if name ∈ expanding then []
      else (walk fragments (name :: expanding) fragment.body).map (.inside .fragment name)
  | .inline condition body =>
    (walk fragments expanding body).map (.inside .fragment (inlineName condition))

theorem walk_spread_cons (name : Text) (rest : List Selection) :
    walk fragments expanding (.spread name :: rest) =
      inclusionOccurrences fragments expanding (.spread name) ++
        walk fragments expanding rest := by
  rw [walk, inclusionOccurrences]
  congr 1
  split <;> rename_i hf <;> simp only [hf, dite_eq_ite]

/-- A walk meets what the three kinds of selections have. -/
theorem walk_perm (selections : List Selection) :
    (walk fragments expanding selections).Perm
      ((leaves selections).map leafOccurrence ++
        ((nestedIn selections).flatMap (fieldOccurrences fragments expanding) ++
          (inclusionsIn selections).flatMap (inclusionOccurrences fragments expanding))) := by
  induction selections with
  | nil => simp [walk, leaves, nestedIn, inclusionsIn]
  | cons s rest ih =>
    cases s with
    | leaf f =>
      rw [walk]
      exact ih.cons _
    | nested f body =>
      rw [walk]
      refine (ih.append_left (fieldOccurrences fragments expanding (f, body))).trans ?_
      refine (List.perm_append_comm_assoc _ _ _).trans (List.Perm.append_left _ ?_)
      rw [← List.append_assoc]
      exact .refl _
    | spread name =>
      rw [walk_spread_cons]
      refine (ih.append_left _).trans ?_
      refine (List.perm_append_comm_assoc _ _ _).trans (List.Perm.append_left _ ?_)
      exact List.perm_append_comm_assoc _ _ _
    | inline condition body =>
      rw [walk]
      refine (ih.append_left
        (inclusionOccurrences fragments expanding (.inline condition body))).trans ?_
      refine (List.perm_append_comm_assoc _ _ _).trans (List.Perm.append_left _ ?_)
      exact List.perm_append_comm_assoc _ _ _

end Walk

/-! ## Reading a tree back -/

section ReadBack

variable {α : Type}

/-- The fields that a card shows itself. -/
def ownOccurrences (card : Card α) : List Occurrence :=
  match card.kind with
  | .fieldGroup => (card.data.fields.getD []).map fun name => ⟨name, false, []⟩
  | .field => [⟨card.data.name, true, []⟩]
  | _ => []

mutual

/-- The fields that a tree shows. -/
def occurrences : Tree α → List Occurrence
  | node card children =>
    ownOccurrences card ++ (occurrencesOf children).map (.inside card.kind card.data.name)

/-- The occurrences in trees, in order. -/
def occurrencesOf : List (Tree α) → List Occurrence
  | [] => []
  | t :: ts => t.occurrences ++ occurrencesOf ts

end

theorem occurrencesOf_append (row row' : List (Tree α)) :
    occurrencesOf (row ++ row') = occurrencesOf row ++ occurrencesOf row' := by
  induction row with
  | nil => rw [List.nil_append, occurrencesOf, List.nil_append]
  | cons t ts ih => rw [List.cons_append, occurrencesOf, occurrencesOf, ih, List.append_assoc]

theorem perm_occurrencesOf_flatMap {β : Type} {g : β → List Occurrence} {xs : List β}
    {row : List (Tree α)} (h : List.Forall₂ (fun x t => t.occurrences.Perm (g x)) xs row) :
    (occurrencesOf row).Perm (xs.flatMap g) := by
  induction h with
  | nil => simp [occurrencesOf]
  | cons hx _ ih =>
    rw [occurrencesOf, List.flatMap_cons]
    exact hx.append ih

end ReadBack

variable {α : Type} [Scalar α] {config : LayoutConfig α} {fragments : Fragments}
  {expanding : List Text} {selections : List Selection} {row : List (Tree α)}

theorem leafGroup_eq_ok {fields : List Field} {group : List (Tree α)}
    (h : leafGroup config fields = .ok group) :
    fields = [] ∧ group = [] ∨ fields ≠ [] ∧ ∃ arguments,
      group = [groupNode config fields arguments] := by
  unfold leafGroup at h
  split_ifs at h with hf
  · exact .inl ⟨by simpa using hf, (Except.ok.inj h).symm⟩
  · cases ha : leafArguments fields with
    | error e => simp [ha, bind, Except.bind] at h
    | ok pairs =>
      rw [ha] at h
      exact .inr ⟨by simpa using hf, _, (Except.ok.inj h).symm⟩

theorem occurrencesOf_leafGroup {fields : List Field} {group : List (Tree α)}
    (h : leafGroup config fields = .ok group) :
    occurrencesOf group = fields.map leafOccurrence := by
  rcases leafGroup_eq_ok h with ⟨rfl, rfl⟩ | ⟨-, arguments, rfl⟩
  · rw [occurrencesOf, List.map_nil]
  · simp [occurrencesOf, occurrences, groupNode, ownOccurrences, leafOccurrence,
      Function.comp_def]

/-- The fields of a built tree are those that a walk of its selections meets. -/
theorem perm_occurrencesOf_of_built
    (h : (ofSelections config fragments expanding selections).outcome = .ok row) :
    (occurrencesOf row).Perm (walk fragments expanding selections) := by
  refine built_induction (motive := fun expanding selections row =>
    (occurrencesOf row).Perm (walk fragments expanding selections)) ?_ h
  rintro expanding selections row ⟨hg, hf, hi⟩
  rw [occurrencesOf_append, occurrencesOf_append, occurrencesOf_leafGroup hg, List.append_assoc]
  refine .trans ?_ (walk_perm fragments expanding selections).symm
  refine ((perm_occurrencesOf_flatMap (hf.imp ?_)).append
    (perm_occurrencesOf_flatMap (hi.imp ?_))).append_left _
  · rintro f t ⟨children, arguments, hc, -, rfl⟩
    exact (hc.map _).cons _
  · intro i t hi
    cases hi with
    | unknown hf =>
      simp [closedSpread, occurrences, ownOccurrences, occurrencesOf, inclusionOccurrences, hf]
    | recursive hf hn =>
      simp [closedSpread, occurrences, ownOccurrences, occurrencesOf, inclusionOccurrences, hf, hn]
    | expanded hf hn hc =>
      simp only [inclusionOccurrences, hf, hn, if_false]
      exact hc.map _
    | inline hc => exact hc.map _

/-! ## Levels in three buckets -/

/-- What a spread or an inline fragment shows as its name. -/
def Inclusion.name : Inclusion → Text
  | .spread name => name
  | .inline condition _ => inlineName condition

/-- What a tree shows at its root. -/
def heading (t : Tree α) : NodeKind × Text := (t.card.kind, t.card.data.name)

/-- The group of a level: there is one if there are leaves. It shows their names and has nothing
below it. -/
inductive ShowsLeaves (fields : List Field) : List (Tree α) → Prop
  | none (h : fields = []) : ShowsLeaves fields []
  | group {t} (h : fields ≠ []) (hk : t.card.kind = .fieldGroup)
      (hf : t.card.data.fields = some (fields.map Field.name))
      (hl : t.card.displayLabel = Text.join ", " (fields.map Field.name))
      (hc : t.children = []) : ShowsLeaves fields [t]

/-- A level shows the group of its leaves, then its fields with selections, then its spreads and
inline fragments, each in source order; so do the levels below. A spread that is not expanded has
none below it. -/
inductive Arranged (fragments : Fragments) : List Text → List Selection → List (Tree α) → Prop
  | intro {expanding selections group fields included}
      (leaf : ShowsLeaves (leaves selections) group)
      (nested : fields.map heading = (nestedIn selections).map fun f => (.field, f.1.name))
      (inclusion : included.map heading =
        (inclusionsIn selections).map fun i => (.fragment, i.name))
      (below : ∀ f body t, ((f, body), t) ∈ (nestedIn selections).zip fields →
        Arranged fragments expanding body t.children)
      (inside : ∀ condition body t,
        (.inline condition body, t) ∈ (inclusionsIn selections).zip included →
        Arranged fragments expanding body t.children)
      (expanded : ∀ name fragment t, (.spread name, t) ∈ (inclusionsIn selections).zip included →
        Record.get? fragments name = some fragment → name ∉ expanding →
        Arranged fragments (name :: expanding) fragment.body t.children)
      (closed : ∀ name t, (.spread name, t) ∈ (inclusionsIn selections).zip included →
        Record.get? fragments name = none ∨ name ∈ expanding → t.children = []) :
      Arranged fragments expanding selections (group ++ fields ++ included)

theorem forall₂_mem_zip {β γ : Type} {r : β → γ → Prop} {xs : List β} {ys : List γ}
    (h : List.Forall₂ r xs ys) {x : β} {y : γ} (hm : (x, y) ∈ xs.zip ys) : r x y :=
  (List.forall₂_iff_zip.1 h).2 hm

theorem showsLeaves_of_leafGroup {fields : List Field} {group : List (Tree α)}
    (h : leafGroup config fields = .ok group) : ShowsLeaves fields group := by
  rcases leafGroup_eq_ok h with ⟨hf, rfl⟩ | ⟨hf, arguments, rfl⟩
  · exact .none hf
  · exact .group hf rfl rfl rfl rfl

theorem arranged_of_built
    (h : (ofSelections config fragments expanding selections).outcome = .ok row) :
    Arranged fragments expanding selections row := by
  refine built_induction (motive := Arranged fragments) ?_ h
  rintro expanding selections row ⟨hg, hf, hi⟩
  refine .intro (showsLeaves_of_leafGroup hg) (map_eq_map_of_forall₂ hf ?_)
    (map_eq_map_of_forall₂ hi ?_) (fun f body t hm => (forall₂_mem_zip hf hm).children)
    (fun condition body t hm => (forall₂_mem_zip hi hm).children_of_inline)
    (fun name fragment t hm hfrag hn => ((forall₂_mem_zip hi hm).of_not_mem hfrag hn).1)
    (fun name t hm hclosed => ?_)
  · rintro f t ⟨children, arguments, -, -, rfl⟩
    rfl
  · intro i t hi
    cases hi <;> rfl
  · cases forall₂_mem_zip hi hm with
    | unknown _ => rfl
    | recursive _ _ => rfl
    | expanded hf hn _ => simp [hf, hn] at hclosed

/-- Every group of fields has nothing below it, and is labelled with its fields. -/
theorem group_of_built
    (h : (ofSelections config fragments expanding selections).outcome = .ok row) {t : Tree α}
    (ht : t ∈ subtreesOf row) (hk : t.card.kind = .fieldGroup) :
    t.children = [] ∧ ∃ fields, t.card.data.fields = some fields ∧
      t.card.displayLabel = Text.join ", " fields := by
  revert hk
  refine forall_subtreesOf_of_built (p := fun t => t.card.kind = .fieldGroup → t.children = [] ∧
    ∃ fields, t.card.data.fields = some fields ∧ t.card.displayLabel = Text.join ", " fields)
    ?_ ?_ ?_ ?_ h t ht
  · exact fun fields arguments _ _ => ⟨rfl, _, rfl, rfl⟩
  · exact fun f arguments children hk => nomatch hk
  · exact fun name label hk => nomatch hk
  · exact fun name children hk => nomatch hk

/-! ## The result -/

/-- A built tree shows each field that a walk of its selections meets, as often as it is met and
where it is met, and no other. Each of its levels is arranged in three buckets, and every group of
fields is labelled with them. -/
theorem built_keeps_fields
    (h : (ofSelections config fragments expanding selections).outcome = .ok row) :
    (occurrencesOf row).Perm (walk fragments expanding selections) ∧
      Arranged fragments expanding selections row ∧
      ∀ t ∈ subtreesOf row, t.card.kind = .fieldGroup → t.children = [] ∧
        ∃ fields, t.card.data.fields = some fields ∧
          t.card.displayLabel = Text.join ", " fields :=
  ⟨perm_occurrencesOf_of_built h, arranged_of_built h, fun _ ht hk => group_of_built h ht hk⟩

/-- A fragment that spreads itself inside one of its fields. -/
def nestedSpread : Fragments :=
  [("A", ⟨"A", "T", [.nested ⟨none, "y", []⟩ [.spread "A"], .leaf ⟨none, "x", []⟩]⟩)]

/-- A spread before a field that is selected twice, the second time under another name. -/
def repeatedField : List Selection :=
  [.spread "A", .leaf ⟨none, "x", []⟩, .nested ⟨none, "y", []⟩ [.leaf ⟨none, "z", []⟩],
    .leaf ⟨some "w", "x", []⟩]

theorem built_keeps_fields_repeatedField :
    ∃ row, (ofSelections (.standard Rat) nestedSpread [] repeatedField).outcome = .ok row ∧
      Arranged nestedSpread [] repeatedField row ∧
      (occurrencesOf row).Perm
        [⟨"y", true, [(.fragment, "A")]⟩, ⟨"x", false, [(.fragment, "A")]⟩, ⟨"x", false, []⟩,
          ⟨"y", true, []⟩, ⟨"z", false, [(.field, "y")]⟩, ⟨"x", false, []⟩] := by
  obtain ⟨row, h⟩ :
      ∃ row, (ofSelections (.standard Rat) nestedSpread [] repeatedField).outcome = .ok row :=
    ⟨_, by cbv⟩
  obtain ⟨hperm, harranged, -⟩ := built_keeps_fields h
  refine ⟨row, h, harranged, ?_⟩
  convert hperm using 1
  cbv

end Tree

end QueryDiagram
