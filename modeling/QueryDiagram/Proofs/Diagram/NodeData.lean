import Mathlib
import QueryDiagram.Proofs.Diagram.Forest

/-!
# What the kind of a node asks of its data

Which parts of its data a node has set follows from its kind when it is drawn
(`exact_of_build`). A patch does not ask for the kind of the node and may set the value of any. So
after a run of patches the value is set on the variables and on those nodes for which a patch of
the run has one, and the other parts still follow from the kind (`suits_of_patchAll`).
-/

namespace QueryDiagram

open GraphQL

/-- The parts of the data other than the value are set as the kind asks. -/
structure NodeData.Suits (d : NodeData) (k : NodeKind) : Prop where
  isRoot : d.isRoot.isSome ↔ k = .operation
  fields : d.fields.isSome ↔ k = .fieldGroup
  fields_ne_nil : d.fields ≠ some []
  arguments : d.arguments.isSome → k = .field ∨ k = .fieldGroup
  arguments_of_field : k = .field → d.arguments.isSome

/-- All parts of the data are set as the kind asks. -/
structure NodeData.Exact (d : NodeData) (k : NodeKind) : Prop extends d.Suits k where
  value : d.value.isSome ↔ k = .var

/-! ## Nodes that are drawn -/

section Drawn

variable {α : Type} [Scalar α]

namespace Tree

variable {config : LayoutConfig α} {fragments : Fragments} {expanding : List Text}
  {selections : List Selection} {row : List (Tree α)}

theorem exact_of_built
    (h : (ofSelections config fragments expanding selections).outcome = .ok row) :
    ∀ t ∈ subtreesOf row, t.card.data.Exact t.card.kind := by
  refine forall_subtreesOf_of_built ?_ ?_ ?_ ?_ h
  · intro fields arguments hne
    refine ⟨⟨?_, ?_, ?_, ?_, ?_⟩, ?_⟩ <;> simp [groupNode, card, hne]
  · intro f arguments children
    refine ⟨⟨?_, ?_, ?_, ?_, ?_⟩, ?_⟩ <;> simp [fieldNode, card]
  · intro name label
    refine ⟨⟨?_, ?_, ?_, ?_, ?_⟩, ?_⟩ <;> simp [closedSpread, card, fragmentData]
  · intro name children
    refine ⟨⟨?_, ?_, ?_, ?_, ?_⟩, ?_⟩ <;> simp [fragmentNode, card, fragmentData]

theorem exact_of_mem_placeFrom
    (h : (ofSelections config fragments expanding selections).outcome = .ok row)
    {plan : Plan α} {parent : Option Text} {y left bottom : α} {serial : Nat} {n : Node α}
    (hn : n ∈ (placeFrom plan parent y left bottom serial row).nodes) :
    n.data.Exact n.kind := by
  obtain ⟨t, ht, hc⟩ := exists_content_of_mem_placeFrom plan parent y left bottom serial hn
  rw [show n.kind = t.card.kind from congrArg Prod.fst hc.symm,
    show n.data = t.card.data from congrArg (fun c => c.2.2) hc.symm]
  exact exact_of_built h t ht

end Tree

namespace Sheet

variable {plan : Plan α} {fragments : Fragments} {s s' : Sheet α}

theorem exact_rootOf (plan : Plan α) (serial : Nat) (o : Operation) :
    (rootOf plan serial o).data.Exact (rootOf plan serial o).kind := by
  refine ⟨⟨?_, ?_, ?_, ?_, ?_⟩, ?_⟩ <;> simp [rootOf]

theorem exact_of_draw {o : Operation} (h : (draw plan fragments s o).outcome = .ok s')
    (hs : ∀ n ∈ s.nodes, n.data.Exact n.kind) : ∀ n ∈ s'.nodes, n.data.Exact n.kind := by
  obtain ⟨row, hrow, rfl⟩ := outcome_draw_eq_ok_iff.1 h
  intro n hn
  rcases List.mem_append.1 hn with hn | hn
  · exact hs n hn
  · rcases List.mem_cons.1 hn with rfl | hn
    · exact exact_rootOf plan s.next o
    · exact Tree.exact_of_mem_placeFrom hrow hn

theorem exact_of_drawAll {operations : List Operation}
    (h : (drawAll plan fragments .empty operations).outcome = .ok s) :
    ∀ n ∈ s.nodes, n.data.Exact n.kind :=
  drawAll_induction (motive := fun _ s => ∀ n ∈ s.nodes, n.data.Exact n.kind)
    (fun _ _ _ _ h hs => exact_of_draw h hs) [] h (by simp [empty])

end Sheet

theorem Variables.exact_of_mem_nodesFrom {plan : Plan α} {index : Nat} {values : Record Json}
    {n : Node α} (hn : n ∈ nodesFrom plan index values) : n.data.Exact n.kind := by
  induction values generalizing index with
  | nil => simp [nodesFrom] at hn
  | cons p rest ih =>
    rcases List.mem_cons.1 hn with rfl | hn
    · refine ⟨⟨?_, ?_, ?_, ?_, ?_⟩, ?_⟩ <;> simp [nodeOf]
    · exact ih hn

/-- Which parts of its data a node of a built diagram has set follows from its kind. -/
theorem Diagram.exact_of_build {mode : LayoutMode} {config : LayoutConfig α} {text : Text}
    {d : Diagram α} (h : (build mode config text).outcome = .ok d) :
    ∀ n ∈ d.nodes, n.data.Exact n.kind := by
  obtain ⟨r, s, -, hs, rfl⟩ := outcome_build_eq_ok_iff.1 h
  obtain ⟨fragments, -, hs⟩ := outcome_sheet_eq_ok_iff.1 hs
  intro n hn
  rcases List.mem_append.1 hn with hn | hn
  · exact Sheet.exact_of_drawAll hs n hn
  · exact Variables.exact_of_mem_nodesFrom hn

end Drawn

/-! ## Runs of patches -/

/-- The node after those of the patches that are for it. -/
def Node.after {α : Type} (n : Node α) (edits : List (Text × Patch)) : Node α :=
  edits.foldl (fun m e => if m.id = e.1 then e.2.apply m else m) n

section After

variable {α : Type}

/-- The parts other than the value show in the frame. -/
theorem NodeData.suits_frame {n : Node α} :
    n.frame.data.Suits n.frame.kind ↔ n.data.Suits n.kind :=
  ⟨fun ⟨hr, hf, hne, ha, hfield⟩ => ⟨hr, hf, hne, ha, hfield⟩,
    fun ⟨hr, hf, hne, ha, hfield⟩ => ⟨hr, hf, hne, ha, hfield⟩⟩

theorem NodeData.Suits.of_frame_eq {m n : Node α} (h : n.data.Suits n.kind)
    (hf : m.frame = n.frame) : m.data.Suits m.kind := by
  rwa [← suits_frame, hf, suits_frame]

theorem Node.after_cons (n : Node α) (e : Text × Patch) (rest : List (Text × Patch)) :
    n.after (e :: rest) = (if n.id = e.1 then e.2.apply n else n).after rest := rfl

/-- Patches change neither the identifier, nor the kind, nor anything else of the frame. -/
theorem Node.frame_after (n : Node α) (edits : List (Text × Patch)) :
    (n.after edits).frame = n.frame := by
  induction edits generalizing n with
  | nil => rfl
  | cons e rest ih =>
    rw [after_cons, ih]
    split_ifs
    · exact Patch.frame_apply e.2 n
    · rfl

theorem Patch.isSome_value_apply (p : Patch) (n : Node α) :
    (p.apply n).data.value.isSome ↔ p.value.isSome ∨ n.data.value.isSome := by
  simp [apply]

/-- A node has a value if it had one before, or if one of its patches has one. -/
theorem Node.isSome_value_after (n : Node α) (edits : List (Text × Patch)) :
    (n.after edits).data.value.isSome ↔
      n.data.value.isSome ∨ ∃ e ∈ edits, e.1 = n.id ∧ e.2.value.isSome := by
  induction edits generalizing n with
  | nil => simp [after]
  | cons e rest ih =>
    rw [after_cons, ih]
    by_cases hid : n.id = e.1
    · have hval := e.2.isSome_value_apply n
      have happly : (e.2.apply n).id = n.id := rfl
      rw [if_pos hid, happly, hval, List.exists_mem_cons_iff, and_iff_right hid.symm]
      tauto
    · rw [if_neg hid, List.exists_mem_cons_iff]
      simp only [Ne.symm hid, false_and, false_or]

end After

namespace Diagram

variable {α : Type} {d d' : Diagram α} {edits : List (Text × Patch)}

/-- The diagram after some patches, which must all succeed. -/
def patchAll (d : Diagram α) (edits : List (Text × Patch)) : Except PatchError (Diagram α) :=
  edits.foldlM (fun d e => d.patch e.1 e.2) d

theorem nodes_of_patchAll (hd : (d.nodes.map Node.id).Nodup) (h : d.patchAll edits = .ok d') :
    d'.nodes = d.nodes.map fun n => n.after edits := by
  induction edits generalizing d with
  | nil =>
    obtain rfl : d = d' := Except.ok.inj h
    exact (List.map_id _).symm
  | cons e rest ih =>
    rw [patchAll, List.foldlM_cons] at h
    obtain ⟨d₁, h₁, h⟩ := bind_eq_ok_iff.1 h
    have hd₁ : (d₁.nodes.map Node.id).Nodup := by
      rwa [map_nodes_of_frame_eq (frame_eq_of_patch hd h₁) Node.id fun _ => rfl]
    rw [ih hd₁ h, eq_of_patch hd h₁, List.map_map]
    rfl

/-! ## The result -/

variable [Scalar α] {mode : LayoutMode} {config : LayoutConfig α} {text : Text}

/-- However a built diagram is patched, the parts of a node's data other than the value are set as
its kind asks. Its value is set if the node is a variable, or if one of the patches for it has a
value. -/
theorem suits_of_patchAll (h : (build mode config text).outcome = .ok d)
    (he : d.patchAll edits = .ok d') :
    ∀ n ∈ d'.nodes, n.data.Suits n.kind ∧
      (n.data.value.isSome ↔ n.kind = .var ∨ ∃ e ∈ edits, e.1 = n.id ∧ e.2.value.isSome) := by
  rw [nodes_of_patchAll (isForest_of_build h).nodup_ids he]
  intro n' hn'
  obtain ⟨n, hn, rfl⟩ := List.mem_map.1 hn'
  obtain ⟨hsuits, hvalue⟩ := exact_of_build h n hn
  have hframe := n.frame_after edits
  refine ⟨hsuits.of_frame_eq hframe, ?_⟩
  rw [Node.isSome_value_after, hvalue, Node.kind_eq_of_frame_eq hframe,
    Node.id_eq_of_frame_eq hframe]

/-- A field without selections, and a variable. -/
def fieldAndVariable : Text :=
  "\x7b\"query\": \"\x7ba\x7d\", \"variables\": \x7b\"v\": 1\x7d\x7d"

/-- A patch that gives a node a value. -/
def valuePatch : Patch := { value := some .null }

set_option maxRecDepth 20000 in
theorem suits_of_patchAll_fieldAndVariable :
    ∃ d d' : Diagram Rat,
      (build .precomputed (.standard Rat) fieldAndVariable).outcome = .ok d ∧
      d.patchAll [("node-1", valuePatch), ("var-v", valuePatch)] = .ok d' ∧
      ∀ n ∈ d'.nodes, n.data.Suits n.kind ∧ (n.data.value.isSome ↔ n.kind = .var ∨
        ∃ e ∈ [(("node-1" : Text), valuePatch), ("var-v", valuePatch)], e.1 = n.id ∧
          e.2.value.isSome) := by
  obtain ⟨d, d', h, he⟩ : ∃ d d' : Diagram Rat,
      (build .precomputed (.standard Rat) fieldAndVariable).outcome = .ok d ∧
        d.patchAll [("node-1", valuePatch), ("var-v", valuePatch)] = .ok d' :=
    ⟨_, _, by cbv, by cbv⟩
  exact ⟨d, d', h, he, suits_of_patchAll h he⟩

set_option maxRecDepth 20000 in
/-- A patch can set the value of a group of fields. -/
theorem value_of_group_fieldAndVariable :
    ∃ d d' : Diagram Rat,
      (build .precomputed (.standard Rat) fieldAndVariable).outcome = .ok d ∧
      d.patchAll [("node-1", valuePatch)] = .ok d' ∧
      ∃ n ∈ d'.nodes, n.kind = .fieldGroup ∧ n.data.value = some .null ∧
        ¬ n.data.Exact n.kind := by
  obtain ⟨d, d', h, he, n, hn, hk, hv⟩ : ∃ d d' : Diagram Rat,
      (build .precomputed (.standard Rat) fieldAndVariable).outcome = .ok d ∧
        d.patchAll [("node-1", valuePatch)] = .ok d' ∧
        ∃ n ∈ d'.nodes, n.kind = .fieldGroup ∧ n.data.value = some .null := by
    refine ⟨_, _, by cbv, by cbv, ?_⟩
    cbv
    simp
  refine ⟨d, d', h, he, n, hn, hk, hv, fun hexact => ?_⟩
  have hvar := hexact.value.1 (by rw [hv]; rfl)
  rw [hk] at hvar
  cases hvar

end Diagram

end QueryDiagram
