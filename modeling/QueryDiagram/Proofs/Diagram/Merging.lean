import Mathlib
import QueryDiagram.Proofs.Diagram.NodeData

/-!
# Patches one after the other

Two patches of one node are one patch, in which the second wins key by key (`apply_override`), and
patches of different nodes do not meet. So any run of patches without faults comes to one patch for
each node that it touches, and these may be made in any order (`patches_compose`).
-/

namespace QueryDiagram

/-! ## Patches of one node -/

namespace Edit

theorem apply_override {e e' : Edit} (h : e' ≠ .clear) (t : Text) :
    (e.override e').apply t = e'.apply (e.apply t) := by
  cases e' with
  | keep => rfl
  | clear => exact absurd rfl h
  | set t' => rfl

theorem override_ne_clear {e e' : Edit} (h : e ≠ .clear) (h' : e' ≠ .clear) :
    e.override e' ≠ .clear := by
  cases e' <;> simp_all [override]

theorem keep_override (e : Edit) : keep.override e = e := by cases e <;> rfl

/-- Edits of which one says nothing may change places. -/
theorem apply_comm {e e' : Edit} (h : e = .keep ∨ e' = .keep) (t : Text) :
    e'.apply (e.apply t) = e.apply (e'.apply t) := by
  rcases h with rfl | rfl <;> rfl

end Edit

namespace Patch

variable {α : Type} {p q : Patch}

/-- The patch has only keys that a patch has, and null for none of the texts. -/
structure IsValid (p : Patch) : Prop where
  others : p.others = []
  label : p.label ≠ .clear
  name : p.name ≠ .clear

/-- No key is in both patches. -/
structure Disjoint (p q : Patch) : Prop where
  label : p.label = .keep ∨ q.label = .keep
  name : p.name = .keep ∨ q.name = .keep
  value : p.value = none ∨ q.value = none

theorem IsValid.check_eq (h : p.IsValid) : p.check = .ok p := by
  simp [check, cleared, h.others, h.label, h.name]

theorem isValid_empty : IsValid {} := ⟨rfl, by simp, by simp⟩

theorem IsValid.override (hp : p.IsValid) (hq : q.IsValid) : (p.override q).IsValid where
  others := by simp [Patch.override, hp.others, hq.others]
  label := Edit.override_ne_clear hp.label hq.label
  name := Edit.override_ne_clear hp.name hq.name

theorem empty_override (p : Patch) : override {} p = p := by
  simp [override, Edit.keep_override]

theorem id_apply (p : Patch) (n : Node α) : (p.apply n).id = n.id := rfl

/-- The second patch after the first does what the two as one do. -/
theorem apply_override (hq : q.IsValid) (n : Node α) :
    (p.override q).apply n = q.apply (p.apply n) := by
  simp only [apply, override, Edit.apply_override hq.label, Edit.apply_override hq.name,
    Option.or_assoc]

theorem apply_comm (h : p.Disjoint q) (n : Node α) :
    q.apply (p.apply n) = p.apply (q.apply n) := by
  have hvalue : q.value.or (p.value.or n.data.value) = p.value.or (q.value.or n.data.value) := by
    rcases h.value with h | h <;> simp [h]
  simp only [apply, Edit.apply_comm h.label, Edit.apply_comm h.name, hvalue]

/-- The patches of a node among others, from the first to the last, as one. -/
def merged (id : Text) (edits : List (Text × Patch)) : Patch :=
  ((edits.filter (·.1 = id)).map Prod.snd).foldl override {}

theorem isValid_merged {edits : List (Text × Patch)} (h : ∀ e ∈ edits, e.2.IsValid) (id : Text) :
    (merged id edits).IsValid := by
  suffices ∀ ps : List Patch, (∀ p ∈ ps, p.IsValid) → ∀ p, p.IsValid →
      (ps.foldl override p).IsValid by
    refine this _ (fun p hp => ?_) {} isValid_empty
    obtain ⟨e, he, rfl⟩ := List.mem_map.1 hp
    exact h e (List.mem_of_mem_filter he)
  intro ps
  induction ps with
  | nil => exact fun _ p hp => hp
  | cons q ps ih =>
    intro hps p hp
    exact ih (fun p' hp' => hps p' (List.mem_cons_of_mem _ hp')) _
      (hp.override (hps q List.mem_cons_self))

/-- One patch for each identifier is the only one for that identifier. -/
theorem merged_map_of_nodup {order : List Text} (h : order.Nodup) (f : Text → Patch) (id : Text) :
    merged id (order.map fun id => (id, f id)) = if id ∈ order then f id else {} := by
  have hfilter : (order.map fun id => (id, f id)).filter (·.1 = id) =
      (order.filter (· = id)).map fun id => (id, f id) := List.filter_map
  rw [merged, hfilter, List.filter_eq, h.count]
  split_ifs
  · exact empty_override (f id)
  · rfl

end Patch

/-! ## Runs of patches -/

variable {α : Type}

/-- The patches for a node do to it what they do as one. -/
theorem Node.after_eq_apply_merged {edits : List (Text × Patch)}
    (h : ∀ e ∈ edits, e.2.IsValid) (n : Node α) :
    n.after edits = (Patch.merged n.id edits).apply n := by
  suffices ∀ p : Patch, (p.apply n).after edits =
      (((edits.filter (·.1 = n.id)).map Prod.snd).foldl Patch.override p).apply n from this {}
  induction edits with
  | nil => exact fun p => rfl
  | cons e edits ih =>
    intro p
    have ih := ih fun e' he' => h e' (List.mem_cons_of_mem _ he')
    rw [Node.after_cons, Patch.id_apply]
    by_cases he : e.1 = n.id
    · rw [if_pos he.symm, List.filter_cons_of_pos (by simpa using he), List.map_cons,
        List.foldl_cons, ← Patch.apply_override (h e List.mem_cons_self), ih]
    · rw [if_neg (Ne.symm he), List.filter_cons_of_neg (by simpa using he), ih]

namespace Diagram

variable {d d₀ : Diagram α} {edits : List (Text × Patch)}

/-- The diagram has a node with the identifier. -/
def HasNode (d : Diagram α) (id : Text) : Prop := ∃ n ∈ d.nodes, n.id = id

theorem hasNode_of_node? {id : Text} {n : Node α} (h : d.node? id = some n) : d.HasNode id :=
  ⟨n, List.mem_of_find?_eq_some h, by simpa using List.find?_some h⟩

theorem patch_eq_ok (hd : (d.nodes.map Node.id).Nodup) {id : Text} {p : Patch}
    (hid : d.HasNode id) (hp : p.IsValid) :
    d.patch id p =
      .ok { d with nodes := d.nodes.map fun n => if n.id = id then p.apply n else n } := by
  obtain ⟨n, hn, rfl⟩ := hid
  have hok : d.patch n.id p = .ok (d.replace n.id (p.apply n)) :=
    patch_eq_ok_iff.2 ⟨hp.check_eq, n, (node?_eq_some_iff hd).2 ⟨hn, rfl⟩, rfl⟩
  rw [hok, eq_of_patch hd hok]

/-- Patches without faults, of nodes that are there, succeed one after the other. -/
theorem patchAll_eq_ok (hd : (d.nodes.map Node.id).Nodup)
    (h : ∀ e ∈ edits, d.HasNode e.1 ∧ e.2.IsValid) :
    d.patchAll edits = .ok { d with nodes := d.nodes.map fun n => n.after edits } := by
  suffices ∃ d', d.patchAll edits = .ok d' ∧ ∃ nodes, d' = { d with nodes := nodes } by
    obtain ⟨d', hok, nodes, rfl⟩ := this
    rw [hok, ← nodes_of_patchAll hd hok]
  induction edits generalizing d with
  | nil => exact ⟨d, rfl, d.nodes, rfl⟩
  | cons e edits ih =>
    obtain ⟨hid, hvalid⟩ := h e List.mem_cons_self
    have hfirst := patch_eq_ok hd hid hvalid
    have hframe := frame_eq_of_patch hd hfirst
    have hids := map_nodes_of_frame_eq hframe Node.id fun _ => rfl
    have hrest : ∀ e' ∈ edits, HasNode _ e'.1 ∧ e'.2.IsValid := fun e' he' =>
      (h e' (List.mem_cons_of_mem _ he')).imp_left fun hid' => by
        rw [HasNode, ← List.mem_map] at hid' ⊢
        rwa [hids]
    obtain ⟨d', hok, nodes, rfl⟩ := ih (by rwa [hids]) hrest
    refine ⟨_, ?_, nodes, rfl⟩
    rw [patchAll, List.foldlM_cons, hfirst]
    exact hok

/-- Runs of patches that do the same to every node come to the same diagram. -/
theorem exists_patchAll_of_after_eq (hd : (d.nodes.map Node.id).Nodup)
    {edits' : List (Text × Patch)} (h : ∀ e ∈ edits, d.HasNode e.1 ∧ e.2.IsValid)
    (h' : ∀ e ∈ edits', d.HasNode e.1 ∧ e.2.IsValid)
    (heq : ∀ n ∈ d.nodes, n.after edits = n.after edits') :
    ∃ d', d.patchAll edits = .ok d' ∧ d.patchAll edits' = .ok d' := by
  refine ⟨_, patchAll_eq_ok hd h, ?_⟩
  rw [patchAll_eq_ok hd h', List.map_congr_left heq]

/-! ## The result -/

/-- How patches of a diagram go together. All of them are without faults, and the nodes exist. -/
structure ComposesPatches (d : Diagram α) : Prop where
  /-- The last patch wins, key by key. -/
  override : ∀ a p q, d.HasNode a → p.IsValid → q.IsValid →
    ∃ d', d.patchAll [(a, p), (a, q)] = .ok d' ∧ d.patch a (p.override q) = .ok d'
  empty : ∀ a, d.HasNode a → d.patch a {} = .ok d
  comm : ∀ a b p q, d.HasNode a → d.HasNode b → p.IsValid → q.IsValid →
    a ≠ b ∨ p.Disjoint q →
    ∃ d', d.patchAll [(a, p), (b, q)] = .ok d' ∧ d.patchAll [(b, q), (a, p)] = .ok d'
  /-- One patch for each node that is touched does the same, in any order of these nodes. -/
  merged : ∀ edits : List (Text × Patch), (∀ e ∈ edits, d.HasNode e.1 ∧ e.2.IsValid) →
    ∀ order : List Text, order.Nodup → (∀ id, id ∈ order ↔ ∃ e ∈ edits, e.1 = id) →
    ∃ d', d.patchAll edits = .ok d' ∧
      d.patchAll (order.map fun id => (id, Patch.merged id edits)) = .ok d'

theorem composesPatches_of_nodup (hd : (d.nodes.map Node.id).Nodup) : d.ComposesPatches where
  override a p q ha hp hq := by
    have hsingle : d.patch a (p.override q) = d.patchAll [(a, p.override q)] := by
      rw [patchAll, List.foldlM_cons, patch_eq_ok hd ha (hp.override hq)]
      rfl
    rw [hsingle]
    refine exists_patchAll_of_after_eq hd (by simp [ha, hp, hq]) (by simp [ha, hp.override hq]) ?_
    intro n _
    simp only [Node.after_cons, apply_ite Node.id, Patch.id_apply, ite_self]
    by_cases hn : n.id = a
    · rw [if_pos hn, if_pos hn, if_pos hn, Patch.apply_override hq]
    · rw [if_neg hn, if_neg hn, if_neg hn]
  empty a ha := by
    have happly : ∀ n : Node α, ({} : Patch).apply n = n := fun _ => rfl
    rw [patch_eq_ok hd ha Patch.isValid_empty]
    simp only [happly, ite_self, List.map_id']
  comm a b p q ha hb hp hq h := by
    refine exists_patchAll_of_after_eq hd (by simp [ha, hb, hp, hq]) (by simp [ha, hb, hp, hq]) ?_
    intro n _
    simp only [Node.after_cons, apply_ite Node.id, Patch.id_apply, ite_self]
    by_cases hna : n.id = a
    · by_cases hnb : n.id = b
      · have hdisjoint : p.Disjoint q := h.resolve_left (not_not.2 (hna.symm.trans hnb))
        rw [if_pos hna, if_pos hnb, if_pos hnb, if_pos hna, Patch.apply_comm hdisjoint]
      · rw [if_pos hna, if_neg hnb, if_neg hnb, if_pos hna]
    · rw [if_neg hna, if_neg hna]
  merged edits h order horder hmem := by
    have hvalid : ∀ e ∈ edits, e.2.IsValid := fun e he => (h e he).2
    have horder' : ∀ e ∈ order.map fun id => (id, Patch.merged id edits),
        d.HasNode e.1 ∧ e.2.IsValid := by
      intro e' he'
      obtain ⟨id, hid, rfl⟩ := List.mem_map.1 he'
      obtain ⟨e, he, rfl⟩ := (hmem id).1 hid
      exact ⟨(h e he).1, Patch.isValid_merged hvalid _⟩
    refine exists_patchAll_of_after_eq hd h horder' fun n _ => ?_
    rw [Node.after_eq_apply_merged hvalid,
      Node.after_eq_apply_merged fun e he => (horder' e he).2, Patch.merged_map_of_nodup horder]
    split_ifs with hid
    · rfl
    · have hnone : edits.filter (·.1 = n.id) = [] := by
        refine List.filter_eq_nil_iff.2 fun e he heq => hid ?_
        exact (hmem _).2 ⟨e, he, by simpa using heq⟩
      rw [Patch.merged, hnone]
      rfl

variable [Scalar α] {mode : LayoutMode} {config : LayoutConfig α} {text : Text}

/-- However a built diagram was edited, of two patches of a node the last wins key by key, patches
of different nodes or of different keys may change places, and any run of patches comes to one
patch for each node, in any order of the nodes. -/
theorem patches_compose (h : (build mode config text).outcome = .ok d₀) (he : Edited d₀ d) :
    d.ComposesPatches :=
  composesPatches_of_nodup ((isForest_of_build h).of_edited he).nodup_ids

/-- Patches of two nodes, in which the two for one of them have the other's between them. -/
def scatteredEdits : List (Text × Patch) :=
  [("node-1", { label := .set "b", name := .set "c" }), ("var-v", valuePatch),
    ("node-1", { label := .set "e" })]

set_option maxRecDepth 20000 in
theorem patches_compose_scatteredEdits :
    ∃ d₀ d d' : Diagram Rat,
      (build .precomputed (.standard Rat) fieldAndVariable).outcome = .ok d₀ ∧ Edited d₀ d ∧
      d.patchAll scatteredEdits = .ok d' ∧
      d.patchAll [("var-v", valuePatch),
        ("node-1", { label := .set "e", name := .set "c" })] = .ok d' := by
  obtain ⟨d₀, d, n, m, h, hd, hn, hm⟩ : ∃ (d₀ d : Diagram Rat) (n m : Node Rat),
      (build .precomputed (.standard Rat) fieldAndVariable).outcome = .ok d₀ ∧
        d₀.patch "node-1" valuePatch = .ok d ∧ d.node? "node-1" = some n ∧
        d.node? "var-v" = some m :=
    ⟨_, _, _, _, by cbv, by cbv, by cbv, by cbv⟩
  have he : Edited d₀ d := Edited.refl.patch hd
  have hnode : d.HasNode "node-1" := hasNode_of_node? hn
  have hvar : d.HasNode "var-v" := hasNode_of_node? hm
  have hvalue : valuePatch.IsValid := ⟨rfl, by decide, by decide⟩
  have hedits : ∀ e ∈ scatteredEdits, d.HasNode e.1 ∧ e.2.IsValid := by
    simp only [scatteredEdits, List.forall_mem_cons]
    exact ⟨⟨hnode, rfl, by simp, by simp⟩, ⟨hvar, hvalue⟩, ⟨hnode, rfl, by simp, by simp⟩,
      by simp⟩
  have horder : ∀ id, id ∈ [("var-v" : Text), "node-1"] ↔ ∃ e ∈ scatteredEdits, e.1 = id := by
    intro id
    simp only [scatteredEdits, List.mem_cons]
    grind
  obtain ⟨d', hall, hmerged⟩ :=
    (patches_compose h he).merged scatteredEdits hedits ["var-v", "node-1"] (by decide) horder
  exact ⟨d₀, d, d', h, he, hall, hmerged⟩

end Diagram

end QueryDiagram
