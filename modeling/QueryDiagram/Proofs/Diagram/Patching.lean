import Mathlib
import QueryDiagram.Proofs.Diagram.NodeData
import QueryDiagram.Proofs.Diagram.Output

/-!
# What becomes of a patch

A mapping that is to patch a node is first asked for keys that no patch has, then for null in place
of a label or a name, and then the node is looked for (`PatchCases`). A patch that passes changes
the label, the name and the value of that node as far as the mapping has them, and nothing else of
the diagram (`PatchedAt`). The main statement is `patch_decides`.
-/

namespace QueryDiagram

/-! ## Texts in order -/

namespace Text

theorem le_or_le (s t : Text) : s.le t || t.le s := by
  induction s generalizing t with
  | nil => rfl
  | cons c s ih =>
    cases t with
    | nil => rfl
    | cons d t =>
      by_cases hc : c.val = d.val
      · simpa only [le, hc, if_true] using ih t
      · have hlt := Nat.lt_or_gt_of_ne hc
        simp [le, hc, Ne.symm hc, hlt]

theorem le_of_le_of_le {s t u : Text} (hs : s.le t) (ht : t.le u) : s.le u := by
  induction s generalizing t u with
  | nil => rfl
  | cons c s ih =>
    cases t with
    | nil => cases hs
    | cons d t =>
      cases u with
      | nil => cases ht
      | cons e u =>
        unfold le at hs ht ⊢
        split_ifs at hs ht ⊢ with hcd hde hce hce hde hce hce
        · exact ih hs ht
        all_goals simp only [decide_eq_true_eq] at hs ht ⊢
        all_goals omega

/-- The texts with a property, each once and in code point order. -/
structure Lists (p : Text → Prop) (ts : List Text) : Prop where
  pairwise : ts.Pairwise fun s t => s.le t ∧ s ≠ t
  mem_iff : ∀ t, t ∈ ts ↔ p t

theorem lists_sort {p : Text → Prop} {ts : List Text} (hd : ts.Nodup) (h : ∀ t, t ∈ ts ↔ p t) :
    Lists p (sort ts) where
  pairwise := by
    have hordered : (sort ts).Pairwise fun s t => s.le t :=
      @List.pairwise_mergeSort Text le (fun _ _ _ => le_of_le_of_le) le_or_le ts
    exact hordered.and ((List.mergeSort_perm ts le).nodup_iff.2 hd)
  mem_iff t := List.mem_mergeSort.trans (h t)

theorem Lists.eq_nil_iff {p : Text → Prop} {ts : List Text} (h : Lists p ts) :
    ts = [] ↔ ¬ ∃ t, p t := by
  rw [List.eq_nil_iff_forall_not_mem, not_exists]
  exact forall_congr' fun t => not_congr (h.mem_iff t)

end Text

/-! ## Mappings that are patches -/

namespace Edit

variable {v : Option Json} {e : Edit}

theorem eq_clear_iff_of_ofEntry? (h : ofEntry? v = some e) : e = .clear ↔ v = some .null := by
  unfold ofEntry? at h
  split at h
  · obtain rfl := Option.some.inj h
    simp
  · obtain rfl := Option.some.inj h
    simp
  · obtain rfl := Option.some.inj h
    simp
  · cases h

/-- The edit under a key writes the text under that key, if there is one. -/
theorem apply_of_ofEntry? {r : Record Json} {key : Text} (h : ofEntry? (r.get? key) = some e)
    (t : Text) : e.apply t = (textUnder? key r).getD t := by
  unfold textUnder?
  cases hv : r.get? key with
  | none =>
    rw [hv] at h
    obtain rfl := Option.some.inj h
    rfl
  | some v =>
    rw [hv] at h
    cases v <;> cases h <;> rfl

end Edit

namespace Patch

variable {r : Record Json} {p : Patch}

/-- A key of a mapping that no patch has. -/
def Unknown (r : Record Json) (key : Text) : Prop := key ∈ r.keys ∧ key ∉ keys

/-- A key under which a mapping has null in place of a text. -/
def Cleared (r : Record Json) (key : Text) : Prop :=
  (key = "label" ∨ key = "name") ∧ r.get? key = some .null

theorem ofRecord?_eq_some_iff :
    ofRecord? r = some p ↔ Edit.ofEntry? (r.get? "label") = some p.label ∧
      Edit.ofEntry? (r.get? "name") = some p.name ∧ p.value = r.get? "value" ∧
      p.others = r.keys.filter fun k => !keys.contains k := by
  unfold ofRecord?
  cases hl : Edit.ofEntry? (r.get? "label") with
  | none => simp
  | some label =>
    cases hn : Edit.ofEntry? (r.get? "name") with
    | none => simp
    | some name =>
      obtain ⟨label', name', value, others⟩ := p
      simp [eq_comm]

theorem apply_of_ofRecord? {α : Type} (hp : ofRecord? r = some p) (n : Node α) :
    p.apply n = n.edited r := by
  obtain ⟨hlabel, hname, hvalue, -⟩ := ofRecord?_eq_some_iff.1 hp
  rw [apply, Edit.apply_of_ofEntry? hlabel, Edit.apply_of_ofEntry? hname, hvalue]
  rfl

theorem mem_others_iff (hp : ofRecord? r = some p) (key : Text) :
    key ∈ p.others ↔ Unknown r key := by
  obtain ⟨-, -, -, hothers⟩ := ofRecord?_eq_some_iff.1 hp
  simp [hothers, Unknown]

theorem mem_cleared_iff (hp : ofRecord? r = some p) (key : Text) :
    key ∈ p.cleared ↔ Cleared r key := by
  obtain ⟨hlabel, hname, -, -⟩ := ofRecord?_eq_some_iff.1 hp
  have hl := Edit.eq_clear_iff_of_ofEntry? hlabel
  have hn := Edit.eq_clear_iff_of_ofEntry? hname
  simp only [cleared, List.mem_filterMap, List.mem_cons, List.not_mem_nil, or_false,
    exists_eq_or_imp, exists_eq_left, Option.ite_none_right_eq_some, Option.some.injEq, hl, hn,
    Cleared]
  grind

theorem lists_others (hr : r.keys.Nodup) (hp : ofRecord? r = some p) :
    Text.Lists (Unknown r) (Text.sort p.others) := by
  refine Text.lists_sort ?_ (mem_others_iff hp)
  rw [(ofRecord?_eq_some_iff.1 hp).2.2.2]
  exact hr.filter _

theorem lists_cleared (hp : ofRecord? r = some p) : Text.Lists (Cleared r) p.cleared where
  pairwise := by
    have hsub : p.cleared.Sublist ["label", "name"] := by
      unfold cleared
      by_cases hl : p.label = .clear <;> by_cases hn : p.name = .clear <;> simp [hl, hn]
    refine List.Pairwise.sublist hsub ?_
    decide
  mem_iff := mem_cleared_iff hp

end Patch

/-! ## Cases -/

namespace Diagram

variable {α : Type} {d d' : Diagram α} {id : Text} {r : Record Json} {p : Patch}

theorem node?_eq_none_iff : d.node? id = none ↔ ¬ ∃ n ∈ d.nodes, n.id = id := by
  simp [node?]

/-- What a patch leaves as it is, and what it does to the node that it is for. -/
structure PatchedAt (d : Diagram α) (id : Text) (r : Record Json) (d' : Diagram α) : Prop where
  /-- The diagrams differ in their nodes only. -/
  rest : { d' with nodes := d.nodes } = d
  nodes : (d'.nodes.map fun n => (n.id, n.kind, n.position)) =
    d.nodes.map fun n => (n.id, n.kind, n.position)
  output : d'.output = d.output
  others : ∀ (i : Nat) (n : Node α), d.nodes[i]? = some n → n.id ≠ id → d'.nodes[i]? = some n
  node : ∃ (i : Nat) (n : Node α),
    d.nodes[i]? = some n ∧ n.id = id ∧ d'.nodes[i]? = some (n.edited r)

theorem patchedAt_of_patch (hd : (d.nodes.map Node.id).Nodup) (hp : Patch.ofRecord? r = some p)
    (h : d.patch id p = .ok d') : PatchedAt d id r d' := by
  obtain ⟨-, n, hn, -⟩ := patch_eq_ok_iff.1 h
  obtain ⟨hmem, hid⟩ := (node?_eq_some_iff hd).1 hn
  obtain ⟨i, hi⟩ := List.mem_iff_getElem?.1 hmem
  have hframe := frame_eq_of_patch hd h
  obtain rfl := eq_of_patch hd h
  refine ⟨rfl, map_nodes_of_frame_eq hframe _ fun _ => rfl, output_of_frame_eq hframe, ?_, ?_⟩
  · intro j m hj hne
    simp [hj, hne]
  · exact ⟨i, n, hi, hid, by simp [hi, hid, Patch.apply_of_ofRecord? hp]⟩

/-- What a patch comes to, and when. The cases exclude each other. -/
inductive PatchCases (d : Diagram α) (id : Text) (r : Record Json) :
    Except PatchError (Diagram α) → Prop
  | unknownKeys {keys : List Text} (hkeys : Text.Lists (Patch.Unknown r) keys)
      (hu : ∃ k, Patch.Unknown r k) : PatchCases d id r (.error (.unknownKeys keys))
  | nullKeys {keys : List Text} (hkeys : Text.Lists (Patch.Cleared r) keys)
      (hu : ¬ ∃ k, Patch.Unknown r k) (hc : ∃ k, Patch.Cleared r k) :
      PatchCases d id r (.error (.nullKeys keys))
  | unknownNode (hu : ¬ ∃ k, Patch.Unknown r k) (hc : ¬ ∃ k, Patch.Cleared r k)
      (hn : ¬ ∃ n ∈ d.nodes, n.id = id) : PatchCases d id r (.error (.unknownNode id))
  | patched {d' : Diagram α} (hu : ¬ ∃ k, Patch.Unknown r k) (hc : ¬ ∃ k, Patch.Cleared r k)
      (hn : ∃ n ∈ d.nodes, n.id = id) (h : PatchedAt d id r d') : PatchCases d id r (.ok d')

theorem patch_cases (hd : (d.nodes.map Node.id).Nodup) (hr : r.keys.Nodup)
    (hp : Patch.ofRecord? r = some p) (id : Text) : PatchCases d id r (d.patch id p) := by
  have hunknown := Patch.lists_others hr hp
  have hcleared := Patch.lists_cleared hp
  have hsort : Text.sort p.others = [] ↔ p.others = [] := by
    rw [← List.length_eq_zero_iff, Text.sort, List.length_mergeSort, List.length_eq_zero_iff]
  by_cases ho : p.others = []
  · have hu : ¬ ∃ k, Patch.Unknown r k := hunknown.eq_nil_iff.1 (hsort.2 ho)
    by_cases hc : p.cleared = []
    · have hc' : ¬ ∃ k, Patch.Cleared r k := hcleared.eq_nil_iff.1 hc
      have hcheck : p.check = .ok p := by simp [Patch.check, ho, hc]
      cases hn : d.node? id with
      | none =>
        have herror : d.patch id p = .error (.unknownNode id) := by
          simp [patch, hcheck, hn, bind, Except.bind]
        rw [herror]
        exact .unknownNode hu hc' (node?_eq_none_iff.1 hn)
      | some n =>
        have hok : d.patch id p = .ok (d.replace id (p.apply n)) :=
          patch_eq_ok_iff.2 ⟨hcheck, n, hn, rfl⟩
        obtain ⟨hmem, hid⟩ := (node?_eq_some_iff hd).1 hn
        have hpatched := patchedAt_of_patch hd hp hok
        rw [hok]
        exact .patched hu hc' ⟨n, hmem, hid⟩ hpatched
    · have herror : d.patch id p = .error (.nullKeys p.cleared) := by
        simp [patch, Patch.check, ho, hc, bind, Except.bind]
      rw [herror]
      exact .nullKeys hcleared hu (not_not.1 (mt hcleared.eq_nil_iff.2 hc))
  · have herror : d.patch id p = .error (.unknownKeys (Text.sort p.others)) := by
      simp [patch, Patch.check, ho, bind, Except.bind]
    rw [herror]
    exact .unknownKeys hunknown (not_not.1 (mt hunknown.eq_nil_iff.2 (mt hsort.1 ho)))

/-! ## The result -/

/-- How a patch is decided: for which mappings and nodes it fails in each of the ways, with what
report, and what it does where it does not fail. -/
structure DecidesPatch (d : Diagram α) (id : Text) (r : Record Json)
    (result : Except PatchError (Diagram α)) : Prop where
  unknownKeys_iff : (∃ keys, result = .error (.unknownKeys keys)) ↔ ∃ k, Patch.Unknown r k
  unknownKeys : ∀ keys, result = .error (.unknownKeys keys) → Text.Lists (Patch.Unknown r) keys
  nullKeys_iff : (∃ keys, result = .error (.nullKeys keys)) ↔
    (¬ ∃ k, Patch.Unknown r k) ∧ ∃ k, Patch.Cleared r k
  nullKeys : ∀ keys, result = .error (.nullKeys keys) → Text.Lists (Patch.Cleared r) keys
  unknownNode_iff : ∀ id', result = .error (.unknownNode id') ↔
    (¬ ∃ k, Patch.Unknown r k) ∧ (¬ ∃ k, Patch.Cleared r k) ∧ (¬ ∃ n ∈ d.nodes, n.id = id) ∧
      id' = id
  ok_iff : (∃ d', result = .ok d') ↔
    (¬ ∃ k, Patch.Unknown r k) ∧ (¬ ∃ k, Patch.Cleared r k) ∧ ∃ n ∈ d.nodes, n.id = id
  ok : ∀ d', result = .ok d' → PatchedAt d id r d'

variable [Scalar α] {mode : LayoutMode} {config : LayoutConfig α} {text : Text} {d₀ : Diagram α}

/-- However a built diagram was edited, a mapping from keys patches a node of it exactly if it has
only the keys of a patch, no null for the label or the name, and the node exists; else the first
of these that fails is reported, with all keys at fault. Such a patch changes nothing but the
label, the name and the value of the node, to what the mapping has for them. The mappings are those
that write a patch (`Patch.ofRecord?`): what they have for the label and the name is a text or null,
and what they have for the value and for any other key is any JSON. -/
theorem patch_decides (h : (build mode config text).outcome = .ok d₀) (he : Edited d₀ d)
    (id : Text) (hr : r.keys.Nodup) (hp : Patch.ofRecord? r = some p) :
    DecidesPatch d id r (d.patch id p) := by
  have hcases := patch_cases ((isForest_of_build h).of_edited he).nodup_ids hr hp id
  generalize d.patch id p = result at hcases
  cases hcases with
  | unknownKeys hkeys hu => constructor <;> simp_all
  | nullKeys hkeys hu hc => constructor <;> simp_all
  | unknownNode hu hc hn => constructor <;> simp_all [eq_comm]
  | patched hu hc hn h => constructor <;> simp_all

/-- A mapping with two keys that no patch has, and null for the label and the value. -/
def strayKeys : Record Json :=
  [("x", .int 1), ("label", .null), ("value", .null), ("a", .bool true)]

set_option maxRecDepth 20000 in
/-- After an edit that sets a value, the keys that no patch has are reported, and null is not. -/
theorem patch_decides_strayKeys :
    ∃ (d₀ d : Diagram Rat) (p : Patch),
      (build .precomputed (.standard Rat) fieldAndVariable).outcome = .ok d₀ ∧ Edited d₀ d ∧
      strayKeys.keys.Nodup ∧ Patch.ofRecord? strayKeys = some p ∧
      DecidesPatch d "var-v" strayKeys (d.patch "var-v" p) ∧
      d.patch "var-v" p = .error (.unknownKeys ["a", "x"]) := by
  obtain ⟨d₀, d, p, h, hd, hp, hkeys⟩ : ∃ (d₀ d : Diagram Rat) (p : Patch),
      (build .precomputed (.standard Rat) fieldAndVariable).outcome = .ok d₀ ∧
        d₀.patch "node-1" valuePatch = .ok d ∧ Patch.ofRecord? strayKeys = some p ∧
        d.patch "var-v" p = .error (.unknownKeys ["a", "x"]) :=
    ⟨_, _, _, by cbv, by cbv, by cbv, by cbv⟩
  have he : Edited d₀ d := Edited.refl.patch hd
  have hr : strayKeys.keys.Nodup := by decide
  exact ⟨d₀, d, p, h, he, hr, hp, patch_decides h he "var-v" hr hp, hkeys⟩

end Diagram

end QueryDiagram
