import Mathlib.Data.List.Nodup
import QueryDiagram.Diagram.Patch

/-!
# Runs of edits

Diagrams that come from a diagram by patches which succeed (`Edited`), and the run of a list of
patches of which some may fail (`attempts`): a patch that fails leaves the diagram as it is, so
such a run ends in an edited diagram (`edited_attempts`). Where identifiers are distinct an edit
changes no more than a label, a name and a value (`Edited.frame_eq`).
-/

namespace QueryDiagram

/-! ## Single patches -/

theorem Patch.eq_of_check_eq_ok {p q : Patch} (h : p.check = .ok q) : q = p := by
  unfold check at h
  split_ifs at h
  exact (Except.ok.inj h).symm

namespace Diagram

variable {α : Type} {d d' : Diagram α} {id : Text} {p : Patch}

/-- A patch succeeds if it has no fault and there is a node to apply it to. -/
theorem patch_eq_ok_iff :
    d.patch id p = .ok d' ↔
      p.check = .ok p ∧ ∃ n, d.node? id = some n ∧ d' = d.replace id (p.apply n) := by
  unfold patch
  cases hp : p.check with
  | error e => simp [bind, Except.bind]
  | ok q =>
    obtain rfl := Patch.eq_of_check_eq_ok hp
    cases hn : d.node? id with
    | none => simp [bind, Except.bind]
    | some n => simp [bind, Except.bind, eq_comm]

/-! ## Runs -/

/-- The second diagram comes from the first by patches that succeed, one after the other. -/
inductive Edited (d : Diagram α) : Diagram α → Prop
  | refl : Edited d d
  | patch {e e' : Diagram α} {id : Text} {p : Patch} (h : Edited d e)
      (hp : e.patch id p = .ok e') : Edited d e'

/-- What every patch that succeeds preserves, edits preserve. -/
theorem Edited.preserves {motive : Diagram α → Prop} (h : Edited d d')
    (step : ∀ d id p d', d.patch id p = .ok d' → motive d → motive d') (hd : motive d) :
    motive d' := by
  induction h with
  | refl => exact hd
  | patch _ hp ih => exact step _ _ _ _ hp ih

theorem Edited.trans {d'' : Diagram α} (h : Edited d d') (h' : Edited d' d'') : Edited d d'' :=
  h'.preserves (fun _ _ _ _ hp he => he.patch hp) h

/-- The fault of a patch, if it has one, and the diagram after it. -/
def attempt (d : Diagram α) (id : Text) (p : Patch) : Option PatchError × Diagram α :=
  match d.patch id p with
  | .ok d' => (none, d')
  | .error e => (some e, d)

/-- The faults of patches made one after the other, and the diagram after them. -/
def attempts (d : Diagram α) : List (Text × Patch) → List (Option PatchError) × Diagram α
  | [] => ([], d)
  | (id, p) :: rest =>
    let first := d.attempt id p
    let others := first.2.attempts rest
    (first.1 :: others.1, others.2)

theorem edited_attempt (d : Diagram α) (id : Text) (p : Patch) :
    Edited d (d.attempt id p).2 := by
  unfold attempt
  split
  · exact Edited.refl.patch ‹_›
  · exact .refl

theorem edited_attempts (d : Diagram α) (edits : List (Text × Patch)) :
    Edited d (d.attempts edits).2 := by
  induction edits generalizing d with
  | nil => exact .refl
  | cons e rest ih => exact (edited_attempt d e.1 e.2).trans (ih _)

end Diagram

/-! ## What an object writes into a node -/

/-- The text under a key, if there is one. -/
def textUnder? (key : Text) (members : Record Json) : Option Text :=
  match members.get? key with
  | some (.str t) => some t
  | _ => none

/-- The node with the label, the name and the value that an object has. -/
def Node.edited {α : Type} (members : Record Json) (n : Node α) : Node α :=
  { n with
    label := (textUnder? "label" members).getD n.label
    data :=
      { n.data with
        name := (textUnder? "name" members).getD n.data.name
        value := (members.get? "value").or n.data.value } }

/-! ## What edits leave as it is -/

/-- The node without its label, its name and its value. -/
def Node.frame {α : Type} (n : Node α) : Node α :=
  { n with label := [], data := { n.data with name := [], value := none } }

theorem Node.id_eq_of_frame_eq {α : Type} {m n : Node α} (h : m.frame = n.frame) :
    m.id = n.id :=
  show m.frame.id = n.frame.id from congrArg id h

theorem Node.kind_eq_of_frame_eq {α : Type} {m n : Node α} (h : m.frame = n.frame) :
    m.kind = n.kind :=
  show m.frame.kind = n.frame.kind from congrArg kind h

theorem Patch.frame_apply {α : Type} (p : Patch) (n : Node α) :
    (p.apply n).frame = n.frame := rfl

namespace Diagram

variable {α : Type} {d d' : Diagram α} {id : Text} {p : Patch}

/-- The diagram without labels, names and values of nodes. -/
def frame (d : Diagram α) : Diagram α := { d with nodes := d.nodes.map Node.frame }

theorem edges_of_frame_eq (h : d'.frame = d.frame) : d'.edges = d.edges :=
  show d'.frame.edges = d.frame.edges from congrArg edges h

theorem document_of_frame_eq (h : d'.frame = d.frame) : d'.document = d.document :=
  show d'.frame.document = d.frame.document from congrArg document h

theorem variableValues_of_frame_eq (h : d'.frame = d.frame) :
    d'.variableValues = d.variableValues :=
  show d'.frame.variableValues = d.frame.variableValues from congrArg variableValues h

/-- What nodes show in their frames they show in the same order in diagrams of the same frame. -/
theorem map_nodes_of_frame_eq {β : Type} (h : d'.frame = d.frame) (f : Node α → β)
    (hf : ∀ n, f n.frame = f n) : d'.nodes.map f = d.nodes.map f := by
  have he := congrArg (fun e => e.nodes.map f) h
  simpa only [frame, List.map_map, Function.comp_def, hf] using he

theorem exists_getElem?_of_frame_eq (h : d'.frame = d.frame) {i : Nat} {n : Node α}
    (hn : d'.nodes[i]? = some n) : ∃ m, d.nodes[i]? = some m ∧ m.frame = n.frame := by
  have he := congrArg (fun e => e.nodes[i]?) h
  simp only [frame, List.getElem?_map, hn] at he
  obtain ⟨m, hm, e⟩ := Option.map_eq_some_iff.1 he.symm
  exact ⟨m, hm, e⟩

theorem exists_mem_of_frame_eq (h : d'.frame = d.frame) {n : Node α} (hn : n ∈ d'.nodes) :
    ∃ m ∈ d.nodes, m.frame = n.frame := by
  obtain ⟨i, hi⟩ := List.mem_iff_getElem?.1 hn
  obtain ⟨m, hm, e⟩ := exists_getElem?_of_frame_eq h hi
  exact ⟨m, List.mem_of_getElem? hm, e⟩

theorem node?_eq_some_iff (h : (d.nodes.map Node.id).Nodup) {n : Node α} :
    d.node? id = some n ↔ n ∈ d.nodes ∧ n.id = id := by
  constructor
  · exact fun hn => ⟨List.mem_of_find?_eq_some hn, by simpa using List.find?_some hn⟩
  · rintro ⟨hn, rfl⟩
    obtain ⟨m, hm⟩ : ∃ m, d.node? n.id = some m :=
      Option.isSome_iff_exists.1 (List.find?_isSome.2 ⟨n, hn, by simp⟩)
    have hid : m.id = n.id := by simpa using List.find?_some hm
    obtain rfl := List.inj_on_of_nodup_map h (List.mem_of_find?_eq_some hm) hn hid
    exact hm

/-- What is put in the place of a node is found there. -/
theorem node?_replace {m n : Node α} (hn : d.node? id = some n) (hm : m.id = id) :
    (d.replace id m).node? id = some m := by
  have hsame : ((fun n : Node α => decide (n.id = id)) ∘ fun n => if n.id = id then m else n) =
      fun n => decide (n.id = id) := by
    funext n
    by_cases h : n.id = id <;> simp [h, hm]
  have hid : n.id = id := by simpa using List.find?_some hn
  rw [node?] at hn
  rw [node?, replace, List.find?_map, hsame, hn, Option.map_some, if_pos hid]

/-- Where identifiers are distinct, a patch that succeeds is applied to the node of its identifier
and to no other. -/
theorem eq_of_patch (hd : (d.nodes.map Node.id).Nodup) (h : d.patch id p = .ok d') :
    d' = { d with nodes := d.nodes.map fun m => if m.id = id then p.apply m else m } := by
  obtain ⟨-, n, hn, rfl⟩ := patch_eq_ok_iff.1 h
  obtain ⟨hmem, rfl⟩ := (node?_eq_some_iff hd).1 hn
  rw [replace]
  congr 1
  refine List.map_congr_left fun m hm => ?_
  split_ifs with hid
  · rw [List.inj_on_of_nodup_map hd hm hmem hid]
  · rfl

theorem frame_eq_of_patch (hd : (d.nodes.map Node.id).Nodup) (h : d.patch id p = .ok d') :
    d'.frame = d.frame := by
  rw [eq_of_patch hd h, frame, frame, List.map_map]
  congr 1
  refine List.map_congr_left fun m _ => ?_
  rw [Function.comp_apply]
  split_ifs
  · exact Patch.frame_apply p m
  · rfl

/-- Edits of a diagram whose identifiers are distinct leave its frame as it is. -/
theorem Edited.frame_eq (hd : (d.nodes.map Node.id).Nodup) (h : Edited d d') :
    d'.frame = d.frame := by
  refine h.preserves (motive := fun e => e.frame = d.frame) (fun e id p e' hp he => ?_) rfl
  refine (frame_eq_of_patch ?_ hp).trans he
  rwa [map_nodes_of_frame_eq he Node.id fun _ => rfl]

end Diagram

end QueryDiagram
