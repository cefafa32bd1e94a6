import Mathlib
import QueryDiagram.Proofs.Diagram.Patching
import QueryDiagram.Proofs.Json.Octets
import QueryDiagram.Proofs.Record
import QueryDiagram.Proofs.Service.Effect

/-!
# Bodies that patch a node

A body writes a patch if it spells an object whose label and name are texts or null where it has
them (`patchOf_eq_ok_iff`); in which encoding it does so makes no difference
(`patchOf_eq_of_spells`). Of the object only the members count that a patch has (`Patch.known`);
they are the mapping that patches the node (`IsPatchBody.patchOf_eq_ok`). Where a call leads to a
node, the result is looked for first, then the mapping is asked for null, and then the node is
looked for (`Service.PatchAnswer`).
-/

namespace QueryDiagram

open Service

variable {α : Type} {body : ByteArray} {members : Record Json}

/-! ## Members that count -/

namespace Patch

/-- The members of an object that a patch has. -/
def known (members : Record Json) : Record Json := members.filter fun m => keys.contains m.1

theorem get?_known {key : Text} (h : keys.contains key) (members : Record Json) :
    (known members).get? key = members.get? key :=
  Record.get?_filter h members

theorem keys_known (members : Record Json) :
    (known members).keys = members.keys.filter keys.contains :=
  Record.keys_filter _ members

theorem not_unknown_known (members : Record Json) (key : Text) : ¬ Unknown (known members) key := by
  rintro ⟨hmem, hkey⟩
  rw [keys_known] at hmem
  exact hkey (by simpa using (List.mem_filter.1 hmem).2)

/-- What counts makes the patch. -/
theorem ofRecord?_known (members : Record Json) :
    ofRecord? (known members) = do
      let label ← Edit.ofEntry? (members.get? "label")
      let name ← Edit.ofEntry? (members.get? "name")
      return { label, name, value := members.get? "value" } := by
  have hothers : (known members).keys.filter (fun k => !keys.contains k) = [] := by
    rw [keys_known, List.filter_filter]
    simp
  rw [ofRecord?, hothers, get?_known (by decide), get?_known (by decide), get?_known (by decide)]

theorem cleared_known_iff {key : Text} : Cleared (known members) key ↔ Cleared members key := by
  refine and_congr_right fun hkey => ?_
  rw [get?_known (by rcases hkey with rfl | rfl <;> decide)]

theorem cleared_known (members : Record Json) : Cleared (known members) = Cleared members :=
  funext fun _ => propext cleared_known_iff

end Patch

theorem Node.edited_known (members : Record Json) (n : Node α) :
    n.edited (Patch.known members) = n.edited members := by
  have hl : Patch.keys.contains "label" := by decide
  have hn : Patch.keys.contains "name" := by decide
  have hv : Patch.keys.contains "value" := by decide
  simp only [edited, textUnder?, Patch.get?_known hl, Patch.get?_known hn, Patch.get?_known hv]

theorem Diagram.PatchedAt.of_known {d d' : Diagram α} {id : Text}
    (h : PatchedAt d id (Patch.known members) d') : PatchedAt d id members d' :=
  { h with node := by simpa only [Node.edited_known] using h.node }

/-! ## Bodies -/

/-- The body spells, in one of the encodings and with or without a mark, a text that is read as
such. -/
def IsReadAs (body : ByteArray) (r : Except Json.ReadError Json) : Prop :=
  ∃ t, Encoding.Spells body.data.toList t ∧ Json.read .lenient t = r

/-- The body writes an object whose label and name are texts or null where it has them. -/
structure IsPatchBody (body : ByteArray) (members : Record Json) : Prop where
  read : IsReadAs body (.ok (.object members))
  label : ∀ v, members.get? "label" = some v → v = .null ∨ ∃ t, v = .str t
  name : ∀ v, members.get? "name" = some v → v = .null ∨ ∃ t, v = .str t

/-- The body has an integer with too many digits to be taken in. -/
def IsOverlong (body : ByteArray) : Prop := IsReadAs body (.error .integerTooLong)

/-- There is no JSON in an empty body. -/
theorem isEmpty_eq_false_of_read {t : Text} (ht : Text.ofJsonBytes? body = some t)
    (hread : Json.read .lenient t ≠ .error .malformed) : body.isEmpty = false := by
  by_contra hempty
  have hbody : body = ByteArray.empty :=
    ByteArray.size_eq_zero_iff.1 (by simpa [ByteArray.isEmpty] using hempty)
  have htext : Text.ofJsonBytes? ByteArray.empty = some [] := by decide +kernel
  rw [hbody, htext] at ht
  obtain rfl := Option.some.inj ht
  exact hread rfl

/-- What is not malformed is taken in as what it spells. -/
theorem isReadAs_iff {r : Except Json.ReadError Json} (hr : r ≠ .error .malformed) :
    IsReadAs body r ↔ body.isEmpty = false ∧
      ∃ t, Text.ofJsonBytes? body = some t ∧ Json.read .lenient t = r := by
  rw [IsReadAs, ← Json.exists_ofJsonBytes?_read_iff hr, iff_and_self]
  rintro ⟨t, ht, hread⟩
  exact isEmpty_eq_false_of_read ht (hread ▸ hr)

/-- Neither the encoding of a body nor a mark in front of it makes a difference. -/
theorem patchOf_eq_of_spells {body' : ByteArray} {t : Text}
    (hread : Json.read .lenient t ≠ .error .malformed)
    (h : Encoding.Spells body.data.toList t) (h' : Encoding.Spells body'.data.toList t) :
    patchOf (α := α) body' = patchOf body := by
  have hplain := Json.beginsPlainly_of_read hread
  have ht := (Text.ofJsonBytes?_eq_some_iff hplain).2 h
  have ht' := (Text.ofJsonBytes?_eq_some_iff hplain).2 h'
  rw [patchOf, patchOf, isEmpty_eq_false_of_read ht hread, isEmpty_eq_false_of_read ht' hread, ht,
    ht']

theorem Edit.exists_ofEntry? {v : Option Json}
    (h : ∀ w, v = some w → w = .null ∨ ∃ t, w = .str t) : ∃ e, ofEntry? v = some e := by
  cases v with
  | none => exact ⟨_, rfl⟩
  | some w =>
    rcases h w rfl with rfl | ⟨t, rfl⟩
    · exact ⟨_, rfl⟩
    · exact ⟨_, rfl⟩

theorem Service.editOf_eq_ok {key : Text} {v : Option Json} {e : Edit}
    (h : Edit.ofEntry? v = some e) : editOf key v = .ok e := by
  unfold Edit.ofEntry? at h
  split at h
  · exact congrArg Except.ok (Option.some.inj h)
  · exact congrArg Except.ok (Option.some.inj h)
  · exact congrArg Except.ok (Option.some.inj h)
  · cases h

/-- Only a text or null is taken in as an edit. -/
theorem Service.eq_null_or_str_of_editOf {key : Text} {v : Json} {e : Edit}
    (h : editOf key (some v) = .ok e) : v = .null ∨ ∃ t, v = .str t := by
  cases v with
  | null => exact .inl rfl
  | str t => exact .inr ⟨t, rfl⟩
  | _ => cases h

theorem Service.editOf_of_patchOfMembers {p : Patch} (h : patchOfMembers members = .ok p) :
    (∃ e, editOf "label" (members.get? "label") = .ok e) ∧
      ∃ e, editOf "name" (members.get? "name") = .ok e := by
  unfold patchOfMembers at h
  split at h
  · exact ⟨⟨_, ‹_›⟩, _, ‹_›⟩
  all_goals cases h

namespace IsPatchBody

theorem nodup_keys (h : IsPatchBody body members) : (Patch.known members).keys.Nodup := by
  obtain ⟨t, -, hread⟩ := h.read
  rw [Patch.keys_known]
  exact (Json.keysDistinct_of_read hread).nodup.filter _

/-- The patch in a body is the one that the members which count write. -/
theorem patchOf_eq_ok (h : IsPatchBody body members) :
    ∃ p : Patch, patchOf (α := α) body = .ok p ∧
      Patch.ofRecord? (Patch.known members) = some p := by
  obtain ⟨label, hlabel⟩ := Edit.exists_ofEntry? h.label
  obtain ⟨name, hname⟩ := Edit.exists_ofEntry? h.name
  obtain ⟨hempty, t, ht, hread⟩ := (isReadAs_iff (by simp)).1 h.read
  refine ⟨{ label, name, value := members.get? "value" }, ?_, ?_⟩
  · rw [patchOf, hempty]
    simp only [ht, hread, patchOfMembers, editOf_eq_ok hlabel, editOf_eq_ok hname,
      Bool.false_eq_true, if_false]
    rfl
  · rw [Patch.ofRecord?_known, hlabel, hname]
    rfl

/-- Two bodies with the same label, name and value write the same patch. -/
theorem patchOf_congr {body' : ByteArray} {members' : Record Json} (h : IsPatchBody body members)
    (h' : IsPatchBody body' members')
    (hsame : ∀ key, Patch.keys.contains key → members'.get? key = members.get? key) :
    patchOf (α := α) body' = patchOf body := by
  obtain ⟨p, hp, hrecord⟩ := h.patchOf_eq_ok (α := α)
  obtain ⟨p', hp', hrecord'⟩ := h'.patchOf_eq_ok (α := α)
  rw [Patch.ofRecord?_known, hsame _ (by decide), hsame _ (by decide), hsame _ (by decide),
    ← Patch.ofRecord?_known, hrecord] at hrecord'
  rw [hp, hp', Option.some.inj hrecord']

end IsPatchBody

/-- No other bodies write a patch. -/
theorem exists_isPatchBody_of_patchOf {p : Patch} (h : patchOf (α := α) body = .ok p) :
    ∃ members, IsPatchBody body members := by
  unfold patchOf at h
  split at h
  · cases h
  rename_i hempty
  split at h
  · cases h
  rename_i t ht
  split at h
  · cases h
  · cases h
  · rename_i members hread
    cases hmembers : patchOfMembers members with
    | error faults =>
      rw [hmembers] at h
      cases h
    | ok p' =>
      obtain ⟨⟨label, hlabel⟩, name, hname⟩ := editOf_of_patchOfMembers hmembers
      have hbody : IsReadAs body (.ok (.object members)) :=
        (isReadAs_iff (by simp)).2 ⟨by simpa using hempty, t, ht, hread⟩
      exact ⟨members, hbody, fun v hv => eq_null_or_str_of_editOf (hv ▸ hlabel),
        fun v hv => eq_null_or_str_of_editOf (hv ▸ hname)⟩
  · cases h

/-- A body writes a patch exactly if it spells an object whose label and name are texts or null
where it has them; the members that count make the patch. -/
theorem patchOf_eq_ok_iff {p : Patch} :
    patchOf (α := α) body = .ok p ↔
      ∃ members, IsPatchBody body members ∧ Patch.ofRecord? (Patch.known members) = some p := by
  constructor
  · intro h
    obtain ⟨members, hbody⟩ := exists_isPatchBody_of_patchOf h
    obtain ⟨p', hp', hrecord⟩ := hbody.patchOf_eq_ok (α := α)
    obtain rfl := Except.ok.inj (h.symm.trans hp')
    exact ⟨members, hbody, hrecord⟩
  · rintro ⟨members, hbody, hrecord⟩
    obtain ⟨p', hp', hrecord'⟩ := hbody.patchOf_eq_ok (α := α)
    rw [hp', Option.some.inj (hrecord'.symm.trans hrecord)]

/-- A call asks for an edit if it leads to a node and its body writes a patch. -/
theorem Call.edit?_eq_some_iff {call : Call} {edit : StoredEdit} :
    call.edit? α = some edit ↔ ∃ node id body members,
      call = .patch (.issued edit.serial) node body ∧
        (Path.toNode (.issued edit.serial) node).target? = some (.node id edit.node) ∧
        IsPatchBody body members ∧
        Patch.ofRecord? (Patch.known members) = some edit.patch := by
  constructor
  · intro h
    unfold Call.edit? at h
    split at h
    · rename_i serial node body
      split at h
      · rename_i id node' p htarget hp
        obtain rfl := Option.some.inj h
        obtain ⟨members, hbody, hrecord⟩ := patchOf_eq_ok_iff.1 hp
        exact ⟨node, id, body, members, rfl, htarget, hbody, hrecord⟩
      · cases h
    · cases h
  · rintro ⟨node, id, body, members, rfl, htarget, hbody, hrecord⟩
    simp only [Call.edit?, htarget, patchOf_eq_ok_iff.2 ⟨members, hbody, hrecord⟩]

/-! ## Answers -/

namespace Service

variable {store : Store α} {id : Segment} {node : Text}

theorem find?_eq_some_iff {serial : Nat} {d : Diagram α} :
    find? store id = some (serial, d) ↔ id = .issued serial ∧ store.get? serial = some d := by
  cases id with
  | issued s =>
    simp only [find?, Option.map_eq_some_iff, Prod.mk.injEq, Segment.issued.injEq]
    constructor
    · rintro ⟨d', hd, rfl, rfl⟩
      exact ⟨rfl, hd⟩
    · rintro ⟨rfl, hd⟩
      exact ⟨d, hd, rfl, rfl⟩
  | text t => simp [find?]

theorem find?_unique {serial serial' : Nat} {d d' : Diagram α}
    (h : find? store id = some (serial, d)) (h' : find? store id = some (serial', d')) :
    serial' = serial ∧ d' = d :=
  Prod.mk.inj (Option.some.inj (h'.symm.trans h))

/-- If the result is live, its nodes have distinct identifiers. -/
def NodupIds (store : Store α) (id : Segment) : Prop :=
  ∀ serial d, find? store id = some (serial, d) → (d.nodes.map Node.id).Nodup

theorem nodupIds_of_find? {serial : Nat} {d : Diagram α} (h : find? store id = some (serial, d))
    (hd : (d.nodes.map Node.id).Nodup) : NodupIds store id := by
  intro serial' d' h'
  obtain ⟨rfl, rfl⟩ := find?_unique h h'
  exact hd

/-- What is answered where a call leads to a node, before it is sent, and the store after it. The
cases exclude each other. -/
inductive PatchAnswer (store : Store α) (id : Segment) (node : Text) (members : Record Json) :
    Store α × Answer α → Prop
  | noResult (hd : find? store id = none) :
      PatchAnswer store id node members (store, .notFound .result)
  | nullKeys {e : Nat × Diagram α} {keys : List Text} (hd : find? store id = some e)
      (hc : ∃ k, Patch.Cleared members k) (hkeys : Text.Lists (Patch.Cleared members) keys) :
      PatchAnswer store id node members (store, .badRequest (PatchError.nullKeys keys).message)
  | noNode {e : Nat × Diagram α} (hd : find? store id = some e)
      (hc : ¬ ∃ k, Patch.Cleared members k) (hn : ¬ ∃ n ∈ e.2.nodes, n.id = node) :
      PatchAnswer store id node members (store, .notFound .node)
  | patched {serial : Nat} {d : Diagram α} {n : Node α} (hd : find? store id = some (serial, d))
      (hc : ¬ ∃ k, Patch.Cleared members k) (hn : n ∈ d.nodes) (hid : n.id = node)
      (h : d.PatchedAt node members (d.replace node (n.edited members))) :
      PatchAnswer store id node members
        (store.update serial (d.replace node (n.edited members)), .node (n.edited members))

theorem patchAnswer_answerAt (hids : NodupIds store id) (hbody : IsPatchBody body members)
    (node : Text) :
    PatchAnswer store id node members (answerAt store (.node id node) (.patch body)) := by
  obtain ⟨p, hp, hrecord⟩ := hbody.patchOf_eq_ok (α := α)
  rw [answerAt, patch, hp]
  change PatchAnswer store id node members (withResult store id (patchResult store node p))
  unfold withResult
  cases hd : find? store id with
  | none => exact .noResult hd
  | some e =>
    obtain ⟨serial, d⟩ := e
    have hnodup := hids serial d hd
    have hcases := Diagram.patch_cases hnodup hbody.nodup_keys hrecord node
    change PatchAnswer store id node members (patchResult store node p serial d)
    unfold patchResult
    cases hresult : d.patch node p with
    | error e =>
      rw [hresult] at hcases
      cases hcases with
      | unknownKeys _ hu =>
        -- such keys were left aside with the members that do not count
        obtain ⟨k, hk⟩ := hu
        exact absurd hk (Patch.not_unknown_known members k)
      | nullKeys hkeys _ hc =>
        rw [Patch.cleared_known] at hkeys hc
        exact .nullKeys hd hc hkeys
      | unknownNode _ hc hn =>
        rw [Patch.cleared_known] at hc
        exact .noNode hd hc hn
    | ok d' =>
      have hpatched := (Diagram.patchedAt_of_patch hnodup hrecord hresult).of_known
      obtain ⟨-, n, hn, rfl⟩ := Diagram.patch_eq_ok_iff.1 hresult
      obtain ⟨hmem, hid⟩ := (Diagram.node?_eq_some_iff hnodup).1 hn
      have hedited : p.apply n = n.edited members := by
        rw [Patch.apply_of_ofRecord? hrecord, Node.edited_known]
      rw [hedited] at hpatched ⊢
      rw [hresult] at hcases
      have hc : ¬ ∃ k, Patch.Cleared members k := by
        cases hcases with
        | patched _ hc _ _ => rwa [Patch.cleared_known] at hc
      have hagain : (d.replace node (n.edited members)).node? node = some (n.edited members) :=
        Diagram.node?_replace hn hid
      simp only [hagain]
      exact .patched hd hc hmem hid hpatched

end Service

end QueryDiagram
