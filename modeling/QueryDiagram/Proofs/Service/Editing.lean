import Mathlib
import QueryDiagram.Proofs.Diagram.Forest
import QueryDiagram.Proofs.Service.Bodies
import QueryDiagram.Proofs.Service.History
import QueryDiagram.Proofs.Service.Retention

/-!
# Editing the nodes of a result

Whatever calls were made, a live result comes from a diagram that was built by edits
(`drawn_run`), so its nodes are known by their identifiers and can be found again. A body that
writes an edit is carried out on the node that a call leads to (`answerAt_edit`). The identifier of
a node leads there unless it has a slash, and only the name of a variable can bring one in
(`slash_mem_id_iff`).
-/

namespace QueryDiagram

open Service

variable {α : Type}

/-! ## Bodies that write an edit -/

/-- The body writes an object whose label and name are texts where it has them. -/
structure IsEdit (body : ByteArray) (members : Record Json) : Prop where
  read : IsReadAs body (.ok (.object members))
  label : ∀ v, members.get? "label" = some v → ∃ t, v = .str t
  name : ∀ v, members.get? "name" = some v → ∃ t, v = .str t

namespace IsEdit

variable {body : ByteArray} {members : Record Json}

theorem isPatchBody (h : IsEdit body members) : IsPatchBody body members where
  read := h.read
  label v hv := .inr (h.label v hv)
  name v hv := .inr (h.name v hv)

theorem not_cleared (h : IsEdit body members) (key : Text) : ¬ Patch.Cleared members key := by
  rintro ⟨rfl | rfl, hnull⟩
  · obtain ⟨t, ht⟩ := h.label _ hnull
    cases ht
  · obtain ⟨t, ht⟩ := h.name _ hnull
    cases ht

end IsEdit

/-! ## Nodes that can be sent -/

theorem Json.isWellFormed_object {members : List (Text × Json)} :
    (object members).isWellFormed ↔ ∀ m ∈ members, m.1.isWellFormed ∧ m.2.isWellFormed := by
  simp only [isWellFormed, subvalues, List.all_cons, texts, Bool.and_eq_true, List.all_eq_true,
    List.mem_map, mem_subvaluesOfMembers]
  constructor
  · rintro ⟨hkeys, hvalues⟩ m hm
    exact ⟨hkeys _ ⟨m, hm, rfl⟩, fun w hw => hvalues w ⟨m, hm, hw⟩⟩
  · intro h
    refine ⟨?_, ?_⟩
    · rintro _ ⟨m, hm, rfl⟩
      exact (h m hm).1
    · rintro w ⟨m, hm, hw⟩
      exact (h m hm).2 w hw

/-- The value can be sent as part of a result. -/
def Json.IsSendable (v : Json) : Prop := v.isWellFormed ∧ v.depth ≤ maxDepth

theorem Record.isSendable_iff {r : Record Json} :
    r.isSendable ↔ ∀ m ∈ r, m.1.isWellFormed ∧ m.2.IsSendable := by
  simp only [isSendable, Bool.and_eq_true, Json.isWellFormed_object, List.all_eq_true,
    decide_eq_true_eq, Json.IsSendable]
  grind

theorem NodeData.forall_mem_member {β : Type} {key : Text} {toJson : β → Json} {o : Option β}
    {p : Text × Json → Prop} : (∀ m ∈ member key toJson o, p m) ↔ ∀ a ∈ o, p (key, toJson a) := by
  cases o <;> simp [member]

theorem Json.isSendable_str {t : Text} : (str t).IsSendable ↔ t.isWellFormed := by
  simp [IsSendable, isWellFormed, subvalues, texts, depth, maxDepth]

/-- Apart from its frame, a node can be sent if its label, its name and its value can. -/
theorem Node.isSendable_iff {n : Node α} :
    n.isSendable ↔ n.frame.isSendable ∧ n.label.isWellFormed ∧ n.data.name.isWellFormed ∧
      ∀ v ∈ n.data.value, v.IsSendable := by
  have hempty : Text.isWellFormed [] := rfl
  have hkeys : Text.isWellFormed "name" ∧ Text.isWellFormed "value" := by decide
  simp only [isSendable, frame, Bool.and_eq_true, Record.isSendable_iff, NodeData.toRecord,
    List.forall_mem_append, NodeData.forall_mem_member, Json.isSendable_str, id_eq, hempty, hkeys,
    Option.mem_def, reduceCtorEq, Option.some.injEq, forall_eq', false_imp_iff, true_and]
  tauto

/-- What an object writes into a node can be sent. -/
def IsSendableEdit (members : Record Json) : Prop :=
  (∀ t ∈ textUnder? "label" members, t.isWellFormed) ∧
    (∀ t ∈ textUnder? "name" members, t.isWellFormed) ∧
      ∀ v ∈ members.get? "value", v.IsSendable

/-- A node that can be sent can be sent after an edit if what the edit writes can. -/
theorem Node.isSendable_edited {n : Node α} (hn : n.isSendable) (members : Record Json) :
    (n.edited members).isSendable ↔ IsSendableEdit members := by
  obtain ⟨hframe, hlabel, hname, hvalue⟩ := isSendable_iff.1 hn
  have hsame : (n.edited members).frame = n.frame := rfl
  rw [isSendable_iff, hsame, IsSendableEdit, and_iff_right hframe]
  refine and_congr ?_ (and_congr ?_ ?_)
  · cases h : textUnder? "label" members <;> simp [edited, h, hlabel]
  · cases h : textUnder? "name" members <;> simp [edited, h, hname]
  · cases h : members.get? "value" with
    | none => simpa [edited, h] using hvalue
    | some v => simp [edited, h]

/-! ## Results of a run -/

/-- Every diagram in the store was built and then edited. -/
def Store.Drawn [Scalar α] (store : Store α) : Prop :=
  ∀ e ∈ store.entries, ∃ mode text d,
    (Diagram.build mode (.standard α) text).outcome = .ok d ∧ Diagram.Edited d e.2

section Drawn

variable [Scalar α] {settings : Settings} {store : Store α} {call : Call} {d : Diagram α}

omit [Scalar α] in
theorem Store.mem_of_get? {serial : Nat} (h : store.get? serial = some d) :
    (serial, d) ∈ store.entries := by
  obtain ⟨before, after, he, -⟩ := List.lookup_eq_some_iff.1 h
  simp [he]

theorem Call.built_of_drawn? (h : call.drawn? settings = some d) :
    ∃ mode text, (Diagram.build mode (.standard α) text).outcome = .ok d := by
  unfold drawn? at h
  split at h
  · split at h
    · rename_i mode text _ _
      cases hbuilt : (Diagram.build mode (.standard α) text).outcome with
      | error e => simp [hbuilt, Except.toOption] at h
      | ok d' =>
        obtain rfl : d' = d := by simpa [hbuilt, Except.toOption] using h
        exact ⟨mode, text, hbuilt⟩
    · cases h
  · cases h

/-- A call stores a built diagram, edits a stored one, or takes some away. -/
theorem Service.Effect.drawn {after : Store α × Answer α}
    (h : Effect settings store call after) (hs : store.Drawn) : after.1.Drawn := by
  cases h with
  | refused _ h =>
    rw [h.1]
    exact hs
  | read _ => exact hs
  | @stored d hd =>
    intro e he
    rcases List.mem_append.1 he with he | he
    · exact hs e (List.mem_of_mem_drop he)
    · obtain rfl := List.mem_singleton.1 he
      obtain ⟨mode, text, hbuilt⟩ := Call.built_of_drawn? hd
      exact ⟨mode, text, d, hbuilt, .refl⟩
  | edited _ hd hp _ =>
    intro e he
    rcases Store.mem_update he with rfl | ⟨-, he⟩
    · obtain ⟨mode, text, d₀, hbuilt, hedited⟩ := hs _ (Store.mem_of_get? hd)
      exact ⟨mode, text, d₀, hbuilt, hedited.patch hp⟩
    · exact hs e he
  | erased _ _ => exact fun e he => hs e (List.mem_of_mem_filter he)

/-- A service without any room stores nothing. -/
theorem Service.entries_parse_of_no_room (hm : settings.maxResults = 0) (store : Store α)
    (body : ByteArray) (layoutMode : Option Text) :
    (parse settings store body layoutMode).2.1.entries ⊆ store.entries := by
  have hkeep : ∀ built, (keep settings store built).1.entries ⊆ store.entries := by
    intro built
    rcases built with (_ | _) | d
    · exact List.Subset.refl _
    · exact List.Subset.refl _
    · simp [keep, Store.add, hm, Store.evict_zero]
  unfold parse
  split
  · exact List.Subset.refl _
  · split
    · exact List.Subset.refl _
    · exact hkeep _

/-- How much room there is matters to submissions alone. -/
theorem Service.perform_eq_perform {settings' : Settings}
    (h : ∀ body layoutMode, call ≠ .parse body layoutMode) :
    perform settings store call = perform settings' store call := by
  cases call with
  | parse body layoutMode => exact absurd rfl (h body layoutMode)
  | _ => rfl

theorem Service.drawn_perform (settings : Settings) (hs : store.Drawn) (call : Call) :
    (perform settings store call).2.1.Drawn := by
  rcases Nat.eq_zero_or_pos settings.maxResults with hm | hm
  · by_cases hc : ∃ body layoutMode, call = .parse body layoutMode
    · obtain ⟨body, layoutMode, rfl⟩ := hc
      exact fun e he => hs e (entries_parse_of_no_room hm store body layoutMode he)
    · push Not at hc
      let roomy : Settings := ⟨1, settings.layoutMode⟩
      have hroomy : Effect roomy store call (perform roomy store call).2 :=
        effect_perform Nat.one_pos store call
      rw [perform_eq_perform hc]
      exact hroomy.drawn hs
  · exact (effect_perform hm store call).drawn hs

/-- Every result that is live after some calls was built and then edited. -/
theorem Service.drawn_run (settings : Settings) (calls : List Call) :
    (run settings calls : Run α).store.Drawn := by
  induction calls using run_induction (α := α) settings with
  | start => exact fun e he => absurd he List.not_mem_nil
  | step calls call ih => exact drawn_perform settings ih call

theorem Store.Drawn.isForest (hs : store.Drawn) {serial : Nat} (h : store.get? serial = some d) :
    d.IsForest := by
  obtain ⟨mode, text, d₀, hbuilt, hedited⟩ := hs _ (Store.mem_of_get? h)
  exact (Diagram.isForest_of_build hbuilt).of_edited hedited

theorem Store.Drawn.nodupIds (hs : store.Drawn) (id : Segment) : NodupIds store id := by
  intro serial d h
  exact (hs.isForest (find?_eq_some_iff.1 h).2).nodup_ids

end Drawn

/-! ## Nodes and their identifiers -/

section Nodes

variable {d : Diagram α} {n : Node α}

/-- Identifiers begin with one of two words. -/
theorem Diagram.IsForest.id_cases (hd : d.IsForest) (hn : n ∈ d.nodes) :
    (∃ i, n.id = ("node-" : Text) ++ Text.ofNat i) ∨
      ∃ name ∈ d.variableValues.keys, n.id = Variables.idOf name := by
  have hid := List.mem_map_of_mem (f := Node.id) hn
  rw [hd.ids] at hid
  rcases List.mem_append.1 hid with h | h
  · obtain ⟨i, -, e⟩ := List.mem_map.1 h
    exact .inl ⟨i, e.symm⟩
  · obtain ⟨name, hm, e⟩ := List.mem_map.1 h
    exact .inr ⟨name, hm, e.symm⟩

/-- Only the name of a variable brings a slash into an identifier. -/
theorem Diagram.IsForest.slash_mem_id_iff (hd : d.IsForest) (hn : n ∈ d.nodes) :
    .scalar '/' ∈ n.id ↔ ∃ name ∈ d.variableValues.keys, n.id = Variables.idOf name ∧
      .scalar '/' ∈ name := by
  have hmark : ∀ name : Text, .scalar '/' ∈ Variables.idOf name → .scalar '/' ∈ name := by
    intro name h
    simpa [Variables.idOf, Text.ofString] using h
  constructor
  · intro h
    rcases hd.id_cases hn with ⟨i, e⟩ | ⟨name, hm, e⟩
    · rw [e, List.mem_append] at h
      exact absurd (h.resolve_left (by decide)) (Text.not_mem_ofNat (by decide) i)
    · exact ⟨name, hm, e, hmark name (e ▸ h)⟩
  · rintro ⟨name, -, e, h⟩
    rw [e, Variables.idOf]
    exact List.mem_append_right _ h

theorem Diagram.IsForest.length_id (hd : d.IsForest) (hn : n ∈ d.nodes) : 4 ≤ n.id.length := by
  rcases hd.id_cases hn with ⟨i, e⟩ | ⟨name, -, e⟩
  · rw [e, List.length_append]
    exact Nat.le_add_right_of_le (by decide)
  · rw [e, Variables.idOf, List.length_append]
    exact Nat.le_add_right_of_le (by decide)

end Nodes

/-! ## The result -/

namespace Service

variable [Scalar α] {store : Store α} {serial : Nat} {d : Diagram α} {n : Node α}
  {body : ByteArray} {members : Record Json}

omit [Scalar α] in
/-- An edit of a node of a live result is carried out where the call leads to that node. -/
theorem answerAt_edit (hd : store.get? serial = some d) (hids : (d.nodes.map Node.id).Nodup)
    (hn : n ∈ d.nodes) (hbody : IsEdit body members) :
    answerAt store (.node (.issued serial) n.id) (.patch body) =
      (store.update serial (d.replace n.id (n.edited members)), .node (n.edited members)) := by
  have hlive : find? store (.issued serial) = some (serial, d) := find?_eq_some_iff.2 ⟨rfl, hd⟩
  have hcases := patchAnswer_answerAt (nodupIds_of_find? hlive hids) hbody.isPatchBody n.id
  generalize answerAt store (.node (.issued serial) n.id) (.patch body) = after at hcases ⊢
  cases hcases with
  | noResult h => cases h.symm.trans hlive
  | nullKeys _ hc _ =>
    obtain ⟨k, hk⟩ := hc
    exact absurd hk (hbody.not_cleared k)
  | noNode h _ hnone =>
    obtain rfl := Option.some.inj (h.symm.trans hlive)
    exact absurd ⟨n, hn, rfl⟩ hnone
  | patched h _ hm hid _ =>
    obtain ⟨rfl, rfl⟩ := find?_unique h hlive
    obtain rfl := List.inj_on_of_nodup_map hids hm hn hid
    rfl

/-- What a call gets is live, and can be sent. -/
theorem get?_of_handle_get {settings : Settings}
    (h : (handle settings store (.get (.issued serial))).2.2 = .result serial d) :
    store.get? serial = some d ∧ d.isSendable := by
  have hsend : d.isSendable := by
    have hsent := Answer.isSendable_sent (perform settings store (.get (.issued serial))).2.2
    rwa [← answer_handle, h] at hsent
  have hanswer : (perform settings store (.get (.issued serial))).2.2 = .result serial d :=
    (Answer.sent_eq_of_status (congrArg Answer.status h)).symm.trans h
  rw [perform_get] at hanswer
  cases hlive : store.get? serial with
  | none =>
    rw [hlive] at hanswer
    cases hanswer
  | some d' =>
    rw [hlive] at hanswer
    cases hanswer
    exact ⟨rfl, hsend⟩

theorem handle_get_of_live (settings : Settings) (h : store.get? serial = some d)
    (hs : d.isSendable) :
    (handle settings store (.get (.issued serial))).2.2 = .result serial d := by
  rw [answer_handle, perform_get_of_live settings h]
  exact Answer.sent_of_isSendable hs

omit [Scalar α] in
theorem id_of_patchResult {node : Text} {p : Patch} {m : Node α}
    (h : (patchResult store node p serial d).2 = .node m) : m.id = node := by
  unfold patchResult at h
  split at h
  · cases h
  · cases h
  · split at h
    · rename_i n hn
      obtain rfl := Answer.node.inj h
      simpa using List.find?_some hn
    · cases h

omit [Scalar α] in
/-- A node is shown where a call leads to that node. -/
theorem exists_node_of_answerAt {endpoint : Endpoint} {method : Method} {m : Node α}
    (h : (answerAt store endpoint method).2 = .node m) : ∃ id, endpoint = .node id m.id := by
  unfold answerAt at h
  split at h
  · unfold withResult at h
    split at h <;> cases h
  · unfold withResult at h
    split at h <;> cases h
  · unfold withResult at h
    split at h <;> cases h
  · rename_i id node body
    unfold patch at h
    split at h
    · rename_i refusal hrefusal
      rcases eq_of_patchOf_eq_error hrefusal with rfl | ⟨faults, rfl⟩ <;> cases h
    · unfold withResult at h
      split at h
      · exact ⟨id, by rw [id_of_patchResult h]⟩
      · cases h
  · cases h

/-- A node that a call shows after an edit has no slash in its identifier. -/
theorem slash_not_mem_id_of_patch {settings : Settings} {id : Segment} {node : Text}
    {m : Node α} (h : (handle settings store (.patch id node body)).2.2 = .node m) :
    .scalar '/' ∉ m.id := by
  have hsent := Answer.sent_eq_of_status (congrArg Answer.status h)
  have hanswer : (request store (.toNode id node) (.patch body)).2 = .node m :=
    hsent.symm.trans h
  unfold request at hanswer
  split at hanswer
  · rename_i endpoint htarget
    obtain ⟨id', rfl⟩ := exists_node_of_answerAt hanswer
    exact Path.slash_not_mem_of_target? htarget
  · cases hanswer

/-- What becomes of an edit of a node that a live result shows. -/
structure EditReaches (settings : Settings) (store : Store α) (serial : Nat) (d : Diagram α)
    (n : Node α) (body : ByteArray) (members : Record Json) : Prop where
  /-- The path to the node, encoded once and decoded once, leads there unless the identifier of the
  node has a slash. -/
  path : (Path.toNode (.issued serial) n.id).arriving.endpoint? =
    if .scalar '/' ∈ n.id then none else some (.node (.issued serial) n.id)
  slash_iff : .scalar '/' ∈ n.id ↔ ∃ name ∈ d.variableValues.keys,
    n.id = Variables.idOf name ∧ .scalar '/' ∈ name
  /-- Where a call leads to the node, the node is found, edited and answered. -/
  answer : answerAt store (.node (.issued serial) n.id) (.patch body) =
    (store.update serial (d.replace n.id (n.edited members)), .node (n.edited members))
  sent_iff : (Answer.node (n.edited members)).sent = .node (n.edited members) ↔
    IsSendableEdit members
  /-- No call at all leads to a node with a slash in its identifier. -/
  refused : .scalar '/' ∈ n.id → ∀ id node body',
    (handle settings store (.patch id node body')).2.2 ≠ .node (n.edited members)
  /-- A percent sign is decoded once more where calls are sent, so it leads to another node. -/
  handled : .scalar '/' ∉ n.id → .scalar '%' ∉ n.id →
    (handle settings store (.patch (.issued serial) n.id body)).2 =
      (store.update serial (d.replace n.id (n.edited members)),
        (Answer.node (n.edited members)).sent)

omit [Scalar α] in
theorem sent_node_iff {m : Node α} : (Answer.node m).sent = .node m ↔ m.isSendable := by
  constructor
  · intro h
    have hsent := Answer.isSendable_sent (.node m)
    rwa [h] at hsent
  · exact fun h => Answer.sent_of_isSendable h

/-- Every node that a live result shows can be found again and edited, and the answer is the edited
node; but the path to the node does not lead there if the node is that of a variable with a slash
in its name, and the answer cannot be sent if what was written into the node cannot. -/
theorem edit_reaches_node (settings : Settings) (calls : List Call)
    (hget : (handle settings (run settings calls).store (.get (.issued serial))).2.2 =
      .result serial d)
    (hn : n ∈ d.nodes) (hbody : IsEdit body members) :
    EditReaches settings (run settings calls).store serial d n body members := by
  obtain ⟨hd, hsend⟩ := get?_of_handle_get hget
  have hforest : d.IsForest := (drawn_run settings calls).isForest hd
  have hsegment : isPathSegment n.id ↔ .scalar '/' ∉ n.id := by
    have hne : n.id ≠ [] := List.ne_nil_of_length_pos (by have := hforest.length_id hn; omega)
    simp [isPathSegment, hne]
  have hanswer := answerAt_edit hd hforest.nodup_ids hn hbody
  refine ⟨?_, hforest.slash_mem_id_iff hn, hanswer, ?_, ?_, ?_⟩
  · rw [Path.endpoint?_arriving_toNode]
    simp only [hsegment, ite_not]
  · have hnode : n.isSendable := by
      simp only [Diagram.isSendable, Bool.and_eq_true, List.all_eq_true] at hsend
      exact hsend.1.1.2 n hn
    rw [sent_node_iff, Node.isSendable_edited hnode]
  · exact fun hslash id node body' h => slash_not_mem_id_of_patch h hslash
  · intro hslash hpercent
    have hlong : ∀ t : Text, t.length < 4 → n.id ≠ t := by
      rintro t ht rfl
      have := hforest.length_id hn
      omega
    have htarget := Path.target?_toNode_issued serial hpercent (hsegment.2 hslash)
      (hlong "." (by decide)) (hlong ".." (by decide))
    have hrequest : request (run settings calls).store (.toNode (.issued serial) n.id)
        (.patch body) = answerAt (run settings calls : Run α).store
          (.node (.issued serial) n.id) (.patch body) := by
      rw [request, htarget]
    exact congrArg (fun after : Store α × Answer α => (after.1, after.2.sent))
      (hrequest.trans hanswer)

theorem isEdit_labelBody : IsEdit labelBody [("label", .str "b")] where
  read := ⟨"\x7b\"label\":\"b\"\x7d", ⟨.utf8, trivial, .inl (by decide +kernel)⟩, by cbv⟩
  label v hv := ⟨"b", (Option.some.inj hv).symm⟩
  name v hv := by cases hv

set_option maxRecDepth 20000 in
/-- The root of a small submission gets another label. -/
theorem edit_reaches_node_smallSubmission :
    let settings : Settings := ⟨1, .precomputed⟩
    let calls : List Call := [.parse smallSubmission none]
    ∃ (d : Diagram Rat) (n : Node Rat),
      (handle settings (run settings calls).store (.get (.issued 0))).2.2 = .result 0 d ∧
        n ∈ d.nodes ∧ n.id = "node-0" ∧ IsEdit labelBody [("label", .str "b")] ∧
        (handle settings (run settings calls).store (.patch (.issued 0) "node-0" labelBody)).2.2 =
          .node (n.edited [("label", .str "b")]) := by
  intro settings calls
  obtain ⟨d, n, hd, hsend, hnode⟩ : ∃ (d : Diagram Rat) (n : Node Rat),
      (Call.parse smallSubmission none).drawn? settings = some d ∧ d.isSendable ∧
        d.node? "node-0" = some n :=
    ⟨_, _, by
      simp only [Call.drawn?, modeOf, ofUtf8?_smallSubmission]
      cbv, by cbv, by cbv⟩
  have hn : n ∈ d.nodes := List.mem_of_find?_eq_some hnode
  have hid : n.id = "node-0" := by simpa using List.find?_some hnode
  have hget : (handle settings (run settings calls).store (.get (.issued 0))).2.2 =
      .result 0 d :=
    handle_get_of_live settings (get?_run_concat_of_drawn? (by decide) [] hd) hsend
  have hreach := edit_reaches_node settings calls hget hn isEdit_labelBody
  refine ⟨d, n, hget, hn, hid, isEdit_labelBody, ?_⟩
  have hhandled := hreach.handled (by rw [hid]; decide) (by rw [hid]; decide)
  rw [hid] at hhandled
  rw [hhandled]
  exact hreach.sent_iff.2 ⟨by decide, by decide, fun v hv => by cases hv⟩

/-- The octets of `{"query":"{a}","variables":{"a/b":1}}`. -/
def slashSubmission : ByteArray :=
  ⟨#[123, 34, 113, 117, 101, 114, 121, 34, 58, 34, 123, 97, 125, 34, 44, 34, 118, 97, 114, 105,
    97, 98, 108, 101, 115, 34, 58, 123, 34, 97, 47, 98, 34, 58, 49, 125, 125]⟩

theorem ofUtf8?_slashSubmission : Text.ofUtf8? slashSubmission =
    some "\x7b\"query\":\"\x7ba\x7d\",\"variables\":\x7b\"a/b\":1\x7d\x7d" := by
  decide +kernel

set_option maxRecDepth 20000 in
/-- The node of a variable with a slash in its name is shown, but no path leads to it. -/
theorem edit_refused_slashSubmission :
    let settings : Settings := ⟨1, .precomputed⟩
    let store : Store Rat := (run settings [.parse slashSubmission none]).store
    ∃ (d : Diagram Rat) (n : Node Rat),
      (handle settings store (.get (.issued 0))).2.2 = .result 0 d ∧ n ∈ d.nodes ∧
        n.id = "var-a/b" ∧ IsEdit labelBody [("label", .str "b")] ∧
        (Path.toNode (.issued 0) n.id).arriving.endpoint? = none ∧
        (handle settings store (.patch (.issued 0) n.id labelBody)).2.2 = .notFound .route := by
  intro settings store
  obtain ⟨d, n, hd, hsend, hnode⟩ : ∃ (d : Diagram Rat) (n : Node Rat),
      (Call.parse slashSubmission none).drawn? settings = some d ∧ d.isSendable ∧
        d.node? "var-a/b" = some n :=
    ⟨_, _, by
      simp only [Call.drawn?, modeOf, ofUtf8?_slashSubmission]
      cbv, by cbv, by cbv⟩
  have hn : n ∈ d.nodes := List.mem_of_find?_eq_some hnode
  have hid : n.id = "var-a/b" := by simpa using List.find?_some hnode
  have hget : (handle settings store (.get (.issued 0))).2.2 = .result 0 d :=
    handle_get_of_live settings (get?_run_concat_of_drawn? (by decide) [] hd) hsend
  refine ⟨d, n, hget, hn, hid, isEdit_labelBody, ?_, ?_⟩
  · rw [hid]
    decide
  · rw [hid]
    rfl

end Service

end QueryDiagram
