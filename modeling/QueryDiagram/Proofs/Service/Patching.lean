import Mathlib
import QueryDiagram.Proofs.Service.Editing

/-!
# Calls that patch a node

A call that patches a node is answered in a fixed order: by the result that is not there, by null
for a label or a name, by the node that is not there, and else by the patched node
(`Service.Precedence`). What it does is seen by later calls for the result, and nowhere else
(`Service.SeenAfter`). As the store takes in the patch before the answer is sent, a patch may stay
whose answer cannot be sent; then the result cannot be sent either. The main statement is
`Service.answers_patch`.
-/

namespace QueryDiagram

open Service

variable {α : Type}

/-! ## What can be sent -/

namespace Text

theorem isWellFormed_join {separator : Text} (hs : separator.isWellFormed) {ts : List Text}
    (h : ∀ t ∈ ts, t.isWellFormed) : (join separator ts).isWellFormed := by
  induction ts with
  | nil => rfl
  | cons t ts ih =>
    obtain ⟨ht, hts⟩ := List.forall_mem_cons.1 h
    cases ts with
    | nil => simpa [join] using ht
    | cons u ts =>
      have hjoin : join separator (t :: u :: ts) = t ++ (separator ++ join separator (u :: ts)) :=
        rfl
      rw [hjoin, isWellFormed_append, isWellFormed_append, ht, hs, ih hts]
      rfl

end Text

theorem PatchError.isWellFormed_message_nullKeys {members : Record Json} {keys : List Text}
    (h : Text.Lists (Patch.Cleared members) keys) :
    (PatchError.nullKeys keys).message.isWellFormed := by
  have hquoted : ∀ t ∈ keys.map Text.quoted, t.isWellFormed := by
    intro t ht
    obtain ⟨key, hkey, rfl⟩ := List.mem_map.1 ht
    rcases ((h.mem_iff key).1 hkey).1 with rfl | rfl <;> decide +kernel
  have hjoin : (Text.join ", " (keys.map Text.quoted)).isWellFormed :=
    Text.isWellFormed_join (by decide) hquoted
  simp only [message, Text.quotedList, Text.isWellFormed_append, hjoin, Bool.and_true]
  decide

theorem Answer.sent_nullKeys {members : Record Json} {keys : List Text}
    (h : Text.Lists (Patch.Cleared members) keys) :
    (badRequest (PatchError.nullKeys keys).message : Answer α).sent =
      badRequest (PatchError.nullKeys keys).message :=
  sent_of_isSendable (PatchError.isWellFormed_message_nullKeys h)

theorem Answer.sent_notFound (missing : Missing) :
    (notFound missing : Answer α).sent = notFound missing := rfl

theorem Answer.sent_node_of_not_isSendable {n : Node α} (h : ¬ n.isSendable) :
    (node n).sent = failed := if_neg h

/-- The report of null is no report of keys that no patch has. -/
theorem PatchError.message_nullKeys_ne (keys keys' : List Text) :
    (nullKeys keys).message ≠ (unknownKeys keys').message := by
  intro h
  cases congrArg List.head? h

namespace Diagram

variable {d : Diagram α} {id : Text} {m : Node α}

theorem isSendable_of_mem (h : d.isSendable) (hm : m ∈ d.nodes) : m.isSendable := by
  simp only [isSendable, Bool.and_eq_true, List.all_eq_true] at h
  exact h.1.1.2 m hm

theorem isSendable_replace (h : d.isSendable) (hm : m.isSendable) :
    (d.replace id m).isSendable := by
  have hnodes : ∀ n ∈ (d.replace id m).nodes, n.isSendable := by
    intro n hn
    obtain ⟨n', hn', rfl⟩ := List.mem_map.1 hn
    by_cases hid : n'.id = id
    · rwa [if_pos hid]
    · rw [if_neg hid]
      exact isSendable_of_mem h hn'
  simp only [isSendable, Bool.and_eq_true, List.all_eq_true] at h ⊢
  exact ⟨⟨⟨h.1.1.1, hnodes⟩, h.1.2⟩, h.2⟩

end Diagram

/-! ## Reading calls -/

namespace Service

variable {store store' : Store α} {id : Segment} {node : Text} {members : Record Json}
  {body : ByteArray} {after : Store α × Answer α}

/-- What a path shows depends on the result that it leads to. -/
theorem request_get_congr {p : Path}
    (h : ∀ e, p.target? = some e → find? store' e.id = find? store e.id) :
    (request store' p .get).2 = (request store p .get).2 := by
  unfold request
  cases htarget : p.target? with
  | none => rfl
  | some e =>
    have hfind := h e htarget
    cases e with
    | result id =>
      change find? store' id = find? store id at hfind
      simp only [answerAt, withResult, hfind]
      cases find? store id <;> rfl
    | output id =>
      change find? store' id = find? store id at hfind
      simp only [answerAt, withResult, hfind]
      cases find? store id <;> rfl
    | node id node => rfl

/-- A path whose identifier is a text leads to no result. -/
theorem find?_eq_none_of_target? {p : Path} {e : Endpoint} (h : p.target? = some e)
    (hp : ∀ serial, .issued serial ∉ p) (store : Store α) : find? store e.id = none := by
  cases hid : e.id with
  | issued serial => exact absurd (Path.issued_mem_of_target? h hid) (hp serial)
  | text t => rfl

section Reads

variable [Scalar α] {settings : Settings}

/-- Where a store holds the same under an identifier as another, the same is got. -/
theorem handle_get_congr (h : find? store' id = find? store id) :
    (handle settings store' (.get id)).2.2 = (handle settings store (.get id)).2.2 := by
  refine congrArg Answer.sent (request_get_congr fun e he => ?_)
  cases id with
  | issued serial =>
    obtain rfl := Option.some.inj ((Path.target?_toResult_issued serial).symm.trans he)
    exact h
  | text t =>
    have hp : ∀ serial, .issued serial ∉ Path.toResult (.text t) := by
      simp [Path.toResult, Path.results]
    rw [find?_eq_none_of_target? he hp, find?_eq_none_of_target? he hp]

/-- Where the results of two stores have the same outputs, the same outputs are got. -/
theorem handle_output_congr
    (h : ∀ serial, (store'.get? serial).map Diagram.output =
      (store.get? serial).map Diagram.output) :
    (handle settings store' (.output id)).2.2 = (handle settings store (.output id)).2.2 := by
  cases id with
  | issued serial =>
    have hsame := h serial
    rw [answer_handle, answer_handle, perform_output, perform_output]
    cases hd : store.get? serial <;> cases hd' : store'.get? serial <;> simp_all
  | text t =>
    refine congrArg Answer.sent (request_get_congr fun e he => ?_)
    have hp : ∀ serial, .issued serial ∉ Path.toOutput (.text t) := by
      simp [Path.toOutput, Path.results]
    rw [find?_eq_none_of_target? he hp, find?_eq_none_of_target? he hp]

theorem handle_get_of_find? {serial : Nat} {d : Diagram α}
    (h : find? store id = some (serial, d)) :
    (handle settings store (.get id)).2.2 = (Answer.result serial d).sent := by
  obtain ⟨rfl, hd⟩ := find?_eq_some_iff.1 h
  rw [answer_handle, perform_get_of_live settings hd]

end Reads

/-! ## Answers -/

/-- The store after a call that leads to an endpoint, and the answer that the caller gets. -/
def respond (store : Store α) (endpoint : Endpoint) (method : Method) : Store α × Answer α :=
  let after := answerAt store endpoint method
  (after.1, after.2.sent)

theorem handle_patch_of_target? [Scalar α] {settings : Settings} {endpoint : Endpoint}
    (h : (Path.toNode id node).target? = some endpoint) :
    (handle settings store (.patch id node body)).2 = respond store endpoint (.patch body) := by
  have hrequest : request store (.toNode id node) (.patch body) =
      answerAt store endpoint (.patch body) := by
    rw [request, h]
  exact congrArg (fun after : Store α × Answer α => (after.1, after.2.sent)) hrequest

/-- Any node that a path may name is within reach of a caller. -/
theorem handle_patch_escaped [Scalar α] (settings : Settings) (store : Store α) (serial : Nat)
    (hnode : isPathSegment node) (body : ByteArray) :
    (handle settings store (.patch (.issued serial) node.escaped body)).2 =
      respond store (.node (.issued serial) node) (.patch body) :=
  handle_patch_of_target? (Path.target?_toNode_escaped serial hnode)

/-- The result of an identifier is live and has the node. -/
def Holds (store : Store α) (id : Segment) (node : Text) (n : Node α) : Prop :=
  ∃ serial d, find? store id = some (serial, d) ∧ n ∈ d.nodes ∧ n.id = node

/-- Which answer is given to a patch of a node, and when. -/
structure Precedence (store : Store α) (id : Segment) (node : Text) (members : Record Json)
    (answer : Answer α) : Prop where
  noResult_iff : answer = .notFound .result ↔ find? store id = none
  nullKeys_iff : answer.status = 400 ↔
    (find? store id).isSome ∧ ∃ key, Patch.Cleared members key
  noNode_iff : answer = .notFound .node ↔
    (find? store id).isSome ∧ (¬ ∃ key, Patch.Cleared members key) ∧ ¬ ∃ n, Holds store id node n
  ok_iff : answer.status = 200 ↔
    (¬ ∃ key, Patch.Cleared members key) ∧
      ∃ n, Holds store id node n ∧ (n.edited members).isSendable
  ok : answer.status = 200 → ∃ n, Holds store id node n ∧ answer = .node (n.edited members)
  failed_iff : answer.status = 500 ↔
    (¬ ∃ key, Patch.Cleared members key) ∧
      ∃ n, Holds store id node n ∧ ¬ (n.edited members).isSendable
  detail : ∀ detail, answer = .badRequest detail →
    ∃ keys, Text.Lists (Patch.Cleared members) keys ∧ detail = (PatchError.nullKeys keys).message
  noUnknownKeys : ∀ keys, answer ≠ .badRequest (PatchError.unknownKeys keys).message

/-- What calls see that follow a patch of a node. -/
structure SeenAfter [Scalar α] (settings : Settings) (store : Store α) (id : Segment) (node : Text)
    (members : Record Json) (after : Store α × Answer α) : Prop where
  unchanged : after.2.status ≠ 200 → after.2.status ≠ 500 → after.1 = store
  others : ∀ id', id' ≠ id →
    (handle settings after.1 (.get id')).2.2 = (handle settings store (.get id')).2.2
  outputs : ∀ id',
    (handle settings after.1 (.output id')).2.2 = (handle settings store (.output id')).2.2
  readBack : ∀ m, after.2 = .node m → ∃ serial d d',
    (handle settings store (.get id)).2.2 = (Answer.result serial d).sent ∧
      (handle settings after.1 (.get id)).2.2 = (Answer.result serial d').sent ∧
      d.PatchedAt node members d' ∧ d'.node? node = some m ∧ (d.isSendable → d'.isSendable)
  /-- A patch whose answer cannot be sent stays, so that the result cannot be sent either. -/
  lost : after.2.status = 500 → (handle settings after.1 (.get id)).2.2 = .failed

theorem holds_unique (hids : NodupIds store id) {n n' : Node α} (h : Holds store id node n)
    (h' : Holds store id node n') : n' = n := by
  obtain ⟨serial, d, hd, hn, rfl⟩ := h
  obtain ⟨serial', d', hd', hn', hid⟩ := h'
  obtain ⟨rfl, rfl⟩ := find?_unique hd hd'
  exact List.inj_on_of_nodup_map (hids _ _ hd) hn' hn hid

theorem precedence_of_patchAnswer (hids : NodupIds store id)
    (h : PatchAnswer store id node members after) :
    Precedence store id node members after.2.sent := by
  cases h with
  | noResult hd =>
    rw [Answer.sent_notFound]
    constructor <;> simp [hd, Holds, Answer.status]
  | @nullKeys e keys hd hc hkeys =>
    rw [Answer.sent_nullKeys hkeys]
    constructor
    case detail =>
      intro detail he
      exact ⟨keys, hkeys, (Answer.badRequest.inj he).symm⟩
    case noUnknownKeys =>
      intro keys' he
      exact PatchError.message_nullKeys_ne keys keys' (Answer.badRequest.inj he)
    all_goals simp [hd, hc, Answer.status]
  | @noNode e hd hc hn =>
    rw [Answer.sent_notFound]
    have hnone : ¬ ∃ n, Holds store id node n := by
      rintro ⟨n, serial, d, hd', hmem, hid⟩
      obtain rfl := Option.some.inj (hd.symm.trans hd')
      exact hn ⟨n, hmem, hid⟩
    constructor <;> simp_all [Answer.status]
  | @patched serial d n hd hc hn hid hat =>
    have hholds : Holds store id node n := ⟨serial, d, hd, hn, hid⟩
    -- no other node is met, as identifiers are distinct
    have hiff : ∀ p : Node α → Prop, (∃ n', Holds store id node n' ∧ p n') ↔ p n := by
      intro p
      constructor
      · rintro ⟨n', hn', hp⟩
        rwa [← holds_unique hids hholds hn']
      · exact fun hp => ⟨n, hholds, hp⟩
    have hsome : ∃ n', Holds store id node n' := ⟨n, hholds⟩
    by_cases hs : (n.edited members).isSendable
    · rw [sent_node_iff.2 hs]
      constructor
      case ok => exact fun _ => ⟨n, hholds, rfl⟩
      all_goals simp [hd, hc, hiff, hs, hsome, Answer.status]
    · rw [Answer.sent_node_of_not_isSendable hs]
      constructor <;> simp [hd, hc, hiff, hs, hsome, Answer.status]

section Seen

variable [Scalar α] (settings : Settings)

/-- Where a call is refused there is nothing to see. -/
theorem seenAfter_of_refused {answer : Answer α} (hok : answer.status ≠ 200)
    (hfailed : answer.status ≠ 500) : SeenAfter settings store id node members (store, answer) where
  unchanged _ _ := rfl
  others _ _ := rfl
  outputs _ := rfl
  readBack _ hm := absurd (congrArg Answer.status hm) hok
  lost h := absurd h hfailed

theorem seenAfter_of_patched {serial : Nat} {d : Diagram α} {n : Node α}
    (hd : find? store id = some (serial, d)) (hn : d.node? node = some n)
    (hat : d.PatchedAt node members (d.replace node (n.edited members))) :
    SeenAfter settings store id node members
      (store.update serial (d.replace node (n.edited members)),
        (Answer.node (n.edited members)).sent) := by
  obtain ⟨rfl, hlive⟩ := find?_eq_some_iff.1 hd
  have hid : n.id = node := by simpa using List.find?_some hn
  have hagain := Diagram.node?_replace (m := n.edited members) hn hid
  have hupdated := Store.get?_update_self hlive (d.replace node (n.edited members))
  have hget : (handle settings (store.update serial (d.replace node (n.edited members)))
      (.get (.issued serial))).2.2 =
        (Answer.result serial (d.replace node (n.edited members))).sent :=
    handle_get_of_find? (find?_eq_some_iff.2 ⟨rfl, hupdated⟩)
  constructor
  case unchanged =>
    intro hok hfailed
    -- the patched node is sent or it is not: both are excluded here
    by_cases hs : (n.edited members).isSendable
    · exact absurd (congrArg Answer.status (sent_node_iff.2 hs)) hok
    · exact absurd (congrArg Answer.status (Answer.sent_node_of_not_isSendable hs)) hfailed
  case others =>
    intro id' hne
    refine handle_get_congr ?_
    cases id' with
    | issued other =>
      have hother : other ≠ serial := fun e => hne (congrArg Segment.issued e)
      simp only [find?, Store.get?_update_of_ne hother]
    | text t => rfl
  case outputs =>
    intro id'
    refine handle_output_congr fun other => ?_
    by_cases hother : other = serial
    · obtain rfl := hother
      rw [hupdated, hlive, Option.map_some, Option.map_some, hat.output]
    · rw [Store.get?_update_of_ne hother]
  case readBack =>
    intro m hm
    have hsent := Answer.sent_eq_of_status (congrArg Answer.status hm)
    obtain rfl := Answer.node.inj (hsent.symm.trans hm)
    have hs : (n.edited members).isSendable := sent_node_iff.1 hm
    exact ⟨serial, d, _, handle_get_of_find? hd, hget, hat, hagain,
      fun h => Diagram.isSendable_replace h hs⟩
  case lost =>
    intro hfailed
    have hs : ¬ (n.edited members).isSendable := by
      intro hs
      rw [sent_node_iff.2 hs] at hfailed
      cases hfailed
    have hmem := List.mem_of_find?_eq_some hagain
    rw [hget]
    exact if_neg fun h => hs (Diagram.isSendable_of_mem h hmem)

theorem seenAfter_of_patchAnswer (hids : NodupIds store id)
    (h : PatchAnswer store id node members after) :
    SeenAfter settings store id node members (after.1, after.2.sent) := by
  cases h with
  | noResult hd =>
    rw [Answer.sent_notFound]
    exact seenAfter_of_refused settings (by simp [Answer.status]) (by simp [Answer.status])
  | nullKeys hd hc hkeys =>
    rw [Answer.sent_nullKeys hkeys]
    exact seenAfter_of_refused settings (by simp [Answer.status]) (by simp [Answer.status])
  | noNode hd hc hn =>
    rw [Answer.sent_notFound]
    exact seenAfter_of_refused settings (by simp [Answer.status]) (by simp [Answer.status])
  | patched hd hc hn hid hat =>
    have hfound := (Diagram.node?_eq_some_iff (hids _ _ hd)).2 ⟨hn, hid⟩
    exact seenAfter_of_patched settings hd hfound hat

end Seen

/-! ## A root that can be shown -/

set_option maxRecDepth 20000 in
/-- The result of a small submission can be sent and has its root. -/
theorem exists_root_smallSubmission :
    ∃ (d : Diagram Rat) (n : Node Rat),
      find? (run ⟨1, .precomputed⟩ [.parse smallSubmission none]).store (.issued 0) = some (0, d) ∧
        d.isSendable ∧ d.node? "node-0" = some n := by
  obtain ⟨d, n, hd, hsend, hnode⟩ : ∃ (d : Diagram Rat) (n : Node Rat),
      (Call.parse smallSubmission none).drawn? ⟨1, .precomputed⟩ = some d ∧ d.isSendable ∧
        d.node? "node-0" = some n :=
    ⟨_, _, by
      simp only [Call.drawn?, modeOf, ofUtf8?_smallSubmission]
      cbv, by cbv, by cbv⟩
  have hlive := get?_run_concat_of_drawn? (by decide) [] hd
  exact ⟨d, n, find?_eq_some_iff.2 ⟨rfl, hlive⟩, hsend, hnode⟩

/-! ## The result -/

section Result

variable [Scalar α]

/-- What becomes of a call that patches a node. -/
structure AnswersPatch (settings : Settings) (store : Store α) (id : Segment) (node : Text)
    (body : ByteArray) (members : Record Json) (after : Store α × Answer α) : Prop where
  /-- The path to the node, encoded once and decoded once, leads there. -/
  arrives : (Path.toNode id node).arriving.endpoint? = some (.node id node)
  /-- So is every call answered whose path leads there. -/
  handled : ∀ id' node', (Path.toNode id' node').target? = some (.node id node) →
    (handle settings store (.patch id' node' body)).2 = after
  precedence : Precedence store id node members after.2
  /-- The service does not fail if the result can be sent, and what the body writes can. -/
  not_failed : ∀ serial d, (handle settings store (.get id)).2.2 = .result serial d →
    IsSendableEdit members → after.2.status ≠ 500
  /-- Other keys than those of a patch do not matter. -/
  otherKeys : ∀ body' members', IsPatchBody body' members' →
    (∀ key, Patch.keys.contains key → members'.get? key = members.get? key) →
      respond store (.node id node) (.patch body') = after
  seen : SeenAfter settings store id node members after

theorem not_failed_of_precedence {settings : Settings} {answer : Answer α}
    (h : Precedence store id node members answer) {serial : Nat} {d : Diagram α}
    (hget : (handle settings store (.get id)).2.2 = .result serial d)
    (hedit : IsSendableEdit members) : answer.status ≠ 500 := by
  intro hfailed
  obtain ⟨-, n, ⟨serial', d', hfind, hn, -⟩, hs⟩ := h.failed_iff.1 hfailed
  have hsent : (Answer.result serial' d').sent = .result serial d :=
    (handle_get_of_find? hfind).symm.trans hget
  have hd : d'.isSendable := by
    have hsendable := Answer.isSendable_sent (.result serial' d')
    rwa [Answer.sent_eq_of_status (congrArg Answer.status hsent)] at hsendable
  exact hs ((Node.isSendable_edited (Diagram.isSendable_of_mem hd hn) members).2 hedit)

omit [Scalar α] in
theorem respond_of_isOverlong (h : IsOverlong body) :
    respond store (.node id node) (.patch body) = (store, .badRequest unreadableBody) := by
  obtain ⟨hempty, t, ht, hread⟩ := (isReadAs_iff (by simp)).1 h
  have hpatch : patchOf (α := α) body = .error (.badRequest unreadableBody) := by
    rw [patchOf, hempty]
    simp only [ht, hread, Bool.false_eq_true, if_false]
  have hdetail : unreadableBody.isWellFormed := by decide
  have hsent : (Answer.badRequest unreadableBody : Answer α).sent = .badRequest unreadableBody :=
    Answer.sent_of_isSendable hdetail
  rw [respond, answerAt, patch, hpatch, hsent]

/-- After any calls, a call that patches a node is answered by the first of these that is so: the
result is not live, the label or the name is null, the result has no such node. Else the node is
patched, and answered as it is then shown; but if it cannot be sent, the service fails and the
patch stays. A body with an integer that is too long is refused before all of this. -/
theorem answers_patch (settings : Settings) (calls : List Call) (hid : id.IsIdentifier)
    (hnode : isPathSegment node) (body : ByteArray) :
    let store : Store α := (run settings calls).store
    let after := respond store (.node id node) (.patch body)
    (∀ members, IsPatchBody body members →
      AnswersPatch settings store id node body members after) ∧
      (IsOverlong body → after = (store, .badRequest unreadableBody)) := by
  intro store after
  refine ⟨fun members hbody => ?_, respond_of_isOverlong⟩
  have hids : NodupIds store id := (drawn_run settings calls).nodupIds id
  have hanswer := patchAnswer_answerAt hids hbody node
  have hprecedence := precedence_of_patchAnswer hids hanswer
  refine ⟨?_, ?_, hprecedence, ?_, ?_, seenAfter_of_patchAnswer settings hids hanswer⟩
  · rw [Path.endpoint?_arriving_of_isIdentifier hid, if_pos hnode]
  · exact fun id' node' => handle_patch_of_target?
  · exact fun serial d => not_failed_of_precedence hprecedence
  · intro body' members' hbody' hsame
    have hpatch := hbody.patchOf_congr (α := α) hbody' hsame
    change respond store _ _ = respond store _ _
    simp only [respond, answerAt, patch, hpatch]

end Result

/-- The root of a small submission gets another label, and is then shown with it. -/
theorem answers_patch_labelBody :
    let settings : Settings := ⟨1, .precomputed⟩
    let store : Store Rat := (run settings [.parse smallSubmission none]).store
    let after := (handle settings store (.patch (.issued 0) "node-0" labelBody)).2
    (Segment.issued 0).IsIdentifier ∧ isPathSegment "node-0" ∧
      IsPatchBody labelBody [("label", .str "b")] ∧ after.2.status = 200 ∧
      ∃ d, (handle settings after.1 (.get (.issued 0))).2.2 = .result 0 d ∧
        (d.node? "node-0").map Node.label = some ("b" : Text) := by
  intro settings store after
  obtain ⟨d, n, hlive, hsend, hnode⟩ := exists_root_smallSubmission
  have hmem : n ∈ d.nodes := List.mem_of_find?_eq_some hnode
  have hholds : Holds store (.issued 0) "node-0" n :=
    ⟨0, d, hlive, hmem, by simpa using List.find?_some hnode⟩
  have hid : (Segment.issued 0).IsIdentifier := trivial
  have hsegment : isPathSegment "node-0" := by decide
  have hbody : IsPatchBody labelBody [("label", .str "b")] := isEdit_labelBody.isPatchBody
  have hanswers := (answers_patch (α := Rat) settings [.parse smallSubmission none] hid hsegment
    labelBody).1 _ hbody
  have hafter : after = respond store (.node (.issued 0) "node-0") (.patch labelBody) :=
    hanswers.handled (.issued 0) "node-0" rfl
  have hcleared : ¬ ∃ key, Patch.Cleared [("label", .str "b")] key :=
    fun ⟨key, h⟩ => isEdit_labelBody.not_cleared key h
  have hedit : (n.edited [("label", .str "b")]).isSendable := by
    rw [Node.isSendable_edited (Diagram.isSendable_of_mem hsend hmem)]
    exact ⟨by decide, by decide, fun v hv => by cases hv⟩
  have hstatus := hanswers.precedence.ok_iff.2 ⟨hcleared, n, hholds, hedit⟩
  obtain ⟨n', hn', hanswer⟩ := hanswers.precedence.ok hstatus
  obtain ⟨serial, d₁, d₂, hbefore, hget, -, hfound, hsendable⟩ :=
    hanswers.seen.readBack _ hanswer
  obtain ⟨rfl, rfl⟩ : serial = 0 ∧ d₁ = d := by
    rw [handle_get_of_find? hlive, Answer.sent_of_isSendable (a := .result 0 d) hsend] at hbefore
    have hsent := Answer.sent_eq_of_status (congrArg Answer.status hbefore.symm)
    obtain ⟨h₀, h₁⟩ := Answer.result.inj (hbefore.trans hsent)
    exact ⟨h₀.symm, h₁.symm⟩
  refine ⟨hid, hsegment, hbody, hafter ▸ hstatus, d₂, ?_, ?_⟩
  · rw [hafter, hget]
    exact Answer.sent_of_isSendable (hsendable hsend)
  · rw [hfound]
    rfl

/-- The octets of `{"label":"\ud800"}`. -/
def surrogateBody : ByteArray :=
  ⟨#[123, 34, 108, 97, 98, 101, 108, 34, 58, 34, 92, 117, 100, 56, 48, 48, 34, 125]⟩

/-- The label in that body. -/
def halfPair : Text := [.surrogate 0]

theorem isEdit_surrogateBody : IsEdit surrogateBody [("label", .str halfPair)] where
  read :=
    ⟨"\x7b\"label\":\"\\ud800\"\x7d", ⟨.utf8, trivial, .inl (by decide +kernel)⟩, by cbv⟩
  label v hv := ⟨halfPair, (Option.some.inj hv).symm⟩
  name v hv := by cases hv

/-- Half of a surrogate pair as a label is stored and cannot be sent: the call fails, and so does
the next one for the result, which was shown before. -/
theorem patch_fails_surrogateBody :
    let settings : Settings := ⟨1, .precomputed⟩
    let store : Store Rat := (run settings [.parse smallSubmission none]).store
    let after := (handle settings store (.patch (.issued 0) "node-0" surrogateBody)).2
    ∃ (d : Diagram Rat) (n : Node Rat),
      (handle settings store (.get (.issued 0))).2.2 = .result 0 d ∧ n ∈ d.nodes ∧
        n.id = "node-0" ∧ IsPatchBody surrogateBody [("label", .str halfPair)] ∧
        after.2.status = 500 ∧
        (handle settings after.1 (.get (.issued 0))).2.2 = .failed := by
  intro settings store after
  obtain ⟨d, n, hfind, hsend, hnode⟩ := exists_root_smallSubmission
  obtain ⟨-, hlive⟩ := find?_eq_some_iff.1 hfind
  have hn : n ∈ d.nodes := List.mem_of_find?_eq_some hnode
  have hid : n.id = "node-0" := by simpa using List.find?_some hnode
  have hget : (handle settings store (.get (.issued 0))).2.2 = .result 0 d :=
    handle_get_of_live settings hlive hsend
  have hids := (drawn_run settings [.parse smallSubmission none]).nodupIds _ 0 d hfind
  have hedited : ¬ (n.edited [("label", .str halfPair)]).isSendable := by
    rw [Node.isSendable_edited (Diagram.isSendable_of_mem hsend hn)]
    intro h
    exact absurd (h.1 halfPair rfl) (by decide)
  have hanswer := answerAt_edit hlive hids hn isEdit_surrogateBody
  rw [hid] at hanswer
  have hafter : after = (store.update 0 (d.replace "node-0" (n.edited [("label", .str halfPair)])),
      .failed) := by
    have hrespond : after = respond store (.node (.issued 0) "node-0") (.patch surrogateBody) := rfl
    rw [hrespond, respond, hanswer, Answer.sent_node_of_not_isSendable hedited]
  refine ⟨d, n, hget, hn, hid, isEdit_surrogateBody.isPatchBody, ?_, ?_⟩
  · rw [hafter]
    rfl
  · have hagain := Diagram.node?_replace (m := n.edited [("label", .str halfPair)]) hnode hid
    have hmem := List.mem_of_find?_eq_some hagain
    rw [hafter, handle_get_of_find? (find?_eq_some_iff.2 ⟨rfl, Store.get?_update_self hlive _⟩)]
    exact if_neg fun h => hedited (Diagram.isSendable_of_mem h hmem)

end Service

end QueryDiagram
