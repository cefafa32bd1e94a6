import QueryDiagram.Proofs.Service.Targets
import QueryDiagram.Proofs.Store
import QueryDiagram.Service

/-!
# What a call does to the store

A call is refused, reads from the store, stores a diagram that does not depend on the store, edits
a stored diagram, or erases one (`effect_perform`). What is refused, and what only reads, leaves
the store as it is.
-/

namespace QueryDiagram

open Service

variable {α : Type}

/-- An edit of a stored result. -/
structure StoredEdit where
  serial : Nat
  node : Text
  patch : Patch

namespace Call

/-- The diagram that a call asks to be stored. -/
def drawn? [Scalar α] (settings : Settings) : Call → Option (Diagram α)
  | parse body layoutMode =>
    match modeOf settings layoutMode, Text.ofUtf8? body with
    | .ok mode, some text => (Diagram.build mode (.standard α) text).outcome.toOption
    | _, _ => none
  | _ => none

variable (α) in
/-- The edit that a call asks for. -/
def edit? : Call → Option StoredEdit
  | patch (.issued serial) node body =>
    match (Path.toNode (.issued serial) node).target?, patchOf (α := α) body with
    | some (.node _ node), .ok p => some ⟨serial, node, p⟩
    | _, _ => none
  | _ => none

/-- Whatever patch a body writes, a call asks for it on any node that a path may name. -/
theorem edit?_escaped {body : ByteArray} {p : Patch} (hp : patchOf (α := α) body = .ok p)
    (serial : Nat) {node : Text} (hnode : isPathSegment node) :
    edit? α (.patch (.issued serial) node.escaped body) = some ⟨serial, node, p⟩ := by
  simp only [edit?, Path.target?_toNode_escaped serial hnode, hp]

/-- A call that edits stores nothing. -/
theorem drawn?_of_edit? [Scalar α] {settings : Settings} {call : Call} {edit : StoredEdit}
    (he : call.edit? α = some edit) : call.drawn? (α := α) settings = none := by
  cases call with
  | parse _ _ => cases he
  | _ => rfl

/-- A call that only reads, with its answer. -/
inductive Reads (store : Store α) : Call → Answer α → Prop
  | health : Reads store .health .healthy
  | get {serial : Nat} {d : Diagram α} (hd : store.get? serial = some d) :
      Reads store (.get (.issued serial)) (.result serial d)
  | output {serial : Nat} {d : Diagram α} (hd : store.get? serial = some d) :
      Reads store (.output (.issued serial)) (.output d.output)

end Call

namespace Service

variable {settings : Settings} {store : Store α} {after : Store α × Answer α} {call : Call}
  {serial : Nat} {endpoint : Endpoint} {p : Path}

/-! ## Refusals -/

/-- The call did not succeed, and the store is as it was. -/
def IsRefusal (store : Store α) (after : Store α × Answer α) : Prop :=
  after.1 = store ∧ after.2.status ≠ 200

theorem isRefusal_notFound (store : Store α) (missing : Missing) :
    IsRefusal store (store, .notFound missing) := ⟨rfl, by simp [Answer.status]⟩

theorem isRefusal_wrongMethod (store : Store α) : IsRefusal store (store, .wrongMethod) :=
  ⟨rfl, by simp [Answer.status]⟩

/-- A body is refused as one that cannot be taken in, or for its faults. -/
theorem eq_of_patchOf_eq_error {body : ByteArray} {refusal : Answer α}
    (h : patchOf body = .error refusal) :
    refusal = .badRequest unreadableBody ∨ ∃ faults, refusal = .malformed faults := by
  unfold patchOf at h
  split at h
  · exact .inr ⟨_, (Except.error.inj h).symm⟩
  split at h
  · exact .inl (Except.error.inj h).symm
  split at h
  · exact .inr ⟨_, (Except.error.inj h).symm⟩
  · exact .inl (Except.error.inj h).symm
  · rename_i members _
    cases hp : patchOfMembers members with
    | error faults =>
      rw [hp] at h
      exact .inr ⟨faults, (Except.error.inj h).symm⟩
    | ok p =>
      rw [hp] at h
      cases h
  · exact .inr ⟨_, (Except.error.inj h).symm⟩

theorem isRefusal_of_patchOf {body : ByteArray} {refusal : Answer α}
    (h : patchOf body = .error refusal) : IsRefusal store (store, refusal) := by
  refine ⟨rfl, ?_⟩
  rcases eq_of_patchOf_eq_error h with rfl | ⟨faults, rfl⟩
  · simp [Answer.status]
  · simp [Answer.status]

theorem withResult_issued (store : Store α) (serial : Nat)
    (answer : Nat → Diagram α → Store α × Answer α) :
    withResult store (.issued serial) answer =
      match store.get? serial with
      | some d => answer serial d
      | none => (store, .notFound .result) := by
  rw [withResult, find?]
  cases store.get? serial <;> rfl

/-- A text is not the identifier of a result. -/
theorem isRefusal_answerAt [Scalar α] (h : ∀ serial, endpoint.id ≠ .issued serial)
    (method : Method) : IsRefusal store (answerAt store endpoint method) := by
  obtain ⟨t, ht⟩ : ∃ t, endpoint.id = .text t := by
    cases hid : endpoint.id with
    | issued serial => exact absurd hid (h serial)
    | text t => exact ⟨t, rfl⟩
  cases endpoint with
  | result _ =>
    cases ht
    cases method with
    | patch _ => exact isRefusal_wrongMethod store
    | _ => exact isRefusal_notFound store _
  | output _ =>
    cases ht
    cases method with
    | get => exact isRefusal_notFound store _
    | _ => exact isRefusal_wrongMethod store
  | node _ node =>
    cases ht
    cases method with
    | patch body =>
      simp only [answerAt, patch]
      split
      · exact isRefusal_of_patchOf ‹_›
      · exact isRefusal_notFound store _
    | _ => exact isRefusal_wrongMethod store

/-- A path without the identifier of a result leads to none. -/
theorem isRefusal_request [Scalar α] (h : ∀ serial, .issued serial ∉ p) (method : Method) :
    IsRefusal store (request store p method) := by
  unfold request
  split
  · exact isRefusal_answerAt (fun serial he => h serial (Path.issued_mem_of_target? ‹_› he)) method
  · exact isRefusal_notFound store _

theorem edited_or_isRefusal (store : Store α) (node : Text) (p : Patch) (serial : Nat)
    (d : Diagram α) :
    (∃ d' n, d.patch node p = .ok d' ∧ d'.node? node = some n ∧
      patchResult store node p serial d = (store.update serial d', .node n)) ∨
    IsRefusal store (patchResult store node p serial d) := by
  unfold patchResult
  split
  · exact .inr (isRefusal_notFound store _)
  · exact .inr ⟨rfl, by simp [Answer.status]⟩
  · split
    · exact .inl ⟨_, _, ‹_›, ‹_›, rfl⟩
    · exact .inr (isRefusal_notFound store _)

/-! ## Effects -/

/-- How a call changes the store, and what is answered to it. -/
inductive Effect [Scalar α] (settings : Settings) (store : Store α) (call : Call) :
    Store α × Answer α → Prop
  | refused {after : Store α × Answer α} (hd : call.drawn? (α := α) settings = none)
      (h : IsRefusal store after) : Effect settings store call after
  | read {answer : Answer α} (h : call.Reads store answer) :
      Effect settings store call (store, answer)
  | stored {d : Diagram α} (hd : call.drawn? settings = some d) :
      Effect settings store call (store.renewed settings.maxResults d, .result store.issued d)
  | edited {edit : StoredEdit} {d d' : Diagram α} {n : Node α} (he : call.edit? α = some edit)
      (hd : store.get? edit.serial = some d) (hp : d.patch edit.node edit.patch = .ok d')
      (hn : d'.node? edit.node = some n) :
      Effect settings store call (store.update edit.serial d', .node n)
  | erased {serial : Nat} {d : Diagram α} (hc : call = .delete (.issued serial))
      (hd : store.get? serial = some d) :
      Effect settings store call (store.erase serial, .deleted)

variable [Scalar α]

theorem Effect.eq_of_drawn? {d : Diagram α} (h : Effect settings store call after)
    (hd : call.drawn? settings = some d) :
    after = (store.renewed settings.maxResults d, .result store.issued d) := by
  cases h with
  | refused hn _ => cases hn.symm.trans hd
  | read h => cases h <;> cases hd
  | stored hd' => rw [Option.some.inj (hd'.symm.trans hd)]
  | edited he _ _ _ => cases (Call.drawn?_of_edit? he).symm.trans hd
  | erased hc _ =>
    subst hc
    cases hd

theorem effect_parse (hm : 0 < settings.maxResults) (store : Store α) (body : ByteArray)
    (layoutMode : Option Text) :
    Effect settings store (.parse body layoutMode) (parse settings store body layoutMode).2 := by
  unfold parse
  cases hmode : modeOf settings layoutMode with
  | error fault =>
    exact .refused (by simp [Call.drawn?, hmode]) ⟨rfl, by simp [Answer.status]⟩
  | ok mode =>
    cases htext : Text.ofUtf8? body with
    | none => exact .refused (by simp [Call.drawn?, hmode, htext]) ⟨rfl, by simp [Answer.status]⟩
    | some text =>
      have hdrawn : (Call.parse body layoutMode).drawn? settings =
          (Diagram.build mode (.standard α) text).outcome.toOption := by
        simp only [Call.drawn?, hmode, htext]
      cases hbuilt : (Diagram.build mode (.standard α) text).outcome with
      | error e =>
        rw [hbuilt] at hdrawn
        refine .refused hdrawn ?_
        cases e <;> simp [hbuilt, keep, IsRefusal, Answer.status]
      | ok d =>
        rw [hbuilt] at hdrawn
        simp only [hbuilt, keep, Store.add_eq hm]
        exact .stored hdrawn

/-- What becomes of a call for a live result, and of one for a result that is gone. -/
theorem effect_withResult (hd : call.drawn? (α := α) settings = none)
    {answer : Nat → Diagram α → Store α × Answer α}
    (h : ∀ d, store.get? serial = some d → Effect settings store call (answer serial d)) :
    Effect settings store call (withResult store (.issued serial) answer) := by
  rw [withResult_issued]
  cases hlive : store.get? serial with
  | none => exact .refused hd (isRefusal_notFound store _)
  | some d => exact h d hlive

theorem effect_patch (store : Store α) (serial : Nat) (node : Text) (body : ByteArray) :
    Effect settings store (.patch (.issued serial) node body)
      (request store (.toNode (.issued serial) node) (.patch body)) := by
  unfold request
  cases ht : (Path.toNode (.issued serial) node).target? with
  | none => exact .refused rfl (isRefusal_notFound store _)
  | some endpoint =>
    by_cases hid : endpoint.id = .issued serial
    · cases endpoint with
      | output _ => exact .refused rfl (isRefusal_wrongMethod store)
      | result _ => exact .refused rfl (isRefusal_wrongMethod store)
      | node named node' =>
        obtain rfl : named = .issued serial := hid
        simp only [answerAt, patch]
        cases hp : patchOf (α := α) body with
        | error refusal => exact .refused rfl (isRefusal_of_patchOf hp)
        | ok p =>
          refine effect_withResult rfl fun d hd => ?_
          rcases edited_or_isRefusal store node' p serial d with ⟨d', n, hpatch, hn, he⟩ | he
          · have hedit : (Call.patch (.issued serial) node body).edit? α =
                some ⟨serial, node', p⟩ := by
              simp only [Call.edit?, ht, hp]
            rw [he]
            exact .edited hedit hd hpatch hn
          · exact .refused rfl he
    · refine .refused rfl (isRefusal_answerAt (fun other he => hid ?_) _)
      have hmem := Path.issued_mem_of_target? ht he
      rw [he]
      simpa [Path.toNode, Path.nodes, Path.results] using hmem

/-- Every call has one of the effects, where there is room for a result. -/
theorem effect_perform (hm : 0 < settings.maxResults) (store : Store α) (call : Call) :
    Effect settings store call (perform settings store call).2 := by
  cases call with
  | health => exact .read .health
  | parse body layoutMode => exact effect_parse hm store body layoutMode
  | get id =>
    cases id with
    | issued serial => exact effect_withResult rfl fun d hd => .read (.get hd)
    | text t => exact .refused rfl (isRefusal_request (by simp [Path.toResult, Path.results]) _)
  | output id =>
    cases id with
    | issued serial => exact effect_withResult rfl fun d hd => .read (.output hd)
    | text t => exact .refused rfl (isRefusal_request (by simp [Path.toOutput, Path.results]) _)
  | delete id =>
    cases id with
    | issued serial => exact effect_withResult rfl fun d hd => .erased rfl hd
    | text t => exact .refused rfl (isRefusal_request (by simp [Path.toResult, Path.results]) _)
  | patch id node body =>
    cases id with
    | issued serial => exact effect_patch store serial node body
    | text t =>
      exact .refused rfl (isRefusal_request (by simp [Path.toNode, Path.nodes, Path.results]) _)

end Service

end QueryDiagram
