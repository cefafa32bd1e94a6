import QueryDiagram.Proofs.Service.Run

/-!
# Laws of single calls

Whatever a store holds, a call that does not succeed leaves it as it is, a call for one result
leaves the others as they are, and what is got is what the store holds (`Service.lawful_handle`).
-/

namespace QueryDiagram

open Service

variable {α : Type} [Scalar α] {settings : Settings} {serial : Nat} {d : Diagram α}

namespace Call

/-- The identifier that a call names. -/
def id? : Call → Option Segment
  | get id | output id | delete id | patch id _ _ => some id
  | _ => none

theorem drawn?_of_id? {call : Call} {id : Segment} (h : call.id? = some id) :
    call.drawn? (α := α) settings = none := by
  cases call with
  | parse _ _ => cases h
  | _ => rfl

omit [Scalar α] in
theorem id?_of_edit? {call : Call} {edit : StoredEdit} (he : call.edit? α = some edit) :
    call.id? = some (.issued edit.serial) := by
  unfold Call.edit? at he
  split at he
  · split at he
    · rw [← Option.some.inj he]
      rfl
    · cases he
  · cases he

end Call

namespace Service

/-- What a call and the answer to it have to do with the stores before and after the call. -/
structure Lawful (settings : Settings) (before : Store α) (call : Call) (answer : Answer α)
    (after : Store α) : Prop where
  refused : answer.status ≠ 200 → after = before
  read : ∀ id, call = .get id ∨ call = .output id → after = before
  get : ∀ serial, call = .get (.issued serial) → answer =
    match before.get? serial with
    | some d => .result serial d
    | none => .notFound .result
  output : ∀ serial, call = .output (.issued serial) → answer =
    match before.get? serial with
    | some d => .output d.output
    | none => .notFound .result
  /-- What has been drawn is what the next call for it gets. -/
  parse : ∀ body layoutMode, call = .parse body layoutMode → answer.status = 200 →
    ∃ serial d, answer = .result serial d ∧
      (handle settings after (.get (.issued serial))).2.2 = answer
  /-- No identifier is met with success but that of a live result. -/
  live : ∀ id, call.id? = some id → answer.status = 200 → ∃ serial ∈ before.ids, id = .issued serial
  others : ∀ serial other, call.id? = some (.issued serial) → other ≠ serial →
    after.get? other = before.get? other
  place : ∀ id node body, call = .patch id node body → after.ids = before.ids

theorem perform_get (settings : Settings) (store : Store α) (serial : Nat) :
    (perform settings store (.get (.issued serial))).2.2 =
      match store.get? serial with
      | some d => .result serial d
      | none => .notFound .result := by
  change (withResult store (.issued serial) fun serial d => (store, .result serial d)).2 = _
  rw [withResult_issued]
  cases store.get? serial <;> rfl

theorem perform_get_of_live (settings : Settings) {store : Store α}
    (h : store.get? serial = some d) :
    (perform settings store (.get (.issued serial))).2.2 = .result serial d := by
  rw [perform_get, h]

theorem perform_output (settings : Settings) (store : Store α) (serial : Nat) :
    (perform settings store (.output (.issued serial))).2.2 =
      match store.get? serial with
      | some d => .output d.output
      | none => .notFound .result := by
  change (withResult store (.issued serial) fun _ d => (store, .output d.output)).2 = _
  rw [withResult_issued]
  cases store.get? serial <;> rfl

namespace Effect

variable {store store' : Store α} {call : Call} {answer : Answer α} {id : Segment} {other : Nat}

theorem store_eq_of_status (h : Effect settings store call (store', answer))
    (hs : answer.status ≠ 200) : store' = store := by
  cases h with
  | refused _ h => exact h.1
  | read h => rfl
  | stored _ => exact absurd rfl hs
  | edited _ _ _ _ => exact absurd rfl hs
  | erased _ _ => exact absurd rfl hs

theorem store_eq_of_read (h : Effect settings store call (store', answer))
    (hc : call = .get id ∨ call = .output id) : store' = store := by
  cases h with
  | refused _ h => exact h.1
  | read h => rfl
  | stored hd => rcases hc with rfl | rfl <;> cases hd
  | edited he _ _ _ => rcases hc with rfl | rfl <;> cases he
  | erased hd _ => rcases hc with rfl | rfl <;> cases hd

theorem exists_live (h : Effect settings store call (store', answer)) (hid : call.id? = some id)
    (hs : answer.status = 200) : ∃ serial ∈ store.ids, id = .issued serial := by
  cases h with
  | refused _ h => exact absurd hs h.2
  | read h =>
    cases h with
    | health => cases hid
    | get hd => exact ⟨_, Store.mem_ids_of_get? hd, (Option.some.inj hid).symm⟩
    | output hd => exact ⟨_, Store.mem_ids_of_get? hd, (Option.some.inj hid).symm⟩
  | stored hd => cases (Call.drawn?_of_id? hid).symm.trans hd
  | edited he hd _ _ =>
    exact ⟨_, Store.mem_ids_of_get? hd, Option.some.inj (hid.symm.trans (Call.id?_of_edit? he))⟩
  | erased hc hd =>
    subst hc
    exact ⟨_, Store.mem_ids_of_get? hd, (Option.some.inj hid).symm⟩

/-- A call for one result leaves the others as they are. -/
theorem get?_of_ne (h : Effect settings store call (store', answer))
    (hid : call.id? = some (.issued serial)) (hne : other ≠ serial) :
    store'.get? other = store.get? other := by
  cases h with
  | refused _ h => rw [show store' = store from h.1]
  | read h => rfl
  | stored hd => cases (Call.drawn?_of_id? hid).symm.trans hd
  | edited he _ _ _ =>
    obtain rfl := Segment.issued.inj (Option.some.inj (hid.symm.trans (Call.id?_of_edit? he)))
    exact Store.get?_update_of_ne hne store _
  | erased hc hd =>
    subst hc
    obtain rfl := Segment.issued.inj (Option.some.inj hid)
    exact Store.get?_erase_of_ne hne store

theorem ids_of_patch {node : Text} {body : ByteArray}
    (h : Effect settings store (.patch id node body) (store', answer)) :
    store'.ids = store.ids := by
  cases h with
  | refused _ h => rw [show store' = store from h.1]
  | read h => rfl
  | stored hd => cases hd
  | edited _ _ _ _ => exact Store.ids_update store _ _
  | erased hc _ => cases hc

/-- A result that has just been drawn is what is got next. -/
theorem get?_of_parse {body : ByteArray} {layoutMode : Option Text} (ho : store.Ordered)
    (h : Effect settings store (.parse body layoutMode) (store', answer))
    (hs : answer.status = 200) :
    ∃ serial d, answer = .result serial d ∧ store'.get? serial = some d := by
  cases h with
  | refused _ h => exact absurd hs h.2
  | read h => cases h
  | stored hd => exact ⟨_, _, rfl, Store.get?_renewed ho _ _⟩
  | edited he _ _ _ => cases he
  | erased hc _ => cases hc

end Effect

theorem lawful_handle (hm : 0 < settings.maxResults) {store : Store α} (ho : store.Ordered)
    (call : Call)
    (hs : (perform settings store call).2.2.status = 200 →
      (perform settings store call).2.2.isSendable) :
    Lawful settings store call (handle settings store call).2.2
      (handle settings store call).2.1 := by
  have heffect := effect_perform hm store call
  have hstatus : (handle settings store call).2.2.status = 200 →
      (perform settings store call).2.2.status = 200 := fun h =>
    (congrArg Answer.status (Answer.sent_eq_of_status h)).symm.trans h
  constructor
  case refused =>
    intro h
    refine heffect.store_eq_of_status fun hp => h ?_
    exact (congrArg Answer.status (Answer.sent_of_isSendable (hs hp))).trans hp
  case read => exact fun id hc => heffect.store_eq_of_read hc
  case get =>
    rintro serial rfl
    rw [perform_get] at hs
    rw [answer_handle, perform_get]
    cases hd : store.get? serial with
    | none => rfl
    | some d => exact Answer.sent_of_isSendable ((hd ▸ hs) rfl)
  case output =>
    rintro serial rfl
    rw [perform_output] at hs
    rw [answer_handle, perform_output]
    cases hd : store.get? serial with
    | none => rfl
    | some d => exact Answer.sent_of_isSendable ((hd ▸ hs) rfl)
  case parse =>
    rintro body layoutMode rfl h
    obtain ⟨serial, d, hanswer, hd⟩ := heffect.get?_of_parse ho (hstatus h)
    have hsent := Answer.sent_eq_of_status h
    refine ⟨serial, d, hsent.trans hanswer, ?_⟩
    exact congrArg Answer.sent ((perform_get_of_live settings hd).trans hanswer.symm)
  case live => exact fun id hid h => heffect.exists_live hid (hstatus h)
  case others => exact fun serial other hid hne => heffect.get?_of_ne hid hne
  case place =>
    rintro id node body rfl
    exact heffect.ids_of_patch

end Service

end QueryDiagram
