import Mathlib
import QueryDiagram.Proofs.Service.Laws

/-!
# Results and the calls that led to them

What the store holds under an identifier can be told from the calls and their answers alone: the
diagram of the submission that was answered with the identifier, with the edits of it that were
answered with success (`recorded?`).

A call asks for an edit by the node that its path leads to and by the patch in its body
(`Call.edit?`). Every node that a path may name can be asked for (`Call.edit?_escaped`), so that
nothing is lost by the way in which paths are sent; which bodies write a patch is said in the terms
of their octets by `patchOf_eq_ok_iff`.
-/

namespace QueryDiagram

namespace Service

variable {α : Type}

/-! ## What calls with their answers tell -/

/-- The edit of a result that a call made. -/
def editOf? (serial : Nat) (e : Call × Answer α) : Option (Text × Patch) :=
  match e.1.edit? α with
  | some edit =>
    if edit.serial = serial ∧ e.2.status = 200 then some (edit.node, edit.patch) else none
  | none => none

variable [Scalar α]

/-- The diagram that a call drew, if the answer was a result with the identifier. -/
def drawnAs? (settings : Settings) (serial : Nat) : Call × Answer α → Option (Diagram α)
  | (call, .result s _) => if s = serial then call.drawn? settings else none
  | _ => none

/-- The diagram of a result after the calls that succeeded. -/
def recorded? (settings : Settings) (log : List (Call × Answer α)) (serial : Nat) :
    Option (Diagram α) := do
  let d ← log.findSome? (drawnAs? settings serial)
  (log.filterMap (editOf? serial)).foldlM (fun d e => (d.patch e.1 e.2).toOption) d

variable {settings : Settings} {log : List (Call × Answer α)} {e : Call × Answer α} {serial : Nat}
  {d d' : Diagram α}

theorem recorded?_concat_of_none (hd : drawnAs? settings serial e = none)
    (he : editOf? serial e = none) :
    recorded? settings (log ++ [e]) serial = recorded? settings log serial := by
  simp [recorded?, List.findSome?_append, hd, he]

/-- Nothing is told of the result. -/
def Untold (settings : Settings) (log : List (Call × Answer α)) (serial : Nat) : Prop :=
  ∀ e ∈ log, drawnAs? settings serial e = none ∧ editOf? serial e = none

theorem recorded?_concat_of_drawn (h : Untold settings log serial)
    (hd : drawnAs? settings serial e = some d) (he : editOf? serial e = none) :
    recorded? settings (log ++ [e]) serial = some d := by
  have hfind : log.findSome? (drawnAs? settings serial) = none :=
    List.findSome?_eq_none_iff.2 fun e he => (h e he).1
  have hedits : log.filterMap (editOf? serial) = [] :=
    List.filterMap_eq_nil_iff.2 fun e he => (h e he).2
  simp [recorded?, List.findSome?_append, hfind, hedits, hd, he]

theorem recorded?_concat_of_edit {node : Text} {p : Patch}
    (h : recorded? settings log serial = some d) (he : editOf? serial e = some (node, p))
    (hp : d.patch node p = .ok d') : recorded? settings (log ++ [e]) serial = some d' := by
  obtain ⟨d₀, hd₀, hedits⟩ := Option.bind_eq_some_iff.1 h
  have hstep : (d.patch node p).toOption = some d' := by rw [hp]; rfl
  simp [recorded?, List.findSome?_append, hd₀, List.foldlM_append, hedits, he, hstep]

theorem drawnAs?_of_drawn? {call : Call} (hd : call.drawn? (α := α) settings = none)
    (serial : Nat) (answer : Answer α) : drawnAs? settings serial (call, answer) = none := by
  cases answer <;> simp [drawnAs?, hd]

omit [Scalar α] in
theorem editOf?_of_edit? {call : Call} (he : call.edit? α = none) (serial : Nat)
    (answer : Answer α) : editOf? serial (call, answer) = none := by
  simp [editOf?, he]

omit [Scalar α] in
theorem editOf?_sent_of_status {call : Call} {answer : Answer α} (h : answer.status ≠ 200)
    (serial : Nat) : editOf? serial (call, answer.sent) = none := by
  have hs : answer.sent.status ≠ 200 := by
    intro hs
    rw [Answer.sent_eq_of_status hs] at hs
    exact h hs
  unfold editOf?
  split
  · rw [if_neg fun hc => hs hc.2]
  · rfl

/-! ## What the store holds -/

/-- Every live result is what the calls with their answers tell of it, and nothing is told of an
identifier that has not been given yet. -/
structure Faithful (settings : Settings) (r : Run α) : Prop where
  ordered : r.store.Ordered
  recorded : ∀ e ∈ r.store.entries, recorded? settings r.log e.1 = some e.2
  untold : ∀ serial, r.store.issued ≤ serial → Untold settings r.log serial

namespace Faithful

variable {r : Run α} {call : Call} {answer : Answer α} {store : Store α}

theorem start (settings : Settings) : Faithful settings (.start : Run α) where
  ordered := Store.ordered_empty
  recorded _ he := absurd he List.not_mem_nil
  untold _ _ _ he := absurd he List.not_mem_nil

theorem untold_concat (h : Faithful settings r) (hserial : r.store.issued ≤ serial)
    (hd : drawnAs? settings serial e = none) (he : editOf? serial e = none) :
    Untold settings (r.log ++ [e]) serial := by
  intro e' he'
  rcases List.mem_append.1 he' with he' | he'
  · exact h.untold serial hserial e' he'
  · rw [List.mem_singleton.1 he']
    exact ⟨hd, he⟩

/-- A call of which nothing is told may take results away. -/
theorem note (h : Faithful settings r) (hordered : store.Ordered)
    (hissued : store.issued = r.store.issued) (hsub : store.entries ⊆ r.store.entries)
    (hd : ∀ serial, drawnAs? settings serial e = none) (he : ∀ serial, editOf? serial e = none) :
    Faithful settings ⟨store, r.log ++ [e]⟩ where
  ordered := hordered
  recorded e' he' := by
    rw [recorded?_concat_of_none (hd _) (he _)]
    exact h.recorded e' (hsub he')
  untold serial hserial := h.untold_concat (hissued ▸ hserial) (hd _) (he _)

theorem stored (h : Faithful settings r) (hd : call.drawn? settings = some d) :
    Faithful settings ⟨r.store.renewed settings.maxResults d,
      r.log ++ [(call, .result r.store.issued d)]⟩ := by
  have hedit : ∀ serial, editOf? serial (call, Answer.result r.store.issued d) = none := by
    refine fun serial => editOf?_of_edit? ?_ serial _
    refine Option.eq_none_iff_forall_ne_some.2 fun edit he => ?_
    cases (Call.drawn?_of_edit? he).symm.trans hd
  have hother : ∀ serial, serial ≠ r.store.issued →
      drawnAs? settings serial (call, Answer.result r.store.issued d) = none :=
    fun serial hne => if_neg hne.symm
  refine ⟨h.ordered.renewed _ d, fun e he => ?_, fun serial hserial => ?_⟩
  · rcases List.mem_append.1 he with he | he
    · have hmem := List.mem_of_mem_drop he
      have hlt := h.ordered.lt_issued (List.mem_map_of_mem hmem)
      rw [recorded?_concat_of_none (hother _ hlt.ne) (hedit _)]
      exact h.recorded e hmem
    · rw [List.mem_singleton.1 he]
      refine recorded?_concat_of_drawn (h.untold _ le_rfl) ?_ (hedit _)
      exact (if_pos rfl).trans hd
  · have hlt : r.store.issued < serial := hserial
    exact h.untold_concat hlt.le (hother _ hlt.ne') (hedit _)

theorem edited (h : Faithful settings r) {edit : StoredEdit} {n : Node α}
    (he : call.edit? α = some edit) (hd : r.store.get? edit.serial = some d)
    (hp : d.patch edit.node edit.patch = .ok d') :
    Faithful settings ⟨r.store.update edit.serial d', r.log ++ [(call, .node n)]⟩ := by
  have hnone : call.drawn? (α := α) settings = none := Call.drawn?_of_edit? he
  have hdrawn := fun serial => drawnAs?_of_drawn? hnone serial (.node n)
  have hedit : editOf? edit.serial (call, Answer.node n) = some (edit.node, edit.patch) := by
    simp [editOf?, he, Answer.status]
  have hother : ∀ serial, serial ≠ edit.serial → editOf? serial (call, Answer.node n) = none := by
    intro serial hne
    simp [editOf?, he, hne.symm]
  have hlive := h.ordered.lt_issued (Store.mem_ids_of_get? hd)
  refine ⟨h.ordered.update _ _, fun e hmem => ?_, fun serial hserial => ?_⟩
  · rcases Store.mem_update hmem with rfl | ⟨hne, hmem⟩
    · have hbefore := h.recorded _ ((Store.get?_eq_some_iff h.ordered).1 hd)
      exact recorded?_concat_of_edit hbefore hedit hp
    · rw [recorded?_concat_of_none (hdrawn _) (hother _ hne)]
      exact h.recorded e hmem
  · have hle : r.store.issued ≤ serial := hserial
    exact h.untold_concat hle (hdrawn _) (hother _ (by omega))

/-- Every call preserves what the store holds, if its answer can be sent. -/
theorem next (h : Faithful settings r) (heffect : Effect settings r.store call (store, answer))
    (hs : answer.status = 200 → answer.isSendable) :
    Faithful settings ⟨store, r.log ++ [(call, answer.sent)]⟩ := by
  cases heffect with
  | refused hd hrefusal =>
    obtain ⟨rfl : store = r.store, hstatus⟩ := hrefusal
    exact h.note h.ordered rfl (List.Subset.refl _) (fun _ => drawnAs?_of_drawn? hd _ _)
      (editOf?_sent_of_status hstatus)
  | read hread =>
    have hd : call.drawn? (α := α) settings = none := by cases hread <;> rfl
    have he : call.edit? α = none := by cases hread <;> rfl
    exact h.note h.ordered rfl (List.Subset.refl _) (fun _ => drawnAs?_of_drawn? hd _ _)
      (fun _ => editOf?_of_edit? he _ _)
  | stored hd =>
    rw [Answer.sent_of_isSendable (hs rfl)]
    exact h.stored hd
  | edited he hd hp hn =>
    rw [Answer.sent_of_isSendable (hs rfl)]
    exact h.edited he hd hp
  | erased hc hd =>
    subst hc
    exact h.note (h.ordered.erase _) rfl (List.filter_subset_self _)
      (fun _ => drawnAs?_of_drawn? rfl _ _) (fun _ => editOf?_of_edit? rfl _ _)

end Faithful

/-! ## Runs -/

variable (α) in
/-- Every answer of success can be sent. -/
def AllSendable (settings : Settings) (calls : List Call) : Prop :=
  ∀ earlier call later, calls = earlier ++ call :: later →
    let answer : Answer α := (perform settings (run settings earlier).store call).2.2
    answer.status = 200 → answer.isSendable

theorem AllSendable.of_append {calls later : List Call}
    (h : AllSendable α settings (calls ++ later)) : AllSendable α settings calls := by
  rintro earlier call rest rfl
  exact h earlier call (rest ++ later) (by simp)

theorem AllSendable.nil : AllSendable α settings [] := fun _ _ _ he => by simp at he

theorem AllSendable.concat {calls : List Call} {call : Call} (h : AllSendable α settings calls)
    (hs : (perform settings (run settings calls : Run α).store call).2.2.isSendable) :
    AllSendable α settings (calls ++ [call]) := by
  intro earlier call' later he
  rcases List.eq_nil_or_concat later with rfl | ⟨later, last, rfl⟩
  · obtain ⟨rfl, hc⟩ := List.append_inj' he rfl
    obtain rfl := List.singleton_inj.1 hc
    exact fun _ => hs
  · rw [List.concat_eq_append, ← List.cons_append, ← List.append_assoc] at he
    exact h earlier call' later (List.append_inj' he rfl).1

theorem faithful_run (hm : 0 < settings.maxResults) (calls : List Call)
    (hs : AllSendable α settings calls) : Faithful settings (run settings calls : Run α) := by
  induction calls using run_induction (α := α) settings with
  | start => exact .start settings
  | step calls call ih =>
    exact (ih hs.of_append).next (effect_perform hm _ call) (hs calls call [] rfl)

/-- After every run each live result is the diagram of the submission that it was created with,
with the edits of it that succeeded, in order. Every call of the run obeys the laws: what does not
succeed changes nothing, what is got is what the store holds, a call for one result leaves the
others as they are, and an edited result keeps its place. -/
theorem store_holds_history (hm : 1 ≤ settings.maxResults) (calls : List Call)
    (hs : AllSendable α settings calls) :
    let r : Run α := run settings calls
    r.store.ids.Nodup ∧
    (∀ serial d, r.store.get? serial = some d → recorded? settings r.log serial = some d) ∧
    ∀ earlier call later, calls = earlier ++ call :: later →
      let before : Store α := (run settings earlier).store
      Lawful settings before call (handle settings before call).2.2
        (run settings (earlier ++ [call])).store := by
  have hfaithful := faithful_run hm calls hs
  refine ⟨hfaithful.ordered.nodup, fun serial d hd => ?_, ?_⟩
  · exact hfaithful.recorded _ ((Store.get?_eq_some_iff hfaithful.ordered).1 hd)
  · rintro earlier call later rfl
    rw [run_concat]
    exact lawful_handle hm (faithful_run hm earlier hs.of_append).ordered call
      (hs earlier call later rfl)

/-- The octets of `{"label":"b"}`. -/
def labelBody : ByteArray := ⟨#[123, 34, 108, 97, 98, 101, 108, 34, 58, 34, 98, 34, 125]⟩

theorem patchOf_labelBody : patchOf (α := Rat) labelBody = .ok { label := .set "b" } := by cbv

set_option maxRecDepth 20000 in
/-- A submission whose root gets another label. -/
theorem store_holds_history_editedSubmission :
    let settings : Settings := ⟨1, .precomputed⟩
    let calls : List Call :=
      [.parse smallSubmission none, .patch (.issued 0) "node-0" labelBody]
    1 ≤ settings.maxResults ∧ AllSendable Rat settings calls ∧
      ∃ d, (run settings calls : Run Rat).store.get? 0 = some d ∧
        recorded? settings (run settings calls : Run Rat).log 0 = some d ∧
        (d.node? "node-0").map Node.label = some ("b" : Text) := by
  intro settings calls
  obtain ⟨d, d', n, hd, hsend, hpatch, hn, hnode, hlabel⟩ : ∃ d d' n,
      (Call.parse smallSubmission none).drawn? settings = some d ∧ d.isSendable ∧
        d.patch "node-0" { label := .set "b" } = .ok d' ∧ d'.node? "node-0" = some n ∧
        (n : Node Rat).isSendable ∧ n.label = "b" :=
    ⟨_, _, _, by
      simp only [Call.drawn?, modeOf, ofUtf8?_smallSubmission]
      cbv, by cbv, by cbv, by cbv, by cbv, by cbv⟩
  have hm : 1 ≤ settings.maxResults := by decide
  let store : Store Rat := Store.empty.renewed 1 d
  have hparse : (perform settings (.empty : Store Rat) (.parse smallSubmission none)).2 =
      (store, .result 0 d) := (effect_perform hm _ _).eq_of_drawn? hd
  have hedit : (perform settings store (.patch (.issued 0) "node-0" labelBody)).2 =
      (store.update 0 d', .node n) := by
    change patch store (.issued 0) "node-0" labelBody = _
    simp only [patch, patchOf_labelBody]
    change patchResult store "node-0" _ 0 d = _
    simp only [patchResult, hpatch, hn]
  have hstore : (run settings [.parse smallSubmission none] : Run Rat).store = store :=
    congrArg Prod.fst hparse
  have hfirst : AllSendable Rat settings [.parse smallSubmission none] := by
    refine AllSendable.nil.concat ?_
    rw [show (run settings [] : Run Rat).store = .empty from rfl, hparse]
    exact hsend
  have hall : AllSendable Rat settings calls := by
    refine hfirst.concat ?_
    rw [hstore, hedit]
    exact hnode
  have hlive : (run settings calls : Run Rat).store.get? 0 = some d' := by
    have hnext : (run settings calls : Run Rat).store = store.update 0 d' := by
      have hrun := run_concat (α := Rat) settings [.parse smallSubmission none]
        (.patch (.issued 0) "node-0" labelBody)
      rw [Run.next, hstore] at hrun
      exact (congrArg Run.store hrun).trans (congrArg Prod.fst hedit)
    rw [hnext]
    rfl
  refine ⟨hm, hall, d', hlive, ?_, ?_⟩
  · exact (store_holds_history hm calls hall).2.1 0 d' hlive
  · rw [hn, Option.map_some, hlabel]

end Service

end QueryDiagram
