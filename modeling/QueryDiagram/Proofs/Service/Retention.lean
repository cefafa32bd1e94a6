import Mathlib
import QueryDiagram.Proofs.Service.Run

/-!
# Results that are kept

A service with room for `m` results keeps the newest. What it deleted aside, the live results are
those that were created last (`Retained`), and a result that is gone without having been deleted
has been followed by `m` others or more.
-/

namespace QueryDiagram

open Service

/-! ## Identifiers that are kept -/

/-- Of the results `0` to `n - 1` at most `m` are live: those from some point on, without the
deleted ones, and there are `m` from that point on unless it is the first. -/
structure Retained (m n : Nat) (ids deleted : List Nat) : Prop where
  length_le : ids.length ≤ m
  exists_recent : ∃ old recent, List.range n = old ++ recent ∧
    ids = recent.filter (· ∉ deleted) ∧ (old = [] ∨ m ≤ recent.length)
  deleted_lt : ∀ s ∈ deleted, s < n

namespace Retained

variable {m n : Nat} {ids deleted : List Nat} {s : Nat}

theorem start (m : Nat) : Retained m 0 [] [] where
  length_le := Nat.zero_le m
  exists_recent := ⟨[], [], rfl, rfl, .inl rfl⟩
  deleted_lt := nofun

theorem renewed (hm : 0 < m) (h : Retained m n ids deleted) :
    Retained m (n + 1) (ids.drop (ids.length + 1 - m) ++ [n]) deleted := by
  obtain ⟨old, recent, hrange, hids, hold⟩ := h.exists_recent
  have hn : [n].filter (· ∉ deleted) = [n] := by
    simpa using fun hd => Nat.lt_irrefl _ (h.deleted_lt n hd)
  refine ⟨?_, ?_, fun s hs => Nat.lt_succ_of_lt (h.deleted_lt s hs)⟩
  · rw [List.length_append, List.length_drop, List.length_singleton]
    have := h.length_le
    omega
  · by_cases hroom : ids.length < m
    · refine ⟨old, recent ++ [n], ?_, ?_, hold.imp_right fun h => ?_⟩
      · rw [List.range_succ, hrange, List.append_assoc]
      · rw [show ids.length + 1 - m = 0 by omega, List.drop_zero, List.filter_append, hn, ← hids]
      · rw [List.length_append]
        omega
    · -- The oldest results that are live go, and with them all before.
      have hsplit : recent.filter (· ∉ deleted) =
          ids.take (ids.length + 1 - m) ++ ids.drop (ids.length + 1 - m) := by
        rw [List.take_append_drop, hids]
      obtain ⟨gone, kept, rfl, hgone, hkept⟩ := List.filter_eq_append_iff.1 hsplit
      refine ⟨old ++ gone, kept ++ [n], ?_, ?_, .inr ?_⟩
      · rw [List.range_succ, hrange]
        simp only [List.append_assoc]
      · rw [List.filter_append, hn, hkept]
      · have hlength := List.length_filter_le (· ∉ deleted) kept
        rw [hkept, List.length_drop] at hlength
        rw [List.length_append, List.length_singleton]
        omega

theorem erased (h : Retained m n ids deleted) (hs : s ∈ ids) :
    Retained m n (ids.filter (· ≠ s)) (deleted ++ [s]) := by
  obtain ⟨old, recent, hrange, rfl, hold⟩ := h.exists_recent
  refine ⟨(List.length_filter_le _ _).trans h.length_le, ⟨old, recent, hrange, ?_, hold⟩, ?_⟩
  · rw [List.filter_filter]
    exact List.filter_congr fun x _ => by simp [and_comm]
  · intro x hx
    rcases List.mem_append.1 hx with hx | hx
    · exact h.deleted_lt x hx
    · rw [List.mem_singleton.1 hx]
      refine List.mem_range.1 (hrange ▸ List.mem_append_right _ ?_)
      exact List.mem_of_mem_filter hs

/-- The live results are the last of those that were never deleted. -/
theorem isSuffix (h : Retained m n ids deleted) :
    ids <:+ (List.range n).filter (· ∉ deleted) := by
  obtain ⟨old, recent, hrange, rfl, -⟩ := h.exists_recent
  rw [hrange, List.filter_append]
  exact List.suffix_append _ _

theorem sublist (h : Retained m n ids deleted) : ids.Sublist (List.range n) :=
  h.isSuffix.sublist.trans List.filter_sublist

/-- A result that is gone without having been deleted is followed by `m` others. -/
theorem lt_of_not_mem (h : Retained m n ids deleted) (hn : s < n) (hs : s ∉ ids)
    (hd : s ∉ deleted) : s + m < n := by
  obtain ⟨old, recent, hrange, rfl, hold⟩ := h.exists_recent
  have hlength : n = old.length + recent.length := by
    rw [← List.length_append, ← hrange, List.length_range]
  have hslt : s < old.length := by
    by_contra hge
    have hget : (List.range n)[s]? = some s := List.getElem?_range hn
    rw [hrange, List.getElem?_append_right (by omega)] at hget
    exact hs (List.mem_filter.2 ⟨List.mem_of_getElem? hget, by simpa using hd⟩)
  have hm : m ≤ recent.length := hold.resolve_left (by
    rintro rfl
    simp at hslt)
  omega

/-- Where nothing was deleted, the live results are the last that were created. -/
theorem eq_drop (h : Retained m n ids []) : ids = (List.range n).drop (n - min m n) := by
  obtain ⟨old, recent, hrange, hids, hold⟩ := h.exists_recent
  have hall : recent.filter (· ∉ ([] : List Nat)) = recent := by simp
  rw [hall] at hids
  subst hids
  have hcap := h.length_le
  have hlength : n = old.length + ids.length := by
    rw [← List.length_append, ← hrange, List.length_range]
  have hold : old.length = n - min m n := by
    rcases hold with rfl | hold
    · simp only [List.length_nil] at hlength ⊢
      omega
    · omega
  rw [hrange, ← hold, List.drop_left]

end Retained

/-! ## Results of a run -/

variable {α : Type}

/-- The result that a call with its answer took away. -/
def deletedBy? : Call × Answer α → Option Nat
  | (.delete (.issued serial), .deleted) => some serial
  | _ => none

/-- The results that were deleted. -/
def Run.deleted (r : Run α) : List Nat := r.log.filterMap deletedBy?

theorem Run.deleted_concat (store store' : Store α) (log : List (Call × Answer α))
    (e : Call × Answer α) :
    deleted ⟨store', log ++ [e]⟩ = deleted ⟨store, log⟩ ++ (deletedBy? e).toList := by
  rw [deleted, deleted, List.filterMap_append]
  cases h : deletedBy? e <;> simp [h]

theorem deletedBy?_sent_eq_some {call : Call} {answer : Answer α} {serial : Nat}
    (h : deletedBy? (call, answer.sent) = some serial) :
    call = .delete (.issued serial) ∧ answer = .deleted := by
  unfold deletedBy? at h
  split at h
  · rename_i s he
    obtain ⟨rfl, hs⟩ := Prod.mk.inj he
    refine ⟨by rw [Option.some.inj h], ?_⟩
    unfold Answer.sent at hs
    split at hs
    · exact hs
    · cases hs
  · cases h

namespace Service

variable [Scalar α] {settings : Settings}

variable (α) in
/-- The number of results that calls have stored. -/
def created (settings : Settings) (calls : List Call) : Nat :=
  calls.countP fun call => (call.drawn? (α := α) settings).isSome

/-- How a call changes the live results, the number of results ever stored and the deleted ones. -/
theorem ids_next (hm : 0 < settings.maxResults) (r : Run α) (call : Call) :
    (∃ d, call.drawn? settings = some d ∧
      (r.next settings call).store = r.store.renewed settings.maxResults d ∧
      (r.next settings call).deleted = r.deleted) ∨
    call.drawn? (α := α) settings = none ∧
      (r.next settings call).store.issued = r.store.issued ∧
      ((∃ s ∈ r.store.ids, (r.next settings call).store.ids = r.store.ids.filter (· ≠ s) ∧
          (r.next settings call).deleted = r.deleted ++ [s]) ∨
        (r.next settings call).store.ids = r.store.ids ∧
          (r.next settings call).deleted = r.deleted) := by
  obtain ⟨store, answer, heffect, hnext⟩ := r.effect_next hm call
  have hkeeps : (∀ serial, call = .delete (.issued serial) → answer ≠ .deleted) →
      (r.next settings call).deleted = r.deleted := by
    intro h
    have hnone : deletedBy? (call, answer.sent) = none := by
      refine Option.eq_none_iff_forall_ne_some.2 fun s hs => ?_
      obtain ⟨hcall, hanswer⟩ := deletedBy?_sent_eq_some hs
      exact h s hcall hanswer
    rw [hnext, Run.deleted_concat r.store, hnone, Option.toList_none, List.append_nil]
  cases heffect with
  | refused hd h =>
    obtain ⟨rfl : store = r.store, hstatus⟩ := h
    refine .inr ⟨hd, by rw [hnext], .inr ⟨by rw [hnext], hkeeps ?_⟩⟩
    rintro serial - rfl
    exact hstatus rfl
  | read h =>
    cases h <;> exact .inr ⟨rfl, by rw [hnext], .inr ⟨by rw [hnext], hkeeps nofun⟩⟩
  | stored hd => exact .inl ⟨_, hd, by rw [hnext], hkeeps nofun⟩
  | edited he hd hp hn =>
    exact .inr ⟨Call.drawn?_of_edit? he, by rw [hnext]; rfl,
      .inr ⟨by rw [hnext, Store.ids_update], hkeeps nofun⟩⟩
  | erased hc hd =>
    subst hc
    refine .inr ⟨rfl, by rw [hnext]; rfl,
      .inl ⟨_, Store.mem_ids_of_get? hd, by rw [hnext, Store.ids_erase], ?_⟩⟩
    rw [hnext, Run.deleted_concat r.store]
    rfl

/-- After every run the store has issued as many identifiers as results were created, and retains
the newest of them. -/
theorem retained_run (hm : 0 < settings.maxResults) (calls : List Call) :
    (run settings calls : Run α).store.issued = created α settings calls ∧
      Retained settings.maxResults (created α settings calls)
        (run settings calls : Run α).store.ids (run settings calls : Run α).deleted := by
  induction calls using run_induction (α := α) settings with
  | start => exact ⟨rfl, .start _⟩
  | step calls call ih =>
    obtain ⟨hissued, hretained⟩ := ih
    have hcreated : created α settings (calls ++ [call]) = created α settings calls +
        if (call.drawn? (α := α) settings).isSome then 1 else 0 := by
      rw [created, created, List.countP_append, List.countP_singleton]
    rw [hcreated]
    rcases ids_next hm (run settings calls : Run α) call with
      ⟨d, hd, hstore, hdeleted⟩ | ⟨hd, hsame, ⟨s, hs, hids, hdeleted⟩ | ⟨hids, hdeleted⟩⟩
    · rw [hstore, hdeleted, hd, Store.ids_renewed, hissued]
      exact ⟨congrArg (· + 1) hissued, hretained.renewed hm⟩
    · rw [hsame, hids, hdeleted, hd]
      exact ⟨hissued, hretained.erased hs⟩
    · rw [hsame, hids, hdeleted, hd]
      exact ⟨hissued, hretained⟩

theorem deleted_run_eq_nil {calls : List Call} (h : ∀ id, .delete id ∉ calls) :
    (run settings calls : Run α).deleted = [] := by
  refine List.filterMap_eq_nil_iff.2 fun e he => ?_
  have hmem : e.1 ∈ calls := by
    rw [← map_fst_log_run (α := α) settings calls]
    exact List.mem_map_of_mem he
  unfold deletedBy?
  split
  · exact absurd hmem (h _)
  · rfl

theorem ordered_run (hm : 0 < settings.maxResults) (calls : List Call) :
    (run settings calls : Run α).store.Ordered := by
  obtain ⟨hissued, hretained⟩ := retained_run (α := α) hm calls
  rw [Store.Ordered, hissued]
  exact hretained.sublist

/-- A result gets the number of those before it as its identifier. -/
theorem perform_run_of_drawn? (hm : 0 < settings.maxResults) (calls : List Call) {call : Call}
    {d : Diagram α} (hd : call.drawn? settings = some d) :
    (perform settings (run settings calls : Run α).store call).2 =
      ((run settings calls : Run α).store.renewed settings.maxResults d,
        .result (created α settings calls) d) := by
  rw [← (retained_run hm calls).1]
  exact (effect_perform hm _ call).eq_of_drawn? hd

/-- A result that has just been created is live. -/
theorem get?_run_concat_of_drawn? (hm : 0 < settings.maxResults) (calls : List Call) {call : Call}
    {d : Diagram α} (hd : call.drawn? settings = some d) :
    (run settings (calls ++ [call]) : Run α).store.get? (created α settings calls) = some d := by
  have hstore : (run settings (calls ++ [call]) : Run α).store =
      (run settings calls : Run α).store.renewed settings.maxResults d := by
    rw [run_concat]
    exact congrArg Prod.fst (perform_run_of_drawn? hm calls hd)
  rw [hstore, ← (retained_run hm calls).1]
  exact Store.get?_renewed (ordered_run hm calls) settings.maxResults d

theorem created_append_cons (earlier later : List Call) {call : Call} {d : Diagram α}
    (hd : call.drawn? settings = some d) :
    created α settings (earlier ++ call :: later) =
      created α settings earlier + 1 + created α settings later := by
  rw [created, List.countP_append, List.countP_cons, hd]
  simp only [created, Option.isSome_some, if_true]
  omega

/-- The call that stores a result makes room for it by dropping the oldest results, no more than
needed, whatever the store holds. In a run from an empty store the live results are in the order
of their creation and never more than there is room for; a result is live when it has just been
created, and one that was never deleted stays live until as many others have been created as there
is room for. -/
theorem keeps_newest (hm : 1 ≤ settings.maxResults) :
    (∀ (store : Store α) (call : Call) (d : Diagram α), call.drawn? settings = some d →
      let kept := store.entries.drop (store.entries.length + 1 - settings.maxResults)
      Store.evict settings.maxResults store.entries = some kept ∧
        (perform settings store call).2 =
          (⟨kept ++ [(store.issued, d)], store.issued + 1⟩, .result store.issued d)) ∧
    ∀ calls : List Call,
      let r : Run α := run settings calls
      let results := List.range (created α settings calls)
      r.store.ids.length ≤ settings.maxResults ∧
      r.store.ids.Sublist results ∧
      r.store.ids <:+ results.filter (· ∉ r.deleted) ∧
      ((∀ id, .delete id ∉ calls) → r.deleted = []) ∧
      (r.deleted = [] →
        r.store.ids = results.drop (results.length - min settings.maxResults results.length)) ∧
      ∀ earlier call later d, calls = earlier ++ call :: later → call.drawn? settings = some d →
        let id := created α settings earlier
        (perform settings (run settings earlier : Run α).store call).2.2 = .result id d ∧
        (run settings (earlier ++ [call]) : Run α).store.get? id = some d ∧
        (id ∉ r.store.ids → id ∉ r.deleted →
          settings.maxResults ≤ created α settings later) := by
  refine ⟨fun store call d hd =>
    ⟨Store.evict_eq hm _, (effect_perform hm store call).eq_of_drawn? hd⟩, ?_⟩
  intro calls r results
  obtain ⟨-, hretained⟩ := retained_run (α := α) hm calls
  refine ⟨hretained.length_le, hretained.sublist, hretained.isSuffix,
    deleted_run_eq_nil, fun hdeleted => ?_, ?_⟩
  · rw [List.length_range]
    exact (hdeleted ▸ hretained).eq_drop
  · rintro earlier call later d rfl hd id
    refine ⟨congrArg Prod.snd (perform_run_of_drawn? hm earlier hd),
      get?_run_concat_of_drawn? hm earlier hd, fun hgone hkept => ?_⟩
    have hcreated := created_append_cons earlier later hd
    have hlt := hretained.lt_of_not_mem (by omega) hgone hkept
    omega

set_option maxRecDepth 20000 in
/-- Where there is room for one result, the second of two is kept. -/
theorem keeps_newest_twoSubmissions :
    let settings : Settings := ⟨1, .precomputed⟩
    let calls : List Call := [.parse smallSubmission none, .parse smallSubmission none]
    1 ≤ settings.maxResults ∧ (run settings calls : Run Rat).store.ids = [1] := by
  intro settings calls
  have hm : 1 ≤ settings.maxResults := by decide
  have hdrawn : ((Call.parse smallSubmission none).drawn? (α := Rat) settings).isSome := by
    simp only [Call.drawn?, modeOf, ofUtf8?_smallSubmission]
    cbv
  have hcreated : created Rat settings calls = 2 := by simp [created, calls, hdrawn]
  obtain ⟨-, -, -, hdeleted, hids, -⟩ := (keeps_newest (α := Rat) hm).2 calls
  refine ⟨hm, ?_⟩
  rw [hids (hdeleted (by simp [calls])), hcreated]
  rfl

end Service

end QueryDiagram
