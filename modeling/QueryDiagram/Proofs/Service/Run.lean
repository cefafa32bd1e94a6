import Mathlib.Data.List.Induction
import QueryDiagram.Proofs.Service.Effect

/-!
# Runs of the service

A run makes calls one after the other, from a store without results on, and notes every call with
the answer that the caller got.

The calls are those that a caller makes through a client, as only their answers can be observed. The
client decodes a path once before the service does, and follows redirections (`Path.target?`). What
is said of every such run is said of everything that the service can be brought to hold, as no node
that a path may name is out of reach (`Path.target?_toNode_escaped`).
-/

namespace QueryDiagram

open Service

/-- The store after some calls, and the calls with the answers to them, oldest first. -/
structure Run (α : Type) where
  store : Store α
  log : List (Call × Answer α)

theorem Answer.sent_eq_of_status {α : Type} {answer : Answer α}
    (h : answer.sent.status = 200) : answer.sent = answer := by
  unfold sent at h ⊢
  split_ifs at h ⊢
  · rfl
  · simp [status] at h

namespace Run

variable {α : Type} [Scalar α]

omit [Scalar α] in
/-- The run before any call. -/
def start : Run α := ⟨.empty, []⟩

/-- The run with one more call. -/
def next (settings : Settings) (r : Run α) (call : Call) : Run α :=
  let handled := handle settings r.store call
  ⟨handled.2.1, r.log ++ [(call, handled.2.2)]⟩

/-- A call has one of the effects, and is noted with the answer that was sent. -/
theorem effect_next {settings : Settings} (hm : 0 < settings.maxResults) (r : Run α)
    (call : Call) :
    ∃ store answer, Effect settings r.store call (store, answer) ∧
      r.next settings call = ⟨store, r.log ++ [(call, answer.sent)]⟩ :=
  ⟨_, _, effect_perform hm r.store call, rfl⟩

end Run

namespace Service

variable {α : Type} [Scalar α] {settings : Settings}

theorem answer_handle (settings : Settings) (store : Store α) (call : Call) :
    (handle settings store call).2.2 = (perform settings store call).2.2.sent := rfl

/-- The run of calls, one after another. -/
def run (settings : Settings) (calls : List Call) : Run α :=
  calls.foldl (Run.next settings) .start

theorem run_concat (settings : Settings) (calls : List Call) (call : Call) :
    run settings (calls ++ [call]) = (run settings calls : Run α).next settings call :=
  List.foldl_concat ..

/-- What holds at the start and is preserved by every call holds after every run. -/
theorem run_induction (settings : Settings) {motive : List Call → Run α → Prop}
    (start : motive [] .start)
    (step : ∀ calls call, motive calls (run settings calls) →
      motive (calls ++ [call]) ((run settings calls).next settings call))
    (calls : List Call) : motive calls (run settings calls) := by
  induction calls using List.reverseRecOn with
  | nil => exact start
  | append_singleton calls call ih =>
    rw [run_concat]
    exact step calls call ih

/-- The calls are noted in their order. -/
theorem map_fst_log_run (settings : Settings) (calls : List Call) :
    (run settings calls : Run α).log.map Prod.fst = calls := by
  induction calls using run_induction (α := α) settings with
  | start => rfl
  | step calls call ih =>
    rw [Run.next, List.map_append, ih]
    rfl

end Service

/-! ## A small submission -/

/-- The octets of `{"query":"{a}"}`. -/
def smallSubmission : ByteArray :=
  ⟨#[123, 34, 113, 117, 101, 114, 121, 34, 58, 34, 123, 97, 125, 34, 125]⟩

theorem ofUtf8?_smallSubmission :
    Text.ofUtf8? smallSubmission = some "\x7b\"query\":\"\x7ba\x7d\"\x7d" := by
  decide +kernel

end QueryDiagram
