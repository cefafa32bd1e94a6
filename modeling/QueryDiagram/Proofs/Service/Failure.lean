import QueryDiagram.Proofs.Diagram.Failure
import QueryDiagram.Proofs.Store
import QueryDiagram.Service

/-!
# Submissions that fail

A submission is refused with an explanation or drawn, unless an argument to be shown holds an
integer with too many digits. Then drawing fails, and with it the service
(`Service.fails_iff_hasLongInteger`).
-/

namespace QueryDiagram

open GraphQL

namespace Service

variable {α : Type} [Scalar α] {settings : Settings}

/-- What becomes of a submission in a mode that there is. -/
theorem status_parse (hm : 0 < settings.maxResults) (store : Store α) (body : ByteArray)
    {layoutMode : Option Text} {mode : LayoutMode} (hmode : modeOf settings layoutMode = .ok mode) :
    let status := (perform settings store (.parse body layoutMode)).2.2.status
    (status = 200 ∨ status = 400 ∨ status = 500) ∧
      (status = 500 ↔ ∃ text cause, Text.ofUtf8? body = some text ∧
        (Diagram.build mode (.standard α) text).outcome = .error (.conversion cause)) := by
  have hparse : perform settings store (.parse body layoutMode) =
      parse settings store body layoutMode := rfl
  rw [hparse, parse, hmode]
  cases htext : Text.ofUtf8? body with
  | none => simp [Answer.status]
  | some text =>
    cases hbuilt : (Diagram.build mode (.standard α) text).outcome with
    | ok d => simp [hbuilt, keep, Store.add_eq hm, Answer.status]
    | error e => cases e <;> simp [hbuilt, keep, Answer.status]

/-- A text has a diagram exactly if it is read as a request without integers that are too long in
the arguments to be shown. It is refused exactly if it is not read, and there is no other failure
than that of such an integer. The service fails on a body exactly if it is the text of such a
request. -/
theorem fails_iff_hasLongInteger (hm : 1 ≤ settings.maxResults) :
    (∀ (mode : LayoutMode) (config : LayoutConfig α) (text : Text),
      ((∃ d, (Diagram.build mode config text).outcome = .ok d) ↔
        ∃ r, Request.read text = .ok r ∧ ∀ n, ¬ HasLongInteger r.document n) ∧
      (∀ e, (Diagram.build mode config text).outcome = .error (.request e) ↔
        Request.read text = .error e) ∧
      ∀ cause, (Diagram.build mode config text).outcome = .error (.conversion cause) →
        ∃ r n, Request.read text = .ok r ∧ HasLongInteger r.document n ∧
          cause = .integerTooLong n) ∧
    ∀ (store : Store α) (body : ByteArray) (layoutMode : Option Text) (mode : LayoutMode),
      modeOf settings layoutMode = .ok mode →
      let status := (perform settings store (.parse body layoutMode)).2.2.status
      (status = 200 ∨ status = 400 ∨ status = 500) ∧
        (status = 500 ↔ ∃ text r n, Text.ofUtf8? body = some text ∧
          Request.read text = .ok r ∧ HasLongInteger r.document n) := by
  refine ⟨fun mode config text => ⟨?_, fun e => Diagram.outcome_build_eq_request_iff,
    fun cause => Diagram.hasLongInteger_of_conversion_error⟩, ?_⟩
  · exact Diagram.exists_build_iff
  · intro store body layoutMode mode hmode
    obtain ⟨hstatus, hfailed⟩ := status_parse (α := α) hm store body hmode
    refine ⟨hstatus, hfailed.trans ⟨?_, ?_⟩⟩
    · rintro ⟨text, cause, htext, hcause⟩
      obtain ⟨r, n, hr, hlong⟩ := Diagram.exists_conversion_error_iff.1 ⟨cause, hcause⟩
      exact ⟨text, r, n, htext, hr, hlong⟩
    · rintro ⟨text, r, n, htext, hr, hlong⟩
      obtain ⟨cause, hcause⟩ := (Diagram.exists_conversion_error_iff (α := α)).2
        ⟨r, n, hr, hlong⟩
      exact ⟨text, cause, htext, hcause⟩

/-- A request for one field, whose argument is an integer of so many digits. -/
def withInteger (digits : Nat) : Text :=
  ("\x7b\"query\":\"\x7b a(x: " : Text) ++ List.replicate digits (.scalar '1') ++
    (") \x7d\"\x7d" : Text)

/-- The integer in a document with one field that has an integer as its only argument. -/
def soleInteger? : Document → Option Text
  | [.operation ⟨_, _, [.leaf ⟨_, _, [(_, .int s)]⟩]⟩] => some s
  | _ => none

theorem hasLongInteger_iff_of_sole {d : Document} {s : Text} (h : soleInteger? d = some s)
    (n : Nat) : HasLongInteger d n ↔ integerDigitLimit < n ∧ digitCount s = n := by
  unfold soleInteger? at h
  split at h
  · obtain rfl := Option.some.inj h
    simp only [HasLongInteger, operationsOf, List.filterMap_cons, List.filterMap_nil,
      List.mem_singleton, exists_eq_left, Tree.uses_leaf_iff, Field.integers, integersOfFields,
      Literal.integers, List.append_nil]
  · cases h

theorem exists_read_withInteger {n k : Nat}
    (h : (Request.read (withInteger n)).toOption.bind (fun r =>
      (soleInteger? r.document).map digitCount) = some k) :
    ∃ r s, Request.read (withInteger n) = .ok r ∧ soleInteger? r.document = some s ∧
      digitCount s = k := by
  obtain ⟨r, hr, h⟩ := Option.bind_eq_some_iff.1 h
  obtain ⟨s, hs, hk⟩ := Option.map_eq_some_iff.1 h
  refine ⟨r, s, ?_, hs, hk⟩
  cases hread : Request.read (withInteger n) <;> simp_all [Except.toOption]

set_option maxRecDepth 100000 in
/-- The greatest number of digits that is read. -/
theorem fails_iff_hasLongInteger_withInteger :
    1 ≤ (Settings.mk 1 .precomputed).maxResults ∧ ∃ d,
      (Diagram.build .precomputed (.standard Rat) (withInteger integerDigitLimit)).outcome =
        .ok d := by
  obtain ⟨r, s, hr, hs, hcount⟩ :=
    exists_read_withInteger (n := integerDigitLimit) (k := integerDigitLimit) (by decide +kernel)
  refine ⟨le_rfl, ?_⟩
  have hm : 1 ≤ (Settings.mk 1 .precomputed).maxResults := le_rfl
  refine ((fails_iff_hasLongInteger (α := Rat) hm).1 _ _ _).1.2 ⟨r, hr, ?_⟩
  intro n hn
  obtain ⟨hlong, rfl⟩ := (hasLongInteger_iff_of_sole hs n).1 hn
  omega

set_option maxRecDepth 100000 in
/-- One more digit makes the drawing fail. -/
theorem build_fails_withInteger :
    ∃ cause, (Diagram.build .precomputed (.standard Rat) (withInteger 4301)).outcome =
      .error (.conversion cause) := by
  obtain ⟨r, s, hr, hs, hcount⟩ :=
    exists_read_withInteger (n := 4301) (k := 4301) (by decide +kernel)
  refine Diagram.exists_conversion_error_iff.2 ⟨r, 4301, hr, ?_⟩
  exact (hasLongInteger_iff_of_sole hs 4301).2 ⟨by decide, hcount⟩

end Service

end QueryDiagram
