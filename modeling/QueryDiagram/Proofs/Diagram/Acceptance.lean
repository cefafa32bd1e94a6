import QueryDiagram.Proofs.Diagram.Output
import QueryDiagram.Proofs.Json.Refusal

/-!
# Outputs that are read

The reader takes a number that is too large for a double, and for such a number the output has a
word that the reader does not take. So the output of a diagram is a submission again exactly if its
variables hold no such number (`Diagram.output_read_iff`).
-/

namespace QueryDiagram

open Json (Readable)

theorem Request.readable_variableValues {t : Text} {r : Request} (h : read t = .ok r) :
    (Json.object r.variableValues).Readable := by
  obtain hv | ⟨members, hm, hmem⟩ := variableValues_eq_or_mem h
  · rw [hv]
    exact Json.everywhere_object (fun _ => List.nodup_nil) nofun
  · exact (Json.readable_of_read hm).of_mem_members hmem

theorem Request.read_eq_error_of_readObject {t : Text} {e : RequestError}
    (h : readObject t = .error e) : read t = .error e := by
  rw [read, h]
  rfl

namespace Diagram

variable {α : Type} {d d' : Diagram α}

theorem readable_projection (h : (Json.object d.variableValues).Readable) :
    (Json.object d.projection).Readable :=
  everywhere_projection h (fun _ hk _ => hk) (fun _ _ => trivial) fun _ => trivial

/-- The output is no JSON text if a variable holds a number that is too large for a double. -/
theorem read_output_of_isInf (h : (Json.object d.variableValues).Readable) {x : Float}
    (hx : .float x ∈ (Json.object d.variableValues).subvalues) (hinf : x.isInf) :
    Request.read d.output = .error .invalidFormat := by
  have hread : ∀ w, Json.read .strict d.output ≠ .ok w := by
    intro w hw
    have hs := (readable_projection h).exists_read_write_iff.1 ⟨w, hw⟩
    have hvariables : (Json.object d.variableValues).Standard :=
      hs.of_mem_members (List.mem_cons_of_mem _ List.mem_cons_self)
    rw [h.standard_iff.1 hvariables x hx] at hinf
    cases hinf
  refine Request.read_eq_error_of_readObject ?_
  unfold Request.readObject
  split
  · exact absurd ‹_› (hread _)
  · rfl

variable [Scalar α] {mode : LayoutMode} {config : LayoutConfig α} {text : Text}

/-- The output of a diagram, however it was edited, is a submission again if no number at any depth
of the variables is too large for a double, and is refused as no JSON text otherwise. -/
theorem output_read_iff (h : (build mode config text).outcome = .ok d) (he : Edited d d') :
    ((∃ r, Request.read d'.output = .ok r) ↔
      ∀ x, .float x ∈ (Json.object d.variableValues).subvalues → x.isInf = false) ∧
    ((∃ x, .float x ∈ (Json.object d.variableValues).subvalues ∧ x.isInf) →
      Request.read d'.output = .error .invalidFormat) := by
  have hread : Request.read text = .ok d.request := read_of_build h
  have hvalues : (Json.object d.variableValues).Readable := Request.readable_variableValues hread
  have hrefused : (∃ x, .float x ∈ (Json.object d.variableValues).subvalues ∧ x.isInf) →
      Request.read d.output = .error .invalidFormat :=
    fun ⟨x, hx, hinf⟩ => read_output_of_isInf hvalues hx hinf
  rw [output_of_frame_eq (he.frame_eq (isForest_of_build h).nodup_ids)]
  refine ⟨⟨fun ⟨r, hr⟩ x hx => ?_, fun hx => ?_⟩, hrefused⟩
  · rw [Bool.eq_false_iff]
    intro hinf
    cases (hrefused ⟨x, hx, hinf⟩).symm.trans hr
  · exact ⟨_, read_output (Request.normal_of_read hread) (hvalues.standard_iff.2 hx)⟩

/-- A request for one field, with a numeral as its only variable. -/
def withVariable (numeral : Text) : Text :=
  ("\x7b\"query\":\"\x7b a \x7d\",\"variables\":\x7b\"x\":" : Text) ++ numeral ++ "\x7d\x7d"

set_option maxRecDepth 20000 in
/-- A request for one field that is read has a diagram, whose root can be edited. -/
theorem exists_build_withVariable (numeral : Text) {p : Request → Bool}
    (h : ((Request.read (withVariable numeral)).toOption.map fun r =>
      (r.query, p r)) = some (("\x7b a \x7d" : Text), true)) :
    ∃ d d' : Diagram Rat,
      (build .precomputed (.standard Rat) (withVariable numeral)).outcome = .ok d ∧
        p d.request ∧ d.patch "node-0" { label := .set "b" } = .ok d' := by
  obtain ⟨r, hr, he⟩ := Option.map_eq_some_iff.1 h
  obtain ⟨hquery, hp⟩ := Prod.mk.inj he
  have hread : Request.read (withVariable numeral) = .ok r := by
    cases h : Request.read (withVariable numeral) <;> simp_all [Except.toOption]
  have hdocument := (Request.normal_of_read hread).document
  rw [hquery] at hdocument
  obtain ⟨document, s, n, hd, hs, hn⟩ : ∃ document s n,
      Request.documentOf "\x7b a \x7d" = .ok document ∧
        (sheet { config := .standard Rat, mode := .precomputed } document).outcome = .ok s ∧
        s.nodes.find? (fun n => n.id = ("node-0" : Text)) = some n :=
    ⟨_, _, _, by cbv, by cbv, by cbv⟩
  obtain rfl := Except.ok.inj (hd.symm.trans hdocument)
  refine ⟨_, _, outcome_build_eq_ok_iff.2 ⟨r, s, hread, hs, rfl⟩, hp,
    patch_eq_ok_iff.2 ⟨rfl, n, ?_, rfl⟩⟩
  rw [node?, ofSheet, List.find?_append, hn]
  rfl

/-- The value is a number that is too large for a double. -/
def overflows : Json → Bool
  | .float x => x.isInf
  | _ => false

set_option maxRecDepth 20000 in
/-- The output of a diagram is refused whose variable is too large. -/
theorem output_refused_overflowing :
    ∃ d : Diagram Rat, (build .precomputed (.standard Rat) (withVariable "1e999")).outcome = .ok d ∧
      Request.read d.output = .error .invalidFormat := by
  obtain ⟨d, -, hbuild, hd, -⟩ := exists_build_withVariable "1e999"
    (p := fun r => (Json.object r.variableValues).subvalues.any overflows) (by decide +kernel)
  refine ⟨d, hbuild, ?_⟩
  obtain ⟨v, hv, hinf⟩ := List.any_eq_true.1 hd
  have hvalues : (Json.object d.variableValues).Readable :=
    Request.readable_variableValues (read_of_build hbuild)
  cases v with
  | float x => exact read_output_of_isInf hvalues hv hinf
  | _ => cases hinf

set_option maxRecDepth 20000 in
/-- A variable near the greatest double, in a diagram that was edited. -/
theorem output_read_iff_largeVariable :
    ∃ d d' : Diagram Rat,
      (build .precomputed (.standard Rat) (withVariable "[1e308]")).outcome = .ok d ∧
      d.patch "node-0" { label := .set "b" } = .ok d' ∧ ∃ r, Request.read d'.output = .ok r := by
  obtain ⟨d, d', hbuild, hfinite, hpatch⟩ := exists_build_withVariable "[1e308]"
    (p := fun r => (Json.object r.variableValues).isFinite) (by decide +kernel)
  refine ⟨d, d', hbuild, hpatch, ?_⟩
  refine (output_read_iff hbuild (Edited.refl.patch hpatch)).1.2 fun x hx => ?_
  exact (Double.hasSign_of_isFinite (List.all_eq_true.1 hfinite _ hx)).isInf

end Diagram

end QueryDiagram
