import QueryDiagram.Proofs.Diagram.Forest
import QueryDiagram.Proofs.Json.RoundTrip

/-!
# The output of a diagram

The output of a diagram is the text of its request. It is read as this request (`read_output`), so
the diagram of the output is the diagram itself; edits change neither (`build_output`).
-/

namespace QueryDiagram

theorem Request.standard_variableValues {t : Text} {r : Request} (h : read t = .ok r)
    (hx : ∀ x, .float x ∈ (Json.object r.variableValues).subvalues → x.isInf = false) :
    (Json.object r.variableValues).Standard := by
  obtain hv | ⟨members, hm, hmem⟩ := variableValues_eq_or_mem h
  · rw [hv]
    exact Json.everywhere_object List.nodup_nil (by simp)
  · have hs := (Json.isStandard_of_read hm).of_mem_members hmem
    exact fun w hw => hs w hw fun x e => hx x (e ▸ hw)

namespace Diagram

variable {α : Type} {d d' : Diagram α}

/-- The request that a diagram gives back. -/
def request (d : Diagram α) : Request := ⟨d.query, d.document, d.operationName, d.variableValues⟩

theorem request_of_frame_eq (h : d'.frame = d.frame) : d'.request = d.request :=
  show d'.frame.request = d.frame.request from congrArg request h

theorem output_of_frame_eq (h : d'.frame = d.frame) : d'.output = d.output :=
  show d'.frame.output = d.frame.output from congrArg output h

theorem nodup_keys_projection (d : Diagram α) : (Record.keys d.projection).Nodup := by
  change ([("operationName" : Text), "variables", "query"]).Nodup
  decide

/-- What holds of the variables, of objects with distinct keys, of texts and of null holds
everywhere in the request. -/
theorem everywhere_projection {p : Json → Prop} (hv : (Json.object d.variableValues).Everywhere p)
    (hobject : ∀ members, (Record.keys members).Nodup → p (.object members))
    (hstr : ∀ t, p (.str t)) (hnull : p .null) : (Json.object d.projection).Everywhere p := by
  refine Json.everywhere_object (hobject _ (nodup_keys_projection d)) fun m hm => ?_
  simp only [projection, List.mem_cons, List.not_mem_nil, or_false] at hm
  rcases hm with rfl | rfl | rfl
  · cases d.operationName with
    | none => exact Json.everywhere_of_isAtom rfl hnull
    | some t => exact Json.everywhere_of_isAtom rfl (hstr t)
  · exact hv
  · exact Json.everywhere_of_isAtom rfl (hstr _)

theorem standard_projection (hv : (Json.object d.variableValues).Standard) :
    (Json.object d.projection).Standard :=
  everywhere_projection hv (fun _ hk => hk) (fun _ => trivial) trivial

/-- The output of a diagram is read as the request that it gives back. -/
theorem read_output (hr : d.request.Normal) (hv : (Json.object d.variableValues).Standard) :
    Request.read d.output = .ok d.request := by
  refine Request.read_eq_ok_iff.2 ⟨d.projection, ?_, ?_, ?_, hr.document, ?_⟩
  · exact Request.readObject_eq_ok_iff.2 (Json.read_write (standard_projection hv))
  · exact Request.queryText_eq_ok_iff.2 ⟨rfl, hr.query⟩
  · rfl
  · exact Request.operationNameOf_output hr.operationName

variable [Scalar α] {mode : LayoutMode} {config : LayoutConfig α} {text : Text}

/-- The output of a diagram, however it was edited, is read as the request of the text that the
diagram was built of, and gives the diagram again as it was before the edits. -/
theorem build_output (h : (build mode config text).outcome = .ok d) (he : Edited d d')
    (hx : ∀ x, .float x ∈ (Json.object d.variableValues).subvalues → x.isInf = false) :
    Request.read d'.output = .ok d'.request ∧ d'.request = d.request ∧
      Request.read text = .ok d.request ∧
      build mode config d'.output = build mode config text ∧ d'.output = d.output := by
  have hread : Request.read text = .ok d.request := read_of_build h
  have hframe := he.frame_eq (isForest_of_build h).nodup_ids
  have houtput := output_of_frame_eq hframe
  have hback : Request.read d'.output = .ok d.request := by
    rw [houtput]
    exact read_output (Request.normal_of_read hread) (Request.standard_variableValues hread hx)
  refine ⟨?_, request_of_frame_eq hframe, hread, ?_, houtput⟩
  · rw [request_of_frame_eq hframe]
    exact hback
  · rw [build, build, hback, hread]

/-- A number that is no integer, and a text with a line break and a character beyond the first
plane. -/
def escapedVariables : Text :=
  ("\x7b\"query\": \"query A \x7ba\x7d\", \"variables\": " : Text) ++
    "\x7b\"v\": [-2.50e1, 7], \"s\": \"\\n\\ud83d\\ude00\"\x7d\x7d"

set_option maxRecDepth 20000 in
theorem read_escapedVariables :
    ∃ r, Request.read escapedVariables = .ok r ∧ r.query = "query A \x7ba\x7d" ∧
      (Json.object r.variableValues).isFinite := by
  have hread : ((Request.read escapedVariables).toOption.map fun r =>
      (r.query, (Json.object r.variableValues).isFinite)) =
        some (("query A \x7ba\x7d" : Text), true) := by decide +kernel
  obtain ⟨r, hr, he⟩ := Option.map_eq_some_iff.1 hread
  refine ⟨r, ?_, Prod.mk.inj he⟩
  cases h : Request.read escapedVariables <;> simp_all [Except.toOption]

set_option maxRecDepth 20000 in
theorem build_output_escapedVariables :
    ∃ d d' : Diagram Rat, (build .precomputed (.standard Rat) escapedVariables).outcome = .ok d ∧
      d.patch "node-1" { label := .set "b" } = .ok d' ∧
      Request.read d'.output = .ok d'.request ∧
      build .precomputed (.standard Rat) d'.output =
        build .precomputed (.standard Rat) escapedVariables := by
  obtain ⟨r, hr, hquery, hfinite⟩ := read_escapedVariables
  have hdocument := (Request.normal_of_read hr).document
  rw [hquery] at hdocument
  obtain ⟨document, s, n, hd, hs, hn⟩ : ∃ document s n,
      Request.documentOf "query A \x7ba\x7d" = .ok document ∧
        (sheet { config := .standard Rat, mode := .precomputed } document).outcome = .ok s ∧
        s.nodes.find? (fun n => n.id = ("node-1" : Text)) = some n :=
    ⟨_, _, _, by cbv, by cbv, by cbv⟩
  obtain rfl := Except.ok.inj (hd.symm.trans hdocument)
  have hbuild := outcome_build_eq_ok_iff.2 ⟨r, s, hr, hs, rfl⟩
  obtain ⟨d', hpatch⟩ : ∃ d', (ofSheet .precomputed (.standard Rat) r s).patch "node-1"
      { label := .set "b" } = .ok d' := by
    refine ⟨_, patch_eq_ok_iff.2 ⟨rfl, n, ?_, rfl⟩⟩
    rw [node?, ofSheet, List.find?_append, hn]
    rfl
  obtain ⟨hback, -, -, hagain, -⟩ := build_output hbuild (Edited.refl.patch hpatch) fun x hx =>
    (Double.hasSign_of_isFinite (List.all_eq_true.1 hfinite _ hx)).isInf
  exact ⟨_, d', hbuild, hpatch, hback, hagain⟩

end Diagram

end QueryDiagram
