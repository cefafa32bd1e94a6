import Mathlib
import QueryDiagram.Proofs.Diagram.Forest
import QueryDiagram.Proofs.Tree.Warnings

/-!
# Warnings and the picture

While fragments are collected, there is a warning for every fragment whose name is taken already
(`warnings_collect`), and while operations are drawn, the warnings of which the new nodes tell
(`filterMap_warning_of_drawAll`). So the diagram of a text shows all of its warnings
(`warnings_of_build`).
-/

namespace QueryDiagram

open GraphQL

/-! ## Repeated definitions -/

/-- The warnings for those of some fragments whose name is `taken` or is that of a fragment before
them. -/
def repeatedAmong (taken : List Text) : List Fragment → List Warning
  | [] => []
  | f :: fs =>
    (if taken.contains f.name then [.repeatedFragment f.name] else []) ++
      repeatedAmong (f.name :: taken) fs

namespace Fragments

theorem warnings_foldl_add {fs : List Fragment} {known : Fragments × List Warning}
    {taken : List Text} (h : ∀ name, name ∈ Record.keys known.1 ↔ name ∈ taken) :
    (fs.foldl add known).2 = known.2 ++ repeatedAmong taken fs := by
  induction fs generalizing known taken with
  | nil => simp [repeatedAmong]
  | cons f fs ih =>
    have hadd : (add known f).2 =
        known.2 ++ (if taken.contains f.name then [.repeatedFragment f.name] else []) := by
      simp only [add, Record.isSome_get?_iff, h, List.contains_iff_mem]
      split_ifs <;> simp
    have hkeys : ∀ name, name ∈ Record.keys (add known f).1 ↔ name ∈ f.name :: taken := by
      intro name
      rw [add, Record.mem_keys_insert, h, List.mem_cons]
    rw [List.foldl_cons, ih hkeys, hadd, repeatedAmong, List.append_assoc]

/-- Collecting fragments warns of every one whose name an earlier one has. -/
theorem warnings_collect {ε : Type} (d : Document) :
    (collect (ε := ε) d).warnings = repeatedAmong [] (definedIn d) := by
  have hstart : ∀ name : Text, name ∈ Record.keys ([] : Fragments) ↔ name ∈ ([] : List Text) := by
    simp [Record.keys]
  exact warnings_foldl_add hstart

/-- The fragments of a document that is read call their fields and spreads by names. -/
theorem namedBodies_collected {d : Document} (h : ∀ x ∈ d, x.Named) :
    Tree.NamedBodies (collected d) := by
  intro name fragment hf
  rw [get?_collected] at hf
  exact h _ (mem_of_last?_eq_some hf).1 _ rfl

end Fragments

/-! ## Sheets -/

variable {α : Type} [Scalar α]

theorem Sheet.warning?_rootOf (plan : Plan α) (serial : Nat) (o : Operation) :
    (rootOf plan serial o).warning? = none := by
  have hcolon : CodePoint.scalar ':' ∈ (rootOf plan serial o).label := by
    simp [rootOf, Text.ofString]
  exact spreadWarning?_of_mem hcolon (by decide) (by decide) _

theorem Variables.filterMap_warning_nodesFrom (plan : Plan α) (index : Nat)
    (values : Record Json) : (nodesFrom plan index values).filterMap Node.warning? = [] := by
  induction values generalizing index with
  | nil => rfl
  | cons p rest ih =>
    obtain ⟨name, value⟩ := p
    have hdollar : CodePoint.scalar '$' ∈ (nodeOf plan index name value).label := by
      simp [nodeOf, Text.ofString]
    have hnone : (nodeOf plan index name value).warning? = none :=
      spreadWarning?_of_mem hdollar (by decide) (by decide) _
    rw [nodesFrom, List.filterMap_cons_none hnone, ih]

namespace Sheet

variable {plan : Plan α} {fragments : Fragments} {s s' : Sheet α}

/-- The nodes that are drawn for an operation tell of the warnings that are given meanwhile. -/
theorem filterMap_warning_of_draw {o : Operation} (hf : Tree.NamedBodies fragments)
    (ho : Named o.body) (h : (draw plan fragments s o).outcome = .ok s') :
    s'.nodes.filterMap Node.warning? =
      s.nodes.filterMap Node.warning? ++ (draw plan fragments s o).warnings := by
  obtain ⟨row, hrow, rfl⟩ := outcome_draw_eq_ok_iff.1 h
  have hwarn : (draw plan fragments s o).warnings = Tree.toldOf row := by
    rw [draw, Logged.warnings_bind_of_ok hrow, Logged.warnings_pure, List.append_nil]
    exact Tree.tells_ofSelections plan.config hf [] ho row hrow
  rw [hwarn, withRow, List.filterMap_append, List.filterMap_cons_none (warning?_rootOf _ _ _),
    Tree.placeRow, Tree.filterMap_warning_placeFrom]

theorem filterMap_warning_of_drawAll {operations : List Operation}
    (hf : Tree.NamedBodies fragments) (ho : ∀ o ∈ operations, Named o.body)
    (h : (drawAll plan fragments s operations).outcome = .ok s') :
    s'.nodes.filterMap Node.warning? =
      s.nodes.filterMap Node.warning? ++ (drawAll plan fragments s operations).warnings := by
  induction operations generalizing s with
  | nil =>
    obtain rfl : s = s' := Except.ok.inj h
    exact (List.append_nil _).symm
  | cons o os ih =>
    obtain ⟨s₁, h₁, h₂⟩ := Logged.outcome_bind_eq_ok_iff.1 h
    have hfirst := filterMap_warning_of_draw hf (ho o List.mem_cons_self) h₁
    have hrest := ih (fun o' hm => ho o' (List.mem_cons_of_mem _ hm)) h₂
    rw [hrest, hfirst, drawAll, Logged.warnings_bind_of_ok h₁, List.append_assoc]

end Sheet

/-! ## The result -/

/-- The definitions of a request call their fields and spreads by names. -/
theorem Request.Normal.named {r : Request} (h : r.Normal) : ∀ x ∈ r.document, x.Named := by
  have hd := h.document
  unfold documentOf at hd
  split at hd
  · obtain rfl := Except.ok.inj hd
    exact named_of_parse ‹_›
  · cases hd

namespace Diagram

variable {mode : LayoutMode} {config : LayoutConfig α} {text : Text} {d : Diagram α}

/-- The warnings of a diagram's trees are those for repeated fragments, and then those of which
its nodes tell. -/
theorem warnings_sheet {plan : Plan α} {document : Document} {s : Sheet α}
    (hd : ∀ x ∈ document, x.Named) (h : (sheet plan document).outcome = .ok s) :
    (sheet plan document).warnings =
      repeatedAmong [] (Fragments.definedIn document) ++ s.nodes.filterMap Node.warning? := by
  have hf := Fragments.namedBodies_collected hd
  have ho : ∀ o ∈ operationsOf document, Named o.body := by
    intro o hm
    obtain ⟨x, hx, he⟩ := List.mem_filterMap.1 hm
    cases x <;> simp only [Option.some.injEq, reduceCtorEq] at he
    obtain rfl := he
    exact hd _ hx _ rfl
  have hcollect := Fragments.outcome_collect (ε := ConversionError) document
  have hdraw : (Sheet.drawAll plan (Fragments.collected document) .empty
      (operationsOf document)).outcome = .ok s := by
    obtain ⟨fragments, hc, hdraw⟩ := outcome_sheet_eq_ok_iff.1 h
    obtain rfl := Except.ok.inj (hcollect.symm.trans hc)
    exact hdraw
  have hnodes := Sheet.filterMap_warning_of_drawAll hf ho hdraw
  rw [sheet, Logged.warnings_bind_of_ok hcollect, Fragments.warnings_collect, hnodes]
  rfl

/-- The warnings of a text that has a diagram: first one for every fragment whose name an earlier
one of the document has, in the order of the document, then one for every node that shows a spread
which is not expanded, in the order of the nodes. -/
theorem warnings_of_build (h : (build mode config text).outcome = .ok d) :
    Request.read text = .ok ⟨d.query, d.document, d.operationName, d.variableValues⟩ ∧
      (build mode config text).warnings =
        repeatedAmong [] (Fragments.definedIn d.document) ++ d.nodes.filterMap Node.warning? := by
  refine ⟨read_of_build h, ?_⟩
  obtain ⟨r, s, hr, hs, rfl⟩ := outcome_build_eq_ok_iff.1 h
  have hnodes : (ofSheet mode config r s).nodes.filterMap Node.warning? =
      s.nodes.filterMap Node.warning? := by
    rw [ofSheet, List.filterMap_append, Variables.nodes, Variables.filterMap_warning_nodesFrom,
      List.append_nil]
  have hwarn : (build mode config text).warnings =
      (sheet { config, mode } r.document).warnings := by
    rw [build, hr]
    exact Logged.warnings_map (ofSheet mode config r) (sheet { config, mode } r.document)
  rw [hwarn, hnodes]
  exact warnings_sheet (Request.normal_of_read hr).named hs

/-- A fragment that is defined twice and spreads itself the second time, and one that is not
defined. -/
def warnedSpreads : Text :=
  ("\x7b\"query\": \"\x7b...F ...G x \x7b...F\x7d\x7d " : Text) ++
    "fragment F on T \x7ba\x7d fragment F on T \x7bb ...F\x7d\"\x7d"

set_option maxRecDepth 20000 in
theorem warnings_of_build_warnedSpreads :
    ∃ d : Diagram Rat, (build .precomputed (.standard Rat) warnedSpreads).outcome = .ok d ∧
      (build .precomputed (.standard Rat) warnedSpreads).warnings =
        repeatedAmong [] (Fragments.definedIn d.document) ++ d.nodes.filterMap Node.warning? ∧
      (build .precomputed (.standard Rat) warnedSpreads).warnings =
        [.repeatedFragment "F", .recursiveSpread "F", .recursiveSpread "F",
          .unknownSpread "G"] := by
  obtain ⟨d, h⟩ : ∃ d : Diagram Rat,
      (build .precomputed (.standard Rat) warnedSpreads).outcome = .ok d := ⟨_, by cbv⟩
  exact ⟨d, h, (warnings_of_build h).2, by cbv⟩

end Diagram

end QueryDiagram
