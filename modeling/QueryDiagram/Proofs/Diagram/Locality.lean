import QueryDiagram.Proofs.Diagram.Blocks
import QueryDiagram.Proofs.Tree.Renumbering
import QueryDiagram.Proofs.Tree.Spreads

/-!
# Operations apart from their document

A document may be cut down to one of its operations and the fragments that this one reaches, each
in its last definition (`Isolates`). What the operation gives in the whole document is what it
gives in such a cut, from another number on (`Diagram.block_lowers_isolated`): other operations,
fragments that it does not reach, definitions that are overridden and the order of definitions
count for nothing.
-/

namespace QueryDiagram

open GraphQL

/-! ## Documents cut down -/

/-- The second document holds an operation and, in any order, the last definitions that the first
one has of the fragments reached from it. -/
structure Isolates (d : Document) (o : Operation) (d' : Document) : Prop where
  operations : operationsOf d' = [o]
  fragments : ∀ f, .fragment f ∈ d' ↔
    Reaches (Fragments.last? d) o.body f.name ∧ Fragments.last? d f.name = some f

theorem exists_isolates (d : Document) (o : Operation) : ∃ d', Isolates d o d' := by
  classical
  refine ⟨.operation o :: ((Fragments.definedIn d).filter fun f =>
    Reaches (Fragments.last? d) o.body f.name ∧ Fragments.last? d f.name = some f).map .fragment,
    ?_, fun f => ?_⟩
  · simp [operationsOf, List.filterMap_map]
  · simp only [List.mem_cons, List.mem_map, List.mem_filter, reduceCtorEq, false_or,
      Definition.fragment.injEq, exists_eq_right, decide_eq_true_eq, and_iff_right_iff_imp]
    exact fun h => Fragments.mem_definedIn.2 (Fragments.mem_of_last?_eq_some h.2).1

namespace Isolates

variable {d d' : Document} {o : Operation}

theorem last?_eq (h : Isolates d o d') {name : Text}
    (hr : Reaches (Fragments.last? d) o.body name) :
    Fragments.last? d' name = Fragments.last? d name := by
  cases hg : Fragments.last? d' name with
  | some g =>
    obtain ⟨hm, rfl⟩ := Fragments.mem_of_last?_eq_some hg
    exact ((h.fragments g).1 hm).2.symm
  | none =>
    cases hf : Fragments.last? d name with
    | none => rfl
    | some f =>
      -- the last definition is among those of the cut, so the cut defines the name
      obtain ⟨-, rfl⟩ := Fragments.mem_of_last?_eq_some hf
      have hm := Fragments.mem_definedIn.2 ((h.fragments f).2 ⟨hr, hf⟩)
      have hnone := List.filter_eq_nil_iff.1 (List.getLast?_eq_none_iff.1 hg) f hm
      simp at hnone

theorem agreeOn (h : Isolates d o d') :
    Tree.AgreeOn (Fragments.collected d) (Fragments.collected d') o.body [] [] where
  fragment name hr := by
    rw [Fragments.get?_collected] at hr
    rw [Fragments.get?_collected, Fragments.get?_collected, h.last?_eq hr]
  expanding := by simp

end Isolates

variable {α : Type} [Scalar α]

/-! ## Sheets -/

namespace Sheet

variable (plan : Plan α) (o : Operation) (row : List (Tree α)) (serial : Nat)

theorem lowers_rootOf : (rootOf plan serial o).Lowers serial (rootOf plan 0 o) := by
  have hid := plan.lowers_idOf serial 0
  rw [Nat.zero_add] at hid
  exact ⟨hid, rfl⟩

theorem lowers_row : (Tree.placeRow plan (some (rootOf plan serial o).id)
      (rootOf plan serial o).position.x plan.config.treeStartY (serial + 1) row).Lowers serial
    (Tree.placeRow plan (some (rootOf plan 0 o).id) (rootOf plan 0 o).position.x
      plan.config.treeStartY 1 row) := by
  rw [Nat.add_comm serial 1]
  exact Tree.lowers_placeFrom plan _ _ _ _ (lowers_rootOf plan o serial).id row

theorem lowers_nodes_blockAt : List.Forall₂ (Node.Lowers serial) (blockAt plan serial o row).nodes
    (blockAt plan 0 o row).nodes :=
  .cons (lowers_rootOf plan o serial) (lowers_row plan o row serial).nodes

theorem lowers_edges_blockAt : List.Forall₂ (Edge.Lowers serial) (blockAt plan serial o row).edges
    (blockAt plan 0 o row).edges :=
  (lowers_row plan o row serial).edges

end Sheet

/-! ## Diagrams -/

namespace Diagram

variable {mode : LayoutMode} {config : LayoutConfig α}

/-- On a cut to an operation only its trees are drawn, with the numbers from 0 on. -/
theorem outcome_sheet_of_isolates {plan : Plan α} {document document' : Document} {o : Operation}
    {row : List (Tree α)} (h : Isolates document o document')
    (hrow : (Tree.ofSelections plan.config (Fragments.collected document) [] o.body).outcome =
      .ok row) :
    (sheet plan document').outcome = .ok (Sheet.blockAt plan 0 o row) := by
  rw [Tree.ofSelections_congr h.agreeOn] at hrow
  refine outcome_sheet_eq_ok_iff.2 ⟨_, Fragments.outcome_collect document', ?_⟩
  rw [h.operations, Sheet.drawAll, Logged.outcome_bind_eq_ok_iff]
  exact ⟨_, Sheet.outcome_draw_eq_ok_iff.2 ⟨row, hrow, rfl⟩, rfl⟩

/-- The nodes of an operation stand together, and so do its edges. They are those of any cut of
the document to the operation, numbered on from the nodes before them. -/
theorem block_lowers_isolated {r : Request} {d : Diagram α}
    (h : (ofRequest mode config r).outcome = .ok d) {k : Nat} {o : Operation}
    (ho : (operationsOf r.document)[k]? = some o) :
    ∃ block, d.blocks[k]? = some block ∧ block <:+: d.nodes ∧
      edgesInto d.edges block <:+: d.edges ∧ (∃ document, Isolates r.document o document) ∧
      ∀ r' : Request, Isolates r.document o r'.document →
        ∃ d', (ofRequest mode config r').outcome = .ok d' ∧
          List.Forall₂ (Node.Lowers (d.blocks.take k).flatten.length) block d'.treeNodes ∧
          List.Forall₂ (Edge.Lowers (d.blocks.take k).flatten.length) (edgesInto d.edges block)
            d'.edges := by
  rw [ofRequest_eq, Logged.outcome_map] at h
  cases hs : (sheet { config, mode } r.document).outcome with
  | error e => simp [hs, Except.map] at h
  | ok s =>
    obtain rfl : ofSheet mode config r s = d := Except.ok.inj (by rw [← h, hs]; rfl)
    obtain ⟨fragments, hf, hdraw⟩ := outcome_sheet_eq_ok_iff.1 hs
    obtain rfl := Except.ok.inj ((Fragments.outcome_collect r.document).symm.trans hf)
    have htrees := treeNodes_ofSheet (r := r) (Sheet.grown_of_drawAll hdraw)
    obtain ⟨before, after, hops, rfl⟩ : ∃ before after,
        operationsOf r.document = before ++ o :: after ∧ before.length = k := by
      obtain ⟨hk, rfl⟩ := List.getElem?_eq_some_iff.1 ho
      exact ⟨_, _, (List.take_append_drop k _).symm.trans (by rw [List.drop_eq_getElem_cons hk]),
        List.length_take_of_le hk.le⟩
    rw [hops] at hdraw
    obtain ⟨row, block, hrow, hblock, hk, hinto, hnodes, hedges⟩ := Sheet.block_of_drawAll hdraw
    have hblocks : (ofSheet mode config r s).blocks = cutAtRoots s.nodes := by rw [blocks, htrees]
    have hinto : edgesInto (ofSheet mode config r s).edges block.nodes = block.edges := hinto
    rw [hblocks]
    refine ⟨block.nodes, hk, hnodes.trans (List.prefix_append _ _).isInfix, by rwa [hinto],
      exists_isolates _ _, fun r' hr' => ?_⟩
    have hs' := outcome_sheet_of_isolates hr' hrow
    obtain ⟨fragments', -, hdraw'⟩ := outcome_sheet_eq_ok_iff.1 hs'
    refine ⟨ofSheet mode config r' (Sheet.blockAt { config, mode } 0 o row), ?_, ?_, ?_⟩
    · rw [ofRequest_eq, Logged.outcome_map, hs']
      rfl
    · rw [treeNodes_ofSheet (Sheet.grown_of_drawAll hdraw'), hblock]
      exact Sheet.lowers_nodes_blockAt _ _ _ _
    · rw [hinto, hblock]
      exact Sheet.lowers_edges_blockAt _ _ _ _

/-- What the second operation of `overriddenDocument` selects. -/
def overriddenBody : List Selection := [.nested ⟨none, "x", []⟩ [.spread "F"]]

/-- The last definition of `F` in `overriddenDocument`, which `G` leads back to. -/
def fragmentF : Fragment := ⟨"F", "T", [.leaf ⟨none, "y", []⟩, .inline none [.spread "G"]]⟩

/-- The definition of `G`, which spreads `F` and a fragment that is not defined. -/
def fragmentG : Fragment := ⟨"G", "T", [.spread "F", .spread "H"]⟩

/-- Two operations among fragments, of which one is overridden and one is not reached from the
second operation. -/
def overriddenDocument : Document :=
  [.fragment fragmentG, .fragment ⟨"F", "T", [.leaf ⟨none, "z", []⟩]⟩,
    .operation ⟨.query, some "A", [.spread "U", .leaf ⟨none, "w", []⟩]⟩, .fragment fragmentF,
    .operation ⟨.mutation, none, overriddenBody⟩, .fragment ⟨"U", "T", [.leaf ⟨none, "v", []⟩]⟩]

theorem isolates_overriddenDocument :
    Isolates overriddenDocument ⟨.mutation, none, overriddenBody⟩
      [.fragment fragmentF, .operation ⟨.mutation, none, overriddenBody⟩, .fragment fragmentG] where
  operations := rfl
  fragments f := by
    have hF : Fragments.last? overriddenDocument "F" = some fragmentF := rfl
    have hG : Fragments.last? overriddenDocument "G" = some fragmentG := rfl
    have hH : Fragments.last? overriddenDocument "H" = none := rfl
    have hrF : Reaches (Fragments.last? overriddenDocument) overriddenBody "F" :=
      .spread (by decide)
    constructor
    · intro h
      simp only [List.mem_cons, List.not_mem_nil, or_false, reduceCtorEq, false_or,
        Definition.fragment.injEq] at h
      rcases h with rfl | rfl
      · exact ⟨hrF, hF⟩
      · exact ⟨hrF.through hF (by decide), hG⟩
    · rintro ⟨hr, hf⟩
      have hn : f.name ∈ (["F", "G", "H"] : List Text) := by
        refine hr.preserves (motive := (· ∈ (["F", "G", "H"] : List Text))) (by decide) ?_
        intro inner fragment hi hfrag
        simp only [List.mem_cons, List.not_mem_nil, or_false] at hi
        rcases hi with rfl | rfl | rfl
        · obtain rfl := Option.some.inj (hF.symm.trans hfrag)
          decide
        · obtain rfl := Option.some.inj (hG.symm.trans hfrag)
          decide
        · cases hH.symm.trans hfrag
      simp only [List.mem_cons, List.not_mem_nil, or_false] at hn
      rcases hn with hn | hn | hn <;> rw [hn] at hf
      · obtain rfl := Option.some.inj (hF.symm.trans hf)
        simp
      · obtain rfl := Option.some.inj (hG.symm.trans hf)
        simp
      · cases hH.symm.trans hf

/-- The second operation of `overriddenDocument` gives what it gives beside the fragments `F` and
`G` alone. -/
theorem block_lowers_isolated_overriddenDocument :
    ∃ d d' : Diagram Rat,
      (ofRequest .precomputed (.standard Rat) ⟨[], overriddenDocument, none, []⟩).outcome = .ok d ∧
      (ofRequest .precomputed (.standard Rat) ⟨[],
        [.fragment fragmentF, .operation ⟨.mutation, none, overriddenBody⟩, .fragment fragmentG],
        none, []⟩).outcome = .ok d' ∧
      ∃ block, d.blocks[1]? = some block ∧
        List.Forall₂ (Node.Lowers (d.blocks.take 1).flatten.length) block d'.treeNodes := by
  obtain ⟨d, hd⟩ : ∃ d : Diagram Rat,
      (ofRequest .precomputed (.standard Rat) ⟨[], overriddenDocument, none, []⟩).outcome =
        .ok d := ⟨_, by cbv⟩
  obtain ⟨block, hb, -, -, -, h⟩ := block_lowers_isolated hd (k := 1) rfl
  obtain ⟨d', hd', hn, -⟩ := h ⟨[], _, none, []⟩ isolates_overriddenDocument
  exact ⟨d, d', hd, hd', block, hb, hn⟩

end Diagram

end QueryDiagram
