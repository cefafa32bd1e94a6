import QueryDiagram.Tree.Basic
import QueryDiagram.Argument
import QueryDiagram.Fragments

/-!
# The tree of a selection set

A level of the tree shows first all fields without selections of their own in one group, then the
fields with selections, then spreads and inline fragments, each of the three in source order.

A spread shows what its fragment selects. Inside a fragment a spread of the same fragment is not
expanded again, so the tree is finite whatever the fragments spread: with every expansion fewer
fragments are left to expand, and without one the selections get smaller.
-/

namespace QueryDiagram

open GraphQL

namespace Tree

variable {α : Type} [Scalar α]

/-! ## Single nodes -/

/-- The label of a spread that no definition answers. -/
def unknownLabel : Text := "Unknown Fragment"

/-- The label of a spread inside the fragment that it names. -/
def recursiveLabel : Text := "Recursive Fragment"

/-- The fields without selections of their own. -/
def leaves (selections : List Selection) : List Field :=
  selections.filterMap fun
    | .leaf f => some f
    | _ => none

/-- The arguments of those fields that have some, by response name. -/
def leafArguments : List Field → Except ConversionError (List (Text × Json))
  | [] => .ok []
  | f :: fs =>
    if f.arguments.isEmpty then leafArguments fs
    else do
      let arguments ← argumentRecord f.arguments
      return (f.responseName, .object arguments) :: (← leafArguments fs)

/-- The group of a level's leaves, if it has any. -/
def leafGroup (config : LayoutConfig α) (fields : List Field) :
    Except ConversionError (List (Tree α)) :=
  if fields.isEmpty then .ok []
  else do
    let arguments := Record.ofPairs (← leafArguments fields)
    let data : NodeData :=
      { name := "Fields"
        fieldType := some "fieldGroup"
        fields := some (fields.map Field.name)
        arguments := if arguments.isEmpty then none else some arguments }
    let width :=
      Scalar.larger config.minNodeWidth (Scalar.ofNat fields.length * config.fieldSlotWidth)
    return [.node { kind := .fieldGroup, data, width } []]

/-- A field above the tree of its own selections. -/
def fieldNode (config : LayoutConfig α) (field : Field) (arguments : Record Json)
    (children : List (Tree α)) : Tree α :=
  let data : NodeData :=
    { name := field.name, fieldType := some "field", arguments := some arguments }
  let width := Scalar.larger config.minNodeWidth (totalWidth config children)
  .node { kind := .field, data, width } children

/-- What a spread or an inline fragment shows as its name and kind. -/
def fragmentData (name : Text) : NodeData := { name, fieldType := some "fragment" }

/-- A spread or an inline fragment above the tree of what it selects. -/
def fragmentNode (config : LayoutConfig α) (name : Text) (children : List (Tree α)) : Tree α :=
  let width := Scalar.larger config.minNodeWidth (totalWidth config children)
  .node { kind := .fragment, data := fragmentData name, width } children

/-- A spread that shows a label in place of selections. -/
def closedSpread (config : LayoutConfig α) (name label : Text) : Tree α :=
  .node { kind := .fragment, data := fragmentData name, width := config.minNodeWidth,
          label := some label } []

/-- What the node of an inline fragment has as its name; there may be no type. -/
def inlineName : Option Text → Text
  | some condition => "... on " ++ condition
  | none => "..."

/-! ## Levels -/

mutual

/-- The row of trees of a selection set inside the fragments `expanding`. -/
def ofSelections (config : LayoutConfig α) (fragments : Fragments) (expanding : List Text)
    (selections : List Selection) : Logged ConversionError (List (Tree α)) := do
  let group ← Logged.ofExcept (leafGroup config (leaves selections))
  let fields ← ofNested config fragments expanding selections
  let spreads ← ofFragments config fragments expanding selections
  return group ++ fields ++ spreads
termination_by (fragments.unexpanded expanding, sizeOf selections, 1)

/-- The trees of the fields with selections. -/
def ofNested (config : LayoutConfig α) (fragments : Fragments) (expanding : List Text) :
    List Selection → Logged ConversionError (List (Tree α))
  | [] => return []
  | .nested field body :: rest => do
    let children ← ofSelections config fragments expanding body
    let arguments ← Logged.ofExcept (argumentRecord field.arguments)
    return fieldNode config field arguments children ::
      (← ofNested config fragments expanding rest)
  | _ :: rest => ofNested config fragments expanding rest
termination_by selections => (fragments.unexpanded expanding, sizeOf selections, 0)

/-- The trees of the spreads and inline fragments. -/
def ofFragments (config : LayoutConfig α) (fragments : Fragments) (expanding : List Text) :
    List Selection → Logged ConversionError (List (Tree α))
  | [] => return []
  | .spread name :: rest => do
    let tree ← ofSpread config fragments expanding name
    return tree :: (← ofFragments config fragments expanding rest)
  | .inline condition body :: rest => do
    let children ← ofSelections config fragments expanding body
    return fragmentNode config (inlineName condition) children ::
      (← ofFragments config fragments expanding rest)
  | _ :: rest => ofFragments config fragments expanding rest
termination_by selections => (fragments.unexpanded expanding, sizeOf selections, 0)

/-- The tree of a spread: that of its fragment, unless there is none or it is being expanded. -/
def ofSpread (config : LayoutConfig α) (fragments : Fragments) (expanding : List Text)
    (name : Text) : Logged ConversionError (Tree α) :=
  match _h : Record.get? fragments name with
  | none => do
    Logged.warn (.unknownSpread name)
    return closedSpread config name unknownLabel
  | some fragment =>
    if _hn : name ∈ expanding then do
      Logged.warn (.recursiveSpread name)
      return closedSpread config name recursiveLabel
    else do
      let children ← ofSelections config fragments (name :: expanding) fragment.body
      return fragmentNode config name children
termination_by (fragments.unexpanded expanding, 0, 0)
decreasing_by
  exact Prod.Lex.left _ _ (Fragments.unexpanded_cons_lt _h _hn)

end

end Tree

end QueryDiagram
