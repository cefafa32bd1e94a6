import QueryDiagram.Diagram.Node
import QueryDiagram.Proofs.Record

/-!
# Node data as objects

Each part of the data of a node stands under a key of its own, and is left out exactly if it is
unset (`NodeData.map_get?_toRecord`). So different data give different objects, also where one has
nothing and the other something empty in the same part (`NodeData.toRecord_lossless`).
-/

namespace QueryDiagram

namespace NodeData

/-- The keys of the parts. -/
def partKeys : List Text := ["name", "value", "arguments", "fieldType", "isRoot", "fields"]

/-- The parts as JSON, where they are set. -/
def parts (d : NodeData) : List (Option Json) :=
  [some (.str d.name), d.value, d.arguments.map .object, d.fieldType.map .str, d.isRoot.map .bool,
    d.fields.map fun fs => .list (fs.map .str)]

theorem get?_member {α : Type} (k key : Text) (toJson : α → Json) (o : Option α) :
    Record.get? (member k toJson o) key = if k = key then o.map toJson else none := by
  cases o with
  | none => simp [member, Record.get?]
  | some a => rfl

/-- What an object has under the keys of the parts is the parts. -/
theorem map_get?_toRecord (d : NodeData) : partKeys.map d.toRecord.get? = d.parts := by
  simp +decide only [partKeys, parts, toRecord, List.map_cons, List.map_nil, Record.get?_append,
    get?_member, if_true, if_false, Option.map_some, Option.none_or, Option.or_none]
  simp

/-- Data are equal if all their parts are. -/
theorem parts_injective : Function.Injective parts := by
  intro d e h
  have hlist : ∀ fs gs : List Text, Json.list (fs.map .str) = .list (gs.map .str) → fs = gs :=
    fun _ _ h => List.map_injective_iff.2 (fun _ _ => Json.str.inj) (Json.list.inj h)
  simp only [parts, List.cons.injEq, Option.some.injEq, Json.str.injEq, and_true,
    Option.map_inj_right fun _ _ => Json.object.inj, Option.map_inj_right fun _ _ => Json.str.inj,
    Option.map_inj_right fun _ _ => Json.bool.inj, Option.map_inj_right hlist] at h
  obtain ⟨hname, hvalue, harguments, hfieldType, hisRoot, hfields⟩ := h
  cases d
  cases e
  rw [NodeData.mk.injEq]
  exact ⟨hname, hvalue, harguments, hfieldType, hisRoot, hfields⟩

/-- The objects of two data have the same members, in whatever order. -/
def SameForm (d e : NodeData) : Prop := ∀ key, d.toRecord.get? key = e.toRecord.get? key

theorem sameForm_iff {d e : NodeData} : d.SameForm e ↔ d = e := by
  constructor
  · intro h
    apply parts_injective
    rw [← map_get?_toRecord, ← map_get?_toRecord, funext h]
  · rintro rfl key
    rfl

/-- No value, and the values that stand for nothing. -/
def emptyValues : List (Option Json) :=
  [none, some .null, some (.int 0), some (.float 0), some (.bool false), some (.str []),
    some (.list []), some (.object [])]

/-- Data whose objects have the same members are equal. In particular no value, null, zero, false
and the empty values are told apart, and so is a part that is unset from one that is empty. -/
theorem toRecord_lossless :
    (∀ d e : NodeData, d.SameForm e ↔ d = e) ∧
      ∀ d : NodeData,
        (emptyValues.Pairwise fun v w => ¬ { d with value := v }.SameForm { d with value := w }) ∧
          ¬ { d with arguments := none }.SameForm { d with arguments := some [] } ∧
          ¬ { d with fields := none }.SameForm { d with fields := some [] } ∧
          ¬ { d with isRoot := none }.SameForm { d with isRoot := some false } := by
  refine ⟨fun d e => sameForm_iff, fun d => ?_⟩
  simp [sameForm_iff, NodeData.mk.injEq, emptyValues]

end NodeData

end QueryDiagram
