import QueryDiagram.Record
import QueryDiagram.Decimal.Numeral

/-!
# JSON values

Integers and doubles are kept apart, and the members of an object keep the order in which their
keys first appeared. Whether a value can be sent depends on its depth, on its texts and on whether
its doubles are finite.
-/

namespace QueryDiagram

/-- A JSON value; an object keeps its members in order. -/
inductive Json where
  | null
  | bool (b : Bool)
  | int (n : Int)
  | float (x : Float)
  | str (t : Text)
  | list (items : List Json)
  | object (members : List (Text × Json))

namespace Json

/-- Null, false, zero, and the empty string, list and object. -/
def isBlank : Json → Bool
  | null => true
  | bool b => !b
  | int n => n == 0
  | float x => x == 0
  | str t => t.isEmpty
  | list items => items.isEmpty
  | object members => members.isEmpty

mutual

/-- The value with null in place of every double that is not finite, for which JSON has no
literal. -/
def onlyFinite : Json → Json
  | float x => if x.isFinite then .float x else .null
  | list items => .list (onlyFiniteItems items)
  | object members => .object (onlyFiniteMembers members)
  | v => v

/-- The items with null for every double that is not finite. -/
def onlyFiniteItems : List Json → List Json
  | [] => []
  | v :: vs => v.onlyFinite :: onlyFiniteItems vs

/-- The members with null for every double that is not finite. -/
def onlyFiniteMembers : List (Text × Json) → List (Text × Json)
  | [] => []
  | (k, v) :: ms => (k, v.onlyFinite) :: onlyFiniteMembers ms

end

mutual

/-- The number of values on the longest way from the value to one that holds no other. -/
def depth : Json → Nat
  | list items => depthOfItems items + 1
  | object members => depthOfMembers members + 1
  | _ => 1

/-- The greatest depth of the items. -/
def depthOfItems : List Json → Nat
  | [] => 0
  | v :: vs => max v.depth (depthOfItems vs)

/-- The greatest depth of the members. -/
def depthOfMembers : List (Text × Json) → Nat
  | [] => 0
  | (_, v) :: ms => max v.depth (depthOfMembers ms)

end

mutual

/-- The value and all that it holds at any depth. -/
def subvalues : Json → List Json
  | list items => list items :: subvaluesOfItems items
  | object members => object members :: subvaluesOfMembers members
  | v => [v]

/-- The items and all values in them. -/
def subvaluesOfItems : List Json → List Json
  | [] => []
  | v :: vs => v.subvalues ++ subvaluesOfItems vs

/-- The values of members and all values in them. -/
def subvaluesOfMembers : List (Text × Json) → List Json
  | [] => []
  | (_, v) :: ms => v.subvalues ++ subvaluesOfMembers ms

end

/-- The texts of a value itself: a string, or the keys of an object. -/
def texts : Json → List Text
  | str t => [t]
  | object members => members.map Prod.fst
  | _ => []

/-- Whether all texts in the value are well formed. -/
def isWellFormed (v : Json) : Bool := v.subvalues.all fun w => w.texts.all Text.isWellFormed

/-- Whether all doubles in the value are finite. -/
def isFinite (v : Json) : Bool :=
  v.subvalues.all fun
    | float x => x.isFinite
    | _ => true

theorem depth_pos (v : Json) : 0 < v.depth := by
  cases v <;> simp [depth]

end Json

end QueryDiagram
