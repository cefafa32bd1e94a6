import QueryDiagram.Proofs.Argument
import QueryDiagram.Proofs.Decimal.Numeral
import QueryDiagram.Proofs.Json.Reading

/-!
# What a literal shows

A literal shows one JSON value at most (`Shows.unique`): a list shows the values of its items in
their order, an object shows every name once, where it first stands, with the value that stands
last. Arguments that are converted show their record (`shows_of_argumentRecord`), whatever the
repeated names in them.
-/

namespace QueryDiagram

open GraphQL

/-! ## Integers -/

/-- The digits of a written integer, without its sign. -/
def digitsOf : Text → Text
  | .scalar '-' :: digits => digits
  | digits => digits

/-- The integer that a spelling writes. -/
def integerOf (spelling : Text) : Int :=
  let magnitude : Int := (digitsOf spelling).digitsValue
  if spelling.head? = some (.scalar '-') then -magnitude else magnitude

/-- The spelling of an integer in a document: a zero alone or digits that do not begin with one,
perhaps after a minus sign. -/
structure IsInteger (spelling : Text) : Prop where
  isDigits : (digitsOf spelling).IsDigits
  ne_nil : digitsOf spelling ≠ []
  head : digitsOf spelling = [.scalar '0'] ∨ (digitsOf spelling).head? ≠ some (.scalar '0')

instance (spelling : Text) : Decidable (IsInteger spelling) :=
  decidable_of_iff ((digitsOf spelling).IsDigits ∧ digitsOf spelling ≠ [] ∧
      (digitsOf spelling = [.scalar '0'] ∨ (digitsOf spelling).head? ≠ some (.scalar '0')))
    ⟨fun ⟨hd, hne, hh⟩ => ⟨hd, hne, hh⟩, fun ⟨hd, hne, hh⟩ => ⟨hd, hne, hh⟩⟩

section IsInteger

variable {spelling : Text} (h : IsInteger spelling)
include h

/-- The reader takes the spelling as a whole. -/
theorem IsInteger.numeralOf_eq :
    numeralOf spelling =
      ⟨decide (spelling.head? = some (.scalar '-')), digitsOf spelling, none, none⟩ := by
  have hwhole : Numeral.whole? (digitsOf spelling) = some (digitsOf spelling, []) := by
    have happend : Numeral.whole? (digitsOf spelling ++ []) = some (digitsOf spelling, []) :=
      Numeral.whole?_append h.isDigits h.ne_nil h.head nofun
    rwa [List.append_nil] at happend
  obtain ⟨hplain, hsigned⟩ := Numeral.read?_of_parts hwhole
    (Numeral.fraction?_of_ends nofun) (Numeral.exponent?_of_ends nofun)
  by_cases hsign : spelling.head? = some (.scalar '-')
  · obtain ⟨digits, rfl⟩ : ∃ digits, spelling = .scalar '-' :: digits :=
      List.head?_eq_some_iff.1 hsign
    have hread : Numeral.read? (.scalar '-' :: digits) = some (⟨true, digits, none, none⟩, []) :=
      hsigned
    rw [numeralOf, hread]
    rfl
  · have hdigits : digitsOf spelling = spelling := by
      unfold digitsOf
      split
      · exact absurd rfl hsign
      · rfl
    rw [hdigits] at hplain ⊢
    rw [numeralOf, hplain, decide_eq_false hsign]

theorem IsInteger.digitCount_eq : digitCount spelling = (digitsOf spelling).length := by
  rw [digitCount, h.numeralOf_eq]

theorem IsInteger.toInt_eq : (numeralOf spelling).toInt = integerOf spelling := by
  rw [h.numeralOf_eq]
  by_cases hsign : spelling.head? = some (.scalar '-') <;> simp [Numeral.toInt, integerOf, hsign]

end IsInteger

/-! ## Induction over literals -/

/-- What holds of a list or of an object if it holds of all that is in it, and holds of all other
literals, holds of every literal. -/
@[elab_as_elim]
theorem GraphQL.Literal.induction {motive : Literal → Prop}
    (int : ∀ spelling, motive (.int spelling)) (float : ∀ spelling, motive (.float spelling))
    (string : ∀ value, motive (.string value)) (boolean : ∀ b, motive (.boolean b))
    (null : motive .null) (enum : ∀ name, motive (.enum name))
    (list : ∀ items : List Literal, (∀ l ∈ items, motive l) → motive (.list items))
    (object : ∀ fields : List (Text × Literal), (∀ p ∈ fields, motive p.2) →
      motive (.object fields))
    (variableRef : ∀ name, motive (.variableRef name)) (l : Literal) : motive l :=
  @Literal.rec motive (fun items => ∀ l ∈ items, motive l) (fun fields => ∀ p ∈ fields, motive p.2)
    (fun p => motive p.2) int float string boolean null enum list object variableRef
    nofun (fun _ _ hl hls => List.forall_mem_cons.2 ⟨hl, hls⟩)
    nofun (fun _ _ hp hps => List.forall_mem_cons.2 ⟨hp, hps⟩) (fun _ _ hl => hl) l

/-! ## Values that are shown -/

/-- The JSON value that a literal shows: for a list the values of its items one by one, and for an
object each name once, where it first stands, with what its last field shows. -/
inductive Shows : Literal → Json → Prop
  | int (spelling : Text) : Shows (.int spelling) (.int (integerOf spelling))
  | float (spelling : Text) : Shows (.float spelling) (.float (numeralOf spelling).toFloat)
  | string (value : Text) : Shows (.string value) (.str value)
  | boolean (b : Bool) : Shows (.boolean b) (.bool b)
  | null : Shows .null .null
  | enum (name : Text) : Shows (.enum name) (.str name)
  | variableRef (name : Text) : Shows (.variableRef name) (.str ("$" ++ name))
  | list {items : List Literal} {values : List Json} (h : List.Forall₂ Shows items values) :
      Shows (.list items) (.list values)
  | object {fields : List (Text × Literal)} {members : Record Json}
      (names : members.keys = (fields.map Prod.fst).eraseDups)
      (values : ∀ name, Option.Rel Shows (Record.last? fields name) (members.get? name)) :
      Shows (.object fields) (.object members)

/-- A literal shows one value at most. -/
theorem Shows.unique {l : Literal} : ∀ v w, Shows l v → Shows l w → v = w := by
  induction l using Literal.induction with
  | list items ih =>
    intro _ _ hv hw
    cases hv with
    | list hv =>
      cases hw with
      | list hw => rw [eq_of_forall₂ ih hv hw]
  | object fields ih =>
    intro _ _ hv hw
    cases hv with
    | object hvn hv =>
      cases hw with
      | object hwn hw =>
        have hnodup := Record.nodup_keys_ofPairs fields
        rw [Record.keys_ofPairs, ← hvn] at hnodup
        rw [Record.ext_get? hnodup (hvn.trans hwn.symm) fun name => ?_]
        exact eq_of_rel (fun l hl => ih _ (Record.mem_of_last?_eq_some hl)) (hv name) (hw name)
  | _ =>
    rintro _ _ ⟨⟩ ⟨⟩
    rfl

/-! ## Conversions -/

theorem mem_integersOfItems {items : List Literal} {spelling : Text} :
    spelling ∈ integersOfItems items ↔ ∃ l ∈ items, spelling ∈ l.integers := by
  induction items with
  | nil => simp [integersOfItems]
  | cons l ls ih => simp [integersOfItems, ih]

theorem mem_integersOfFields {fields : List (Text × Literal)} {spelling : Text} :
    spelling ∈ integersOfFields fields ↔ ∃ p ∈ fields, spelling ∈ p.2.integers := by
  induction fields with
  | nil => simp [integersOfFields]
  | cons p fs ih => simp [integersOfFields, ih]

namespace ArgumentValue

theorem itemsToJson_eq_map (values : List ArgumentValue) :
    itemsToJson values = values.map toJson := by
  induction values with
  | nil => rfl
  | cons v vs ih => rw [itemsToJson, ih, List.map_cons]

theorem fieldsToJson_eq_map (fields : List (Text × ArgumentValue)) :
    fieldsToJson fields = fields.map (Prod.map id toJson) := by
  induction fields with
  | nil => rfl
  | cons p fs ih => rw [fieldsToJson, ih, List.map_cons, Prod.map_apply', id]

theorem forall₂_of_ofItems {items : List Literal} {values : List ArgumentValue}
    (h : ofItems items = .ok values) :
    List.Forall₂ (fun l v => ofLiteral l = .ok v) items values := by
  induction items generalizing values with
  | nil =>
    obtain rfl := Except.ok.inj h
    exact .nil
  | cons l ls ih =>
    rw [ofItems] at h
    obtain ⟨v, hv, h⟩ := bind_eq_ok_iff.1 h
    obtain ⟨vs, hvs, h⟩ := bind_eq_ok_iff.1 h
    obtain rfl := Except.ok.inj h
    exact .cons hv (ih hvs)

theorem forall₂_of_ofFields {fields : List (Text × Literal)} {values : List (Text × ArgumentValue)}
    (h : ofFields fields = .ok values) :
    List.Forall₂ (fun p q => q.1 = p.1 ∧ ofLiteral p.2 = .ok q.2) fields values := by
  induction fields generalizing values with
  | nil =>
    obtain rfl := Except.ok.inj h
    exact .nil
  | cons p fs ih =>
    rw [ofFields] at h
    obtain ⟨v, hv, h⟩ := bind_eq_ok_iff.1 h
    obtain ⟨vs, hvs, h⟩ := bind_eq_ok_iff.1 h
    obtain rfl := Except.ok.inj h
    exact .cons ⟨rfl, hv⟩ (ih hvs)

/-- Fields show the record of their values if each of them shows its own. -/
theorem shows_of_ofFields {fields : List (Text × Literal)} {values : List (Text × ArgumentValue)}
    (hshows : ∀ p ∈ fields, ∀ v, ofLiteral p.2 = .ok v → Shows p.2 v.toJson)
    (h : ofFields fields = .ok values) :
    Shows (.object fields) (.object (Record.ofPairs (fieldsToJson values))) := by
  have hpairs : List.Forall₂ (fun p q => q.1 = p.1 ∧ Shows p.2 q.2) fields
      (fieldsToJson values) := by
    rw [fieldsToJson_eq_map, List.forall₂_map_right_iff]
    exact forall₂_imp_of_mem (forall₂_of_ofFields h) fun p hp q hq =>
      ⟨hq.1, hshows p hp q.2 hq.2⟩
  refine .object ?_ fun name => ?_
  · rw [Record.keys_ofPairs, map_eq_map_of_forall₂ hpairs fun p q hpq => hpq.1]
  · rw [Record.get?_ofPairs]
    exact Record.rel_last?_of_forall₂ hpairs name

/-- A literal shows what it is converted to. In an object the names are merged before the values
become JSON, in arguments after it. -/
theorem shows_of_ofLiteral {l : Literal} :
    (∀ s ∈ l.integers, IsInteger s) → ∀ v, ofLiteral l = .ok v → Shows l v.toJson := by
  induction l using Literal.induction with
  | int spelling =>
    intro hint v h
    rw [ofLiteral, ofInteger] at h
    split_ifs at h
    obtain rfl := Except.ok.inj h
    rw [toJson, (hint spelling (by simp [Literal.integers])).toInt_eq]
    exact .int spelling
  | list items ih =>
    intro hint v h
    rw [ofLiteral] at h
    obtain ⟨vs, hvs, h⟩ := bind_eq_ok_iff.1 h
    obtain rfl := Except.ok.inj h
    rw [toJson, itemsToJson_eq_map]
    have hitems : ∀ l ∈ items, ∀ v, ofLiteral l = .ok v → Shows l v.toJson := fun l hl =>
      ih l hl fun s hs => hint s (mem_integersOfItems.2 ⟨l, hl, hs⟩)
    exact .list (List.forall₂_map_right_iff.2 (forall₂_imp_of_mem (forall₂_of_ofItems hvs) hitems))
  | object fields ih =>
    intro hint v h
    rw [ofLiteral] at h
    obtain ⟨vs, hvs, h⟩ := bind_eq_ok_iff.1 h
    obtain rfl := Except.ok.inj h
    rw [toJson, fieldsToJson_eq_map, ← Record.ofPairs_map, ← fieldsToJson_eq_map]
    exact shows_of_ofFields (fun p hp => ih p hp fun s hs =>
      hint s (mem_integersOfFields.2 ⟨p, hp, hs⟩)) hvs
  | _ =>
    intro _ v h
    rw [ofLiteral] at h
    obtain rfl := Except.ok.inj h
    rw [toJson]
    constructor

end ArgumentValue

/-- Arguments show the record that they are converted to. -/
theorem shows_of_argumentRecord {arguments : List (Text × Literal)} {record : Record Json}
    (hint : ∀ s ∈ integersOfFields arguments, IsInteger s)
    (h : argumentRecord arguments = .ok record) :
    Shows (.object arguments) (.object record) := by
  obtain ⟨values, hvalues, h⟩ := bind_eq_ok_iff.1 h
  obtain rfl := Except.ok.inj h
  exact ArgumentValue.shows_of_ofFields (fun p hp => ArgumentValue.shows_of_ofLiteral fun s hs =>
    hint s (mem_integersOfFields.2 ⟨p, hp, hs⟩)) hvalues

end QueryDiagram
