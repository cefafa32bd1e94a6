import Mathlib.Tactic.Push
import Mathlib.Tactic.SplitIfs
import QueryDiagram.Proofs.Record
import QueryDiagram.Proofs.Request

/-!
# What becomes of a text that is submitted

A text may have several faults. They are ranked: it writes no object, it has no query, its variables
are no object, its query is not in the grammar, or the name of its operation is of the wrong kind
(`Decision`). The first of them is reported, and a text without faults is read (`read_decides`).
A field that an object has more than once counts with its last value.
-/

namespace QueryDiagram

namespace Json

/-- The values that stand for nothing: null, false, zero and what is empty. -/
inductive Falsy : Json → Prop
  | null : Falsy null
  | false : Falsy (bool .false)
  | zero : Falsy (int 0)
  | floatZero {x : Float} (h : x == 0) : Falsy (float x)
  | emptyText : Falsy (str [])
  | emptyList : Falsy (list [])
  | emptyObject : Falsy (object [])

theorem isBlank_iff_falsy {v : Json} : v.isBlank ↔ v.Falsy := by
  constructor
  · intro h
    cases v with
    | null => exact .null
    | bool b =>
      cases b with
      | false => exact .false
      | true => cases h
    | int n =>
      obtain rfl : n = 0 := by simpa [isBlank] using h
      exact .zero
    | float x => exact .floatZero h
    | str t =>
      obtain rfl : t = [] := by simpa [isBlank] using h
      exact .emptyText
    | list items =>
      obtain rfl : items = [] := by simpa [isBlank] using h
      exact .emptyList
    | object members =>
      obtain rfl : members = [] := by simpa [isBlank] using h
      exact .emptyObject
  · intro h
    cases h with
    | floatZero h => exact h
    | _ => rfl

/-! ## Objects in texts -/

/-- The text writes an object with these members, in their order; keys may be repeated. -/
def WritesObject (t : Text) (pairs : List (Text × Json)) : Prop :=
  ∃ inner rest, skipSpace t = .scalar '\x7b' :: inner ∧
    bracketed (member (value .strict t.length)) '\x7d' inner = .ok (pairs, rest) ∧
    skipSpace rest = []

theorem value_object_eq_ok_iff {n : Nat} {t rest : Text} {members : Record Json} :
    value .strict (n + 1) t = .ok (object members, rest) ↔ ∃ inner pairs,
      t = .scalar '\x7b' :: inner ∧
      bracketed (member (value .strict n)) '\x7d' inner = .ok (pairs, rest) ∧
      members = Record.ofPairs pairs := by
  constructor
  · intro h
    cases t with
    | nil => cases h
    | cons c t =>
      rw [value] at h
      split_ifs at h with hquote hlist hobject
      · obtain ⟨⟨s, t'⟩, -, h⟩ := bind_eq_ok_iff.1 h
        cases h
      · obtain ⟨⟨items, t'⟩, -, h⟩ := bind_eq_ok_iff.1 h
        cases h
      · obtain ⟨⟨pairs, t'⟩, hb, h⟩ := bind_eq_ok_iff.1 h
        obtain ⟨hmembers, rfl⟩ := Prod.mk.inj (Except.ok.inj h)
        exact ⟨t, pairs, by rw [hobject], hb, (object.inj hmembers).symm⟩
      · cases isAtom_of_scalar h
  · rintro ⟨inner, pairs, rfl, hb, rfl⟩
    rw [value, if_neg (by decide), if_neg (by decide), if_pos rfl, hb]
    rfl

theorem read_object_eq_ok_iff {t : Text} {members : Record Json} :
    read .strict t = .ok (object members) ↔
      ∃ pairs, WritesObject t pairs ∧ members = Record.ofPairs pairs := by
  constructor
  · intro h
    obtain ⟨⟨v, rest⟩, hv, h⟩ := bind_eq_ok_iff.1 h
    dsimp only at h
    split_ifs at h with hrest
    obtain rfl := Except.ok.inj h
    obtain ⟨inner, pairs, ht, hb, rfl⟩ := value_object_eq_ok_iff.1 hv
    exact ⟨pairs, ⟨inner, rest, ht, hb, List.isEmpty_iff.1 hrest⟩, rfl⟩
  · rintro ⟨pairs, ⟨inner, rest, ht, hb, hrest⟩, rfl⟩
    have hv := value_object_eq_ok_iff.2 ⟨inner, pairs, ht, hb, rfl⟩
    rw [read, hv]
    simp [bind, Except.bind, hrest, pure, Except.pure]

end Json

/-- The value of the last pair with a key. -/
def lastUnder? (key : Text) (pairs : List (Text × Json)) : Option Json :=
  ((pairs.filter (·.1 = key)).getLast?).map Prod.snd

/-! ## Decisions -/

namespace Request

/-- The variables that a field gives: none if it is absent or null. -/
inductive GivesVariables : Option Json → Record Json → Prop
  | absent : GivesVariables none []
  | null : GivesVariables (some .null) []
  | object (values : Record Json) : GivesVariables (some (.object values)) values

/-- The name of the operation that a field gives: none if it is absent or falsy. -/
inductive GivesName : Option Json → Option Text → Prop
  | absent : GivesName none none
  | falsy {v : Json} (h : v.Falsy) : GivesName (some v) none
  | text {name : Text} (h : name ≠ []) : GivesName (some (.str name)) (some name)

/-- The fields of a text up to the query and the variables. -/
structure HasFields (t : Text) (pairs : List (Text × Json)) (query : Text)
    (values : Record Json) : Prop where
  writes : Json.WritesObject t pairs
  asks : lastUnder? "query" pairs = some (.str query)
  ne_nil : query ≠ []
  gives : GivesVariables (lastUnder? "variables" pairs) values

/-- What becomes of a text. The cases exclude each other. -/
inductive Decision (t : Text) : Except RequestError Request → Prop
  | noObject (h : ¬ ∃ pairs, Json.WritesObject t pairs) : Decision t (.error .invalidFormat)
  | noQuery {pairs : List (Text × Json)} (h : Json.WritesObject t pairs)
      (hq : ∀ query, lastUnder? "query" pairs = some (.str query) → query = []) :
      Decision t (.error .missingQuery)
  | wrongVariables {pairs : List (Text × Json)} {query : Text} {v : Json}
      (h : Json.WritesObject t pairs) (hq : lastUnder? "query" pairs = some (.str query))
      (hne : query ≠ []) (hv : lastUnder? "variables" pairs = some v) (hnull : v ≠ .null)
      (hobject : ∀ values, v ≠ .object values) : Decision t (.error .invalidFormat)
  | wrongQuery {pairs : List (Text × Json)} {query : Text} {values : Record Json}
      {cause : GraphQL.Error} (h : HasFields t pairs query values)
      (hd : GraphQL.parse query = .error cause) : Decision t (.error (.invalidQuery cause))
  | wrongName {pairs : List (Text × Json)} {query : Text} {values : Record Json}
      {document : GraphQL.Document} {v : Json} (h : HasFields t pairs query values)
      (hd : GraphQL.parse query = .ok document) (hn : lastUnder? "operationName" pairs = some v)
      (htext : ∀ name, v ≠ .str name) (hfalsy : ¬ v.Falsy) : Decision t (.error .invalidFormat)
  | accepted {pairs : List (Text × Json)} {query : Text} {values : Record Json}
      {document : GraphQL.Document} {name : Option Text} (h : HasFields t pairs query values)
      (hd : GraphQL.parse query = .ok document)
      (hn : GivesName (lastUnder? "operationName" pairs) name) :
      Decision t (.ok ⟨query, document, name, values⟩)

/-! ## Fields -/

section Fields

variable {v : Option Json}

theorem exists_text_or_blank (v : Option Json) :
    (∃ query, v = some (.str query) ∧ query ≠ []) ∨
      ∀ query, v = some (.str query) → query = [] := by
  by_cases h : ∃ query, v = some (.str query) ∧ query ≠ []
  · exact .inl h
  · push Not at h
    exact .inr h

theorem queryText_of_blank (h : ∀ query, v = some (.str query) → query = []) :
    queryText v = .error .missingQuery := by
  cases hq : queryText v with
  | error e =>
    unfold queryText at hq
    split at hq <;> cases hq <;> rfl
  | ok query =>
    obtain ⟨hv, hne⟩ := queryText_eq_ok_iff.1 hq
    exact absurd (h query hv) hne

theorem GivesVariables.variableValuesOf_eq {values : Record Json} (h : GivesVariables v values) :
    variableValuesOf v = .ok values := by
  cases h <;> rfl

theorem exists_givesVariables_or (v : Option Json) :
    (∃ values, GivesVariables v values) ∨
      ∃ w, v = some w ∧ w ≠ .null ∧ ∀ values, w ≠ .object values := by
  cases v with
  | none => exact .inl ⟨_, .absent⟩
  | some w =>
    cases w with
    | null => exact .inl ⟨_, .null⟩
    | object values => exact .inl ⟨_, .object values⟩
    | _ => exact .inr ⟨_, rfl, nofun, nofun⟩

theorem variableValuesOf_of_wrong {w : Json} (hnull : w ≠ .null)
    (hobject : ∀ values, w ≠ .object values) :
    variableValuesOf (some w) = .error .invalidFormat := by
  cases w with
  | null => exact absurd rfl hnull
  | object values => exact absurd rfl (hobject values)
  | _ => rfl

theorem GivesName.operationNameOf_eq {name : Option Text} (h : GivesName v name) :
    operationNameOf v = .ok name := by
  cases h with
  | absent => rfl
  | falsy hv => simp [operationNameOf, Json.isBlank_iff_falsy.2 hv]
  | text hname => exact @operationNameOf_output (some _) (mt Option.some.inj hname)

theorem exists_givesName_or (v : Option Json) :
    (∃ name, GivesName v name) ∨ ∃ w, v = some w ∧ (∀ name, w ≠ .str name) ∧ ¬ w.Falsy := by
  cases v with
  | none => exact .inl ⟨_, .absent⟩
  | some w =>
    by_cases hfalsy : w.Falsy
    · exact .inl ⟨_, .falsy hfalsy⟩
    · by_cases htext : ∃ name, w = .str name
      · obtain ⟨name, rfl⟩ := htext
        exact .inl ⟨_, .text fun h => hfalsy (h ▸ .emptyText)⟩
      · exact .inr ⟨w, rfl, not_exists.1 htext, hfalsy⟩

theorem operationNameOf_of_wrong {w : Json} (htext : ∀ name, w ≠ .str name) (hfalsy : ¬ w.Falsy) :
    operationNameOf (some w) = .error .invalidFormat := by
  have hblank : ¬ w.isBlank := mt Json.isBlank_iff_falsy.1 hfalsy
  cases w with
  | str name => exact absurd rfl (htext name)
  | _ => exact if_neg hblank

end Fields

/-! ## The result -/

variable {t : Text} {pairs : List (Text × Json)}

theorem readObject_of_not_writesObject (h : ¬ ∃ pairs, Json.WritesObject t pairs) :
    readObject t = .error .invalidFormat := by
  unfold readObject
  split
  · rename_i members hr
    obtain ⟨pairs, hp, -⟩ := Json.read_object_eq_ok_iff.1 hr
    exact absurd ⟨pairs, hp⟩ h
  · rfl

/-- Of the fields of an object the reader takes those that come last. -/
theorem read_of_writesObject (h : Json.WritesObject t pairs) :
    read t = do
      let query ← queryText (lastUnder? "query" pairs)
      let values ← variableValuesOf (lastUnder? "variables" pairs)
      let document ← documentOf query
      let name ← operationNameOf (lastUnder? "operationName" pairs)
      return ⟨query, document, name, values⟩ := by
  have hobject : readObject t = .ok (Record.ofPairs pairs) :=
    readObject_eq_ok_iff.2 (Json.read_object_eq_ok_iff.2 ⟨pairs, h, rfl⟩)
  simp only [lastUnder?, ← Record.get?_ofPairs, read, hobject]
  rfl

theorem HasFields.read_eq {query : Text} {values : Record Json}
    (h : HasFields t pairs query values) :
    read t = do
      let document ← documentOf query
      let name ← operationNameOf (lastUnder? "operationName" pairs)
      return ⟨query, document, name, values⟩ := by
  have hquery := queryText_eq_ok_iff.2 ⟨h.asks, h.ne_nil⟩
  rw [read_of_writesObject h.writes, hquery, h.gives.variableValuesOf_eq]
  rfl

theorem exists_decision (t : Text) : ∃ o, Decision t o := by
  by_cases hobject : ∃ pairs, Json.WritesObject t pairs
  · obtain ⟨pairs, h⟩ := hobject
    rcases exists_text_or_blank (lastUnder? "query" pairs) with ⟨query, hq, hne⟩ | hq
    · rcases exists_givesVariables_or (lastUnder? "variables" pairs) with
        ⟨values, hv⟩ | ⟨v, hv, hnull, hwrong⟩
      · have hfields : HasFields t pairs query values := ⟨h, hq, hne, hv⟩
        cases hd : GraphQL.parse query with
        | error cause => exact ⟨_, .wrongQuery hfields hd⟩
        | ok document =>
          rcases exists_givesName_or (lastUnder? "operationName" pairs) with
            ⟨name, hn⟩ | ⟨v, hn, htext, hfalsy⟩
          · exact ⟨_, .accepted hfields hd hn⟩
          · exact ⟨_, .wrongName hfields hd hn htext hfalsy⟩
      · exact ⟨_, .wrongVariables h hq hne hv hnull hwrong⟩
    · exact ⟨_, .noQuery h hq⟩
  · exact ⟨_, .noObject hobject⟩

theorem Decision.read_eq {o : Except RequestError Request} (h : Decision t o) : read t = o := by
  cases h with
  | noObject h =>
    rw [read, readObject_of_not_writesObject h]
    rfl
  | noQuery h hq =>
    rw [read_of_writesObject h, queryText_of_blank hq]
    rfl
  | wrongVariables h hq hne hv hnull hobject =>
    rw [read_of_writesObject h, queryText_eq_ok_iff.2 ⟨hq, hne⟩, hv,
      variableValuesOf_of_wrong hnull hobject]
    rfl
  | wrongQuery h hd =>
    rw [h.read_eq, documentOf, hd]
    rfl
  | wrongName h hd hn htext hfalsy =>
    rw [h.read_eq, documentOf, hd, hn, operationNameOf_of_wrong htext hfalsy]
    rfl
  | accepted h hd hn =>
    rw [h.read_eq, documentOf, hd, hn.operationNameOf_eq]
    rfl

/-- Every text is decided by the first fault that it has, whatever others it has, and read if it
has none. -/
theorem read_decides (t : Text) :
    (∀ o, read t = o ↔ Decision t o) ∧
      ∀ cause : GraphQL.Error, (RequestError.invalidQuery cause).message =
        ("Invalid GraphQL query: " : Text) ++ cause.message := by
  refine ⟨fun o => ⟨?_, Decision.read_eq⟩, fun _ => rfl⟩
  rintro rfl
  obtain ⟨o, h⟩ := exists_decision t
  rwa [h.read_eq]

end Request

end QueryDiagram
