import QueryDiagram.Proofs.Json.Reading
import QueryDiagram.Request

/-!
# Requests that are read

A request has a query with something in it and no blank name, and its document is that of its
query (`Normal`). Its variables are an object of the submission, so their names are distinct.
-/

namespace QueryDiagram

namespace Request

theorem readObject_eq_ok_iff {t : Text} {members : Record Json} :
    readObject t = .ok members ↔ Json.read .strict t = .ok (.object members) := by
  unfold readObject
  constructor
  · intro h
    split at h
    · rename_i hr
      rw [hr, Except.ok.inj h]
    · cases h
  · intro h
    rw [h]

theorem queryText_eq_ok_iff {v : Option Json} {t : Text} :
    queryText v = .ok t ↔ v = some (.str t) ∧ t ≠ [] := by
  unfold queryText
  split <;> simp_all
  rintro rfl
  assumption

theorem eq_of_variableValuesOf {v : Option Json} {values : Record Json}
    (h : variableValuesOf v = .ok values) : values = [] ∨ v = some (.object values) := by
  unfold variableValuesOf at h
  split at h
  · exact .inl (Except.ok.inj h).symm
  · exact .inl (Except.ok.inj h).symm
  · exact .inr (by rw [Except.ok.inj h])
  · cases h

theorem operationNameOf_ne {v : Option Json} {name : Option Text}
    (h : operationNameOf v = .ok name) : name ≠ some [] := by
  rintro rfl
  unfold operationNameOf at h
  split at h
  · cases h
  · split_ifs at h with hb
    · cases h
    · split at h
      · obtain rfl := Option.some.inj (Except.ok.inj h)
        exact hb rfl
      · cases h

/-- The name that is left out is written as null, and no other is blank. -/
theorem operationNameOf_output {name : Option Text} (h : name ≠ some []) :
    operationNameOf (some ((name.map Json.str).getD .null)) = .ok name := by
  cases name with
  | none => rfl
  | some t =>
    have ht : (Json.str t).isBlank = false := by
      cases t with
      | nil => exact absurd rfl h
      | cons c t => rfl
    simp [operationNameOf, ht]

theorem read_eq_ok_iff {t : Text} {r : Request} :
    read t = .ok r ↔ ∃ members, readObject t = .ok members ∧
      queryText (members.get? "query") = .ok r.query ∧
      variableValuesOf (members.get? "variables") = .ok r.variableValues ∧
      documentOf r.query = .ok r.document ∧
      operationNameOf (members.get? "operationName") = .ok r.operationName := by
  constructor
  · intro h
    obtain ⟨members, hm, h⟩ := bind_eq_ok_iff.1 h
    obtain ⟨query, hq, h⟩ := bind_eq_ok_iff.1 h
    obtain ⟨values, hv, h⟩ := bind_eq_ok_iff.1 h
    obtain ⟨document, hd, h⟩ := bind_eq_ok_iff.1 h
    obtain ⟨name, hn, h⟩ := bind_eq_ok_iff.1 h
    obtain rfl := Except.ok.inj h
    exact ⟨members, hm, hq, hv, hd, hn⟩
  · rintro ⟨members, hm, hq, hv, hd, hn⟩
    simp [read, hm, hq, hv, hd, hn, bind, Except.bind, pure, Except.pure]

/-- What reading sees to, apart from the variables. -/
structure Normal (r : Request) : Prop where
  query : r.query ≠ []
  document : documentOf r.query = .ok r.document
  operationName : r.operationName ≠ some []

theorem normal_of_read {t : Text} {r : Request} (h : read t = .ok r) : r.Normal := by
  obtain ⟨members, -, hq, -, hd, hn⟩ := read_eq_ok_iff.1 h
  exact ⟨(queryText_eq_ok_iff.1 hq).2, hd, operationNameOf_ne hn⟩

/-- The variables are an object of the submission, if there are any. -/
theorem variableValues_eq_or_mem {t : Text} {r : Request} (h : read t = .ok r) :
    r.variableValues = [] ∨ ∃ members : Record Json, Json.read .strict t = .ok (.object members) ∧
      (("variables" : Text), Json.object r.variableValues) ∈ members := by
  obtain ⟨members, hm, -, hv, -⟩ := read_eq_ok_iff.1 h
  exact (eq_of_variableValuesOf hv).imp_right fun hv =>
    ⟨members, readObject_eq_ok_iff.1 hm, Record.mem_of_get?_eq_some hv⟩

theorem nodup_keys_variableValues {t : Text} {r : Request} (h : read t = .ok r) :
    r.variableValues.keys.Nodup := by
  obtain hv | ⟨members, hm, hmem⟩ := variableValues_eq_or_mem h
  · rw [hv]
    exact .nil
  · have hd := (Json.keysDistinct_of_read hm).of_mem hmem
    exact hd.nodup

end Request

end QueryDiagram
