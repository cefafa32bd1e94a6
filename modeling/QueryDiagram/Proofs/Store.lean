import Mathlib.Data.List.Nodup
import Mathlib.Data.List.Range
import QueryDiagram.Store

/-!
# What stores hold

Making room drops the oldest entries and no more than needed, and it never runs out of entries
where there is any room at all (`evict_eq`). Whatever is done to a store, its entries stand in the
order in which they were stored (`Ordered`), so an identifier has at most one entry
(`get?_eq_some_iff`).
-/

namespace QueryDiagram

namespace Store

variable {α : Type} {s : Store α} {id other capacity : Nat} {d : Diagram α}

/-! ## Making room -/

theorem evict_eq (h : 0 < capacity) (entries : List (Nat × Diagram α)) :
    evict capacity entries = some (entries.drop (entries.length + 1 - capacity)) := by
  induction entries with
  | nil => rw [evict, if_neg (by simp; omega), List.drop_nil]
  | cons e rest ih =>
    rw [evict]
    by_cases hc : capacity ≤ (e :: rest).length
    · have hstep : (e :: rest).length + 1 - capacity = rest.length + 1 - capacity + 1 := by
        rw [List.length_cons] at hc ⊢
        omega
      rw [if_pos hc, ih, hstep, List.drop_succ_cons]
    · rw [if_neg hc, show (e :: rest).length + 1 - capacity = 0 by omega, List.drop_zero]

/-- Where there is no room at all, the last entry is dropped and there is still one to drop. -/
theorem evict_zero (entries : List (Nat × Diagram α)) : evict 0 entries = none := by
  induction entries with
  | nil => rfl
  | cons e rest ih => rw [evict, if_pos (Nat.zero_le _), ih]

/-- The store with a diagram as its newest entry, and of the others the newest that there is room
for. -/
def renewed (s : Store α) (capacity : Nat) (d : Diagram α) : Store α :=
  ⟨s.entries.drop (s.entries.length + 1 - capacity) ++ [(s.issued, d)], s.issued + 1⟩

theorem add_eq (h : 0 < capacity) (s : Store α) (d : Diagram α) :
    s.add capacity d = some (s.renewed capacity d) := by
  rw [add, evict_eq h]
  rfl

/-! ## Identifiers -/

theorem ids_renewed (s : Store α) (capacity : Nat) (d : Diagram α) :
    (s.renewed capacity d).ids = s.ids.drop (s.ids.length + 1 - capacity) ++ [s.issued] := by
  simp [ids, renewed]

@[simp]
theorem ids_update (s : Store α) (id : Nat) (d : Diagram α) : (s.update id d).ids = s.ids := by
  rw [ids, update, List.map_map]
  refine List.map_congr_left fun e _ => ?_
  by_cases h : e.1 = id <;> simp [h]

@[simp]
theorem ids_erase (s : Store α) (id : Nat) : (s.erase id).ids = s.ids.filter (· ≠ id) := by
  rw [ids, erase, ids, List.filter_map]
  rfl

/-! ## Order -/

/-- The entries stand in the order in which they were stored. -/
def Ordered (s : Store α) : Prop := s.ids.Sublist (List.range s.issued)

theorem ordered_empty : (empty : Store α).Ordered := List.Sublist.refl _

theorem Ordered.renewed (h : s.Ordered) (capacity : Nat) (d : Diagram α) :
    (s.renewed capacity d).Ordered := by
  rw [Ordered, ids_renewed, show (s.renewed capacity d).issued = s.issued + 1 from rfl,
    List.range_succ]
  exact ((List.drop_sublist _ _).trans h).append (List.Sublist.refl _)

theorem Ordered.update (h : s.Ordered) (id : Nat) (d : Diagram α) : (s.update id d).Ordered := by
  rw [Ordered, ids_update]
  exact h

theorem Ordered.erase (h : s.Ordered) (id : Nat) : (s.erase id).Ordered := by
  rw [Ordered, ids_erase]
  exact List.filter_sublist.trans h

theorem Ordered.nodup (h : s.Ordered) : s.ids.Nodup := List.Sublist.nodup h List.nodup_range

theorem Ordered.lt_issued (h : s.Ordered) (hid : id ∈ s.ids) : id < s.issued :=
  List.mem_range.1 (h.subset hid)

/-! ## Entries -/

theorem get?_eq_some_iff (h : s.Ordered) : s.get? id = some d ↔ (id, d) ∈ s.entries := by
  have hd : (s.entries.map Prod.fst).Nodup := h.nodup
  rw [get?]
  generalize s.entries = entries at hd ⊢
  induction entries with
  | nil => simp
  | cons e rest ih =>
    obtain ⟨id', d'⟩ := e
    rw [List.map_cons, List.nodup_cons] at hd
    rw [List.lookup_cons, List.mem_cons]
    by_cases hid : id = id'
    · have hrest : (id', d) ∉ rest := fun hm => hd.1 (List.mem_map.2 ⟨_, hm, rfl⟩)
      simp [hid, hrest, eq_comm]
    · simp [hid, ih hd.2, beq_eq_false_iff_ne.2 hid]

theorem mem_ids_of_get? (h : s.get? id = some d) : id ∈ s.ids := by
  obtain ⟨before, after, he, -⟩ := List.lookup_eq_some_iff.1 h
  rw [ids, he]
  simp

theorem mem_update {e : Nat × Diagram α} (h : e ∈ (s.update id d).entries) :
    e = (id, d) ∨ e.1 ≠ id ∧ e ∈ s.entries := by
  obtain ⟨e', he', rfl⟩ := List.mem_map.1 h
  by_cases hid : e'.1 = id
  · exact .inl (if_pos hid)
  · rw [if_neg hid]
    exact .inr ⟨hid, he'⟩

theorem get?_update_of_ne (h : other ≠ id) (s : Store α) (d : Diagram α) :
    (s.update id d).get? other = s.get? other := by
  rw [get?, get?, update]
  induction s.entries with
  | nil => rfl
  | cons e rest ih =>
    rw [List.map_cons, List.lookup_cons, List.lookup_cons, ih]
    by_cases hid : e.1 = id <;> simp [hid, beq_eq_false_iff_ne.2 h]

theorem get?_update_self (h : s.get? id = some d) (d' : Diagram α) :
    (s.update id d').get? id = some d' := by
  rw [get?] at h
  rw [get?, update]
  generalize s.entries = entries at h
  induction entries with
  | nil => cases h
  | cons e rest ih =>
    rw [List.map_cons, List.lookup_cons]
    rw [List.lookup_cons] at h
    by_cases hid : e.1 = id
    · simp [hid]
    · rw [beq_eq_false_iff_ne.2 (Ne.symm hid)] at h
      simpa [hid, beq_eq_false_iff_ne.2 (Ne.symm hid)] using ih h

theorem get?_erase_of_ne (h : other ≠ id) (s : Store α) :
    (s.erase id).get? other = s.get? other := by
  rw [get?, get?, erase]
  induction s.entries with
  | nil => rfl
  | cons e rest ih =>
    by_cases hid : e.1 = id
    · rw [List.filter_cons_of_neg (by simp [hid]), ih, List.lookup_cons, hid,
        beq_eq_false_iff_ne.2 h]
    · rw [List.filter_cons_of_pos (by simp [hid]), List.lookup_cons, List.lookup_cons, ih]

theorem get?_renewed (h : s.Ordered) (capacity : Nat) (d : Diagram α) :
    (s.renewed capacity d).get? s.issued = some d :=
  (get?_eq_some_iff (h.renewed capacity d)).2 (List.mem_append_right _ List.mem_cons_self)

end Store

end QueryDiagram
