import QueryDiagram.Text.Basic

/-!
# Records

Values under text keys, in the order in which the keys were first inserted. A key that is
inserted again keeps its place and takes the new value.
-/

namespace QueryDiagram

/-- Key and value pairs in insertion order. -/
abbrev Record (α : Type) := List (Text × α)

namespace Record

variable {α : Type}

/-- The value under a key. -/
def get? : Record α → Text → Option α
  | [], _ => none
  | (k, v) :: r, key => if k = key then some v else get? r key

/-- The keys, in order. -/
def keys (r : Record α) : List Text := r.map Prod.fst

/-- The record with a value under a key, in the place of the one before it or at the end. -/
def insert (key : Text) (value : α) : Record α → Record α
  | [] => [(key, value)]
  | (k, v) :: r => if k = key then (k, value) :: r else (k, v) :: insert key value r

/-- The record of pairs inserted from left to right. -/
def ofPairs (pairs : List (Text × α)) : Record α :=
  pairs.foldl (fun r p => Record.insert p.1 p.2 r) []

theorem get?_insert (key k : Text) (v : α) (r : Record α) :
    get? (Record.insert key v r) k = if key = k then some v else get? r k := by
  induction r with
  | nil => rfl
  | cons p r ih =>
    unfold Record.insert
    by_cases hp : p.1 = key <;> by_cases hk : key = k <;> simp_all [get?]

theorem isSome_get?_iff {key : Text} {r : Record α} : (get? r key).isSome ↔ key ∈ keys r := by
  induction r with
  | nil => simp [get?, keys]
  | cons p r ih =>
    rw [get?, keys, List.map_cons, List.mem_cons, ← keys, ← ih]
    by_cases h : p.1 = key
    · simp [h]
    · simp [h, Ne.symm h]

theorem keys_insert_of_mem {key : Text} {v : α} {r : Record α} (h : key ∈ keys r) :
    keys (Record.insert key v r) = keys r := by
  induction r with
  | nil => simp [keys] at h
  | cons p r ih =>
    unfold Record.insert
    by_cases hp : p.1 = key
    · simp [hp, keys]
    · have : key ∈ keys r := by simpa [keys, Ne.symm hp] using h
      simpa [hp, keys] using ih this

theorem keys_insert_of_not_mem {key : Text} {v : α} {r : Record α} (h : key ∉ keys r) :
    keys (Record.insert key v r) = keys r ++ [key] := by
  induction r with
  | nil => rfl
  | cons p r ih =>
    unfold Record.insert
    have hp : p.1 ≠ key := fun e => h (by simp [keys, e])
    have hr : key ∉ keys r := fun e => h (List.mem_cons_of_mem _ e)
    simpa [hp, keys] using ih hr

theorem mem_keys_insert {key k : Text} {v : α} {r : Record α} :
    k ∈ keys (Record.insert key v r) ↔ k = key ∨ k ∈ keys r := by
  by_cases h : key ∈ keys r
  · rw [keys_insert_of_mem h]
    constructor
    · exact .inr
    · rintro (rfl | hk)
      · exact h
      · exact hk
  · rw [keys_insert_of_not_mem h, List.mem_append, List.mem_singleton, or_comm]

theorem nodup_keys_insert {key : Text} {v : α} {r : Record α} (h : (keys r).Nodup) :
    (keys (Record.insert key v r)).Nodup := by
  by_cases hk : key ∈ keys r
  · rwa [keys_insert_of_mem hk]
  · rw [keys_insert_of_not_mem hk]
    refine List.nodup_append.2 ⟨h, by simp, fun a ha b hb e => hk ?_⟩
    rwa [← List.mem_singleton.1 hb, ← e]

theorem nodup_keys_ofPairs (pairs : List (Text × α)) : (keys (ofPairs pairs)).Nodup := by
  suffices ∀ r : Record α, (keys r).Nodup →
      (keys (pairs.foldl (fun r p => Record.insert p.1 p.2 r) r)).Nodup from this [] .nil
  induction pairs with
  | nil => exact fun _ h => h
  | cons p pairs ih => exact fun r h => ih _ (nodup_keys_insert h)

end Record

end QueryDiagram
