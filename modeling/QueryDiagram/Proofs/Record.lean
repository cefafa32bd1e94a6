import Mathlib.Data.List.Forall2
import Mathlib.Data.List.Nodup
import Mathlib.Tactic.SplitIfs
import QueryDiagram.Record

/-!
# Records of pairs

A record of pairs has their keys in the order in which these first appear (`keys_ofPairs`), and
under each key the value of the last pair with that key (`get?_ofPairs`). So it is what remains when
all but the last pair of every key are dropped and each takes the place of the first
(`lastOfEach_eq_ofPairs`). Taking some of the keys of a record leaves what it has under them as it
is (`get?_filter`).
-/

namespace QueryDiagram

/-! ## Lists that correspond -/

theorem map_eq_map_of_forall₂ {β γ δ : Type} {r : β → γ → Prop} {xs : List β} {ys : List γ}
    {f : β → δ} {g : γ → δ} (h : List.Forall₂ r xs ys) (hr : ∀ x y, r x y → g y = f x) :
    ys.map g = xs.map f := by
  induction h with
  | nil => rfl
  | cons hxy _ ih => rw [List.map_cons, List.map_cons, hr _ _ hxy, ih]

theorem forall₂_imp_of_mem {β γ : Type} {r s : β → γ → Prop} {xs : List β} {ys : List γ}
    (h : List.Forall₂ r xs ys) (hs : ∀ x ∈ xs, ∀ y, r x y → s x y) : List.Forall₂ s xs ys :=
  ((List.forall₂_and_left xs ys).2 ⟨hs, h⟩).imp fun _ y hr => hr.1 y hr.2

theorem eq_of_forall₂ {β γ : Type} {r : β → γ → Prop} {xs : List β} {ys zs : List γ}
    (hr : ∀ x ∈ xs, ∀ y z, r x y → r x z → y = z) (hy : List.Forall₂ r xs ys)
    (hz : List.Forall₂ r xs zs) : ys = zs := by
  induction hy generalizing zs with
  | nil =>
    cases hz
    rfl
  | cons hxy _ ih =>
    cases hz with
    | cons hxz hz =>
      rw [hr _ List.mem_cons_self _ _ hxy hxz,
        ih (fun x hx => hr x (List.mem_cons_of_mem _ hx)) hz]

theorem eq_of_rel {β γ : Type} {r : β → γ → Prop} {x : Option β} {y z : Option γ}
    (hr : ∀ b ∈ x, ∀ c d, r b c → r b d → c = d) (hy : Option.Rel r x y)
    (hz : Option.Rel r x z) : y = z := by
  cases hy with
  | none =>
    cases hz
    rfl
  | some hxy =>
    cases hz with
    | some hxz => rw [hr _ rfl _ _ hxy hxz]

theorem rel_of_rel_map {β γ δ : Type} {r : γ → δ → Prop} {s : β → δ → Prop} {f : β → γ}
    {x : Option β} {y : Option δ} (h : Option.Rel r (x.map f) y)
    (hs : ∀ b ∈ x, ∀ d, r (f b) d → s b d) : Option.Rel s x y := by
  cases x with
  | none =>
    cases h
    exact .none
  | some b =>
    cases h with
    | some hb => exact .some (hs b rfl _ hb)

theorem rel_getLast?_of_forall₂ {β γ : Type} {r : β → γ → Prop} {xs : List β} {ys : List γ}
    (h : List.Forall₂ r xs ys) : Option.Rel r xs.getLast? ys.getLast? := by
  induction h with
  | nil => exact .none
  | cons hxy h ih =>
    rw [List.getLast?_cons, List.getLast?_cons]
    revert ih
    generalize List.getLast? _ = x, List.getLast? _ = y
    rintro (hl | _)
    · exact .some hl
    · exact .some hxy

namespace Record

variable {α : Type}

theorem mem_of_mem_insert {key : Text} {v : α} {r : Record α} {p : Text × α}
    (h : p ∈ Record.insert key v r) : p = (key, v) ∨ p ∈ r := by
  induction r with
  | nil => exact .inl (List.mem_singleton.1 h)
  | cons q r ih =>
    unfold Record.insert at h
    split_ifs at h with hq
    · rcases List.mem_cons.1 h with rfl | h
      · exact .inl (by rw [hq])
      · exact .inr (List.mem_cons_of_mem _ h)
    · rcases List.mem_cons.1 h with rfl | h
      · exact .inr List.mem_cons_self
      · exact (ih h).imp_right (List.mem_cons_of_mem _)

theorem mem_of_get?_eq_some {r : Record α} {key : Text} {v : α} (h : r.get? key = some v) :
    (key, v) ∈ r := by
  induction r with
  | nil => simp [get?] at h
  | cons q r ih =>
    unfold get? at h
    split_ifs at h with hq
    · obtain rfl := Option.some.inj h
      obtain rfl := hq
      exact List.mem_cons_self
    · exact List.mem_cons_of_mem _ (ih h)

/-- A record holds only pairs that were inserted. -/
theorem mem_of_mem_ofPairs {pairs : List (Text × α)} {p : Text × α} (h : p ∈ ofPairs pairs) :
    p ∈ pairs := by
  suffices ∀ r : Record α, p ∈ pairs.foldl (fun r p => Record.insert p.1 p.2 r) r →
      p ∈ r ∨ p ∈ pairs from (this [] h).resolve_left List.not_mem_nil
  clear h
  induction pairs with
  | nil => exact fun r h => .inl h
  | cons q pairs ih =>
    intro r h
    rcases ih _ h with h | h
    · rcases mem_of_mem_insert h with rfl | h
      · exact .inr List.mem_cons_self
      · exact .inl h
    · exact .inr (List.mem_cons_of_mem _ h)

theorem insert_of_not_mem {key : Text} {v : α} {r : Record α} (h : key ∉ r.keys) :
    Record.insert key v r = r ++ [(key, v)] := by
  induction r with
  | nil => rfl
  | cons q r ih =>
    rw [keys, List.map_cons, List.mem_cons, not_or] at h
    unfold Record.insert
    rw [if_neg (Ne.symm h.1), ih h.2, List.cons_append]

/-- Pairs with distinct keys are a record already. -/
theorem ofPairs_of_nodup {r : Record α} (h : r.keys.Nodup) : ofPairs r = r := by
  suffices ∀ before : Record α, (before ++ r).keys.Nodup →
      r.foldl (fun r p => Record.insert p.1 p.2 r) before = before ++ r from this [] h
  clear h
  induction r with
  | nil => simp
  | cons q r ih =>
    intro before hd
    have hq : q.1 ∉ before.keys := by
      rw [keys, List.map_append, List.nodup_append'] at hd
      exact fun hm => hd.2.2 hm List.mem_cons_self
    rw [List.foldl_cons, insert_of_not_mem hq, ih _ (by simpa using hd), List.append_assoc,
      List.singleton_append]

/-- Of pairs with the same key the last one counts. -/
theorem get?_ofPairs (pairs : List (Text × α)) (key : Text) :
    get? (ofPairs pairs) key = ((pairs.filter (·.1 = key)).getLast?).map Prod.snd := by
  suffices ∀ r : Record α, get? (pairs.foldl (fun r p => Record.insert p.1 p.2 r) r) key =
      (((pairs.filter (·.1 = key)).getLast?).map Prod.snd).or (get? r key) by
    rw [ofPairs, this, get?, Option.or_none]
  induction pairs with
  | nil => exact fun r => rfl
  | cons p pairs ih =>
    intro r
    rw [List.foldl_cons, ih, get?_insert]
    by_cases hk : p.1 = key
    · rw [if_pos hk, List.filter_cons_of_pos (by simpa using hk), List.getLast?_cons]
      cases (pairs.filter (·.1 = key)).getLast? <;> rfl
    · rw [if_neg hk, List.filter_cons_of_neg (by simpa using hk)]

theorem keys_ofPairs (pairs : List (Text × α)) :
    keys (ofPairs pairs) = (pairs.map Prod.fst).eraseDups := by
  suffices ∀ r : Record α, keys (pairs.foldl (fun r p => Record.insert p.1 p.2 r) r) =
      List.eraseDupsBy.loop (· == ·) (pairs.map Prod.fst) (keys r).reverse from this []
  induction pairs with
  | nil => exact fun r => (List.reverse_reverse _).symm
  | cons p pairs ih =>
    intro r
    rw [List.foldl_cons, ih, List.map_cons, List.eraseDupsBy.loop]
    by_cases hk : p.1 ∈ keys r
    · have hany : (keys r).reverse.any (p.1 == ·) = true := by simpa using hk
      rw [keys_insert_of_mem hk, hany]
    · have hany : (keys r).reverse.any (p.1 == ·) = false :=
        Bool.eq_false_iff.2 fun h => hk (by simpa using h)
      rw [keys_insert_of_not_mem hk, hany, List.reverse_append]
      rfl

theorem ofPairs_eq_nil_iff {pairs : List (Text × α)} : ofPairs pairs = [] ↔ pairs = [] := by
  constructor
  · intro h
    have hkeys := keys_ofPairs pairs
    rw [h] at hkeys
    cases pairs with
    | nil => rfl
    | cons p pairs =>
      rw [List.map_cons, List.eraseDups_cons] at hkeys
      cases hkeys
  · rintro rfl
    rfl

/-! ## The last pair of each key -/

/-- The value of the last pair with a key. -/
def last? (pairs : List (Text × α)) (key : Text) : Option α :=
  ((pairs.filter (·.1 = key)).getLast?).map Prod.snd

/-- The last pair of each key, at the place of the first. -/
def lastOfEach (pairs : List (Text × α)) : List (Text × α) :=
  (pairs.map Prod.fst).eraseDups.filterMap fun key => (last? pairs key).map (key, ·)

section LastOfEach

variable {pairs : List (Text × α)} {key : Text}

theorem mem_of_last?_eq_some {v : α} (h : last? pairs key = some v) : (key, v) ∈ pairs := by
  obtain ⟨p, hp, rfl⟩ := Option.map_eq_some_iff.1 h
  obtain ⟨hm, hk⟩ := List.mem_filter.1 (List.mem_of_getLast? hp)
  obtain rfl : p.1 = key := by simpa using hk
  exact hm

/-- A record consists of what it has under its keys. -/
theorem filterMap_keys {r : Record α} (h : r.keys.Nodup) :
    r.keys.filterMap (fun key => (r.get? key).map (key, ·)) = r := by
  induction r with
  | nil => rfl
  | cons p r ih =>
    obtain ⟨hp, hr⟩ := List.nodup_cons.1 h
    have hfirst : get? (p :: r) p.1 = some p.2 := if_pos rfl
    have hrest : ∀ key ∈ keys r, (get? (p :: r) key).map (key, ·) = (get? r key).map (key, ·) := by
      intro key hkey
      have hne : p.1 ≠ key := fun e => hp (e ▸ hkey)
      rw [show get? (p :: r) key = get? r key from if_neg hne]
    rw [keys, List.map_cons, List.filterMap_cons_some (by rw [hfirst]; rfl), ← keys,
      List.filterMap_congr hrest, ih hr]

/-- Records with the same keys in the same order and the same values under them are equal. -/
theorem ext_get? {r s : Record α} (hr : r.keys.Nodup) (hk : r.keys = s.keys)
    (h : ∀ key, r.get? key = s.get? key) : r = s := by
  have hs : s.keys.Nodup := hk ▸ hr
  rw [← filterMap_keys hr, ← filterMap_keys hs, hk, funext h]

theorem lastOfEach_eq_ofPairs (pairs : List (Text × α)) : lastOfEach pairs = ofPairs pairs := by
  rw [← filterMap_keys (nodup_keys_ofPairs pairs), keys_ofPairs, funext (get?_ofPairs pairs)]
  rfl

/-! Pairs with distinct keys are the last ones already. -/

theorem last?_of_nodup {r : Record α} (h : r.keys.Nodup) (key : Text) :
    last? r key = r.get? key := by
  rw [last?, ← get?_ofPairs, ofPairs_of_nodup h]

theorem eraseDups_keys_of_nodup {r : Record α} (h : r.keys.Nodup) : r.keys.eraseDups = r.keys := by
  rw [keys, ← keys_ofPairs, ofPairs_of_nodup h, keys]

theorem last?_lastOfEach (pairs : List (Text × α)) (key : Text) :
    last? (lastOfEach pairs) key = last? pairs key := by
  rw [lastOfEach_eq_ofPairs, last?_of_nodup (nodup_keys_ofPairs pairs), get?_ofPairs, last?]

theorem eraseDups_keys_lastOfEach (pairs : List (Text × α)) :
    (keys (lastOfEach pairs)).eraseDups = (keys pairs).eraseDups := by
  rw [lastOfEach_eq_ofPairs, eraseDups_keys_of_nodup (nodup_keys_ofPairs pairs), keys_ofPairs, keys]

end LastOfEach

/-! ## Values under the same keys -/

section Map

variable {β : Type} (f : α → β) (pairs : List (Text × α))

theorem keys_map : keys (pairs.map (Prod.map id f)) = keys pairs := by
  simp [keys]

theorem last?_map (key : Text) :
    last? (pairs.map (Prod.map id f)) key = (last? pairs key).map f := by
  simp [last?, List.filter_map, Function.comp_def, List.getLast?_map]

/-- It does not matter whether values are changed before or after a record is made of the pairs. -/
theorem ofPairs_map :
    ofPairs (pairs.map (Prod.map id f)) = (ofPairs pairs).map (Prod.map id f) := by
  rw [← lastOfEach_eq_ofPairs, ← lastOfEach_eq_ofPairs, lastOfEach, lastOfEach, ← keys, keys_map,
    List.map_filterMap]
  simp [last?_map, Function.comp_def, keys]

end Map

theorem rel_last?_of_forall₂ {β : Type} {r : α → β → Prop} {xs : List (Text × α)}
    {ys : List (Text × β)} (h : List.Forall₂ (fun p q => q.1 = p.1 ∧ r p.2 q.2) xs ys)
    (key : Text) : Option.Rel r (last? xs key) (last? ys key) := by
  have hkey : List.Forall₂ (fun p q => q.1 = p.1 ∧ r p.2 q.2)
      (xs.filter (·.1 = key)) (ys.filter (·.1 = key)) := by
    refine List.rel_filter (fun p q hpq => ?_) h
    simp [hpq.1]
  have hlast := rel_getLast?_of_forall₂ hkey
  rw [last?, last?]
  revert hlast
  generalize List.getLast? _ = p, List.getLast? _ = q
  rintro (hpq | _)
  · exact .some hpq.2
  · exact .none

/-! ## Records after each other -/

theorem get?_append (r s : Record α) (key : Text) :
    get? (r ++ s) key = (get? r key).or (get? s key) := by
  induction r with
  | nil => rfl
  | cons p r ih =>
    rw [List.cons_append, get?, get?, ih]
    split_ifs
    · rfl
    · rfl

/-! ## Some of the keys -/

theorem get?_filter {p : Text → Bool} {key : Text} (h : p key) (r : Record α) :
    get? (r.filter fun m => p m.1) key = get? r key := by
  induction r with
  | nil => rfl
  | cons m r ih =>
    by_cases hm : p m.1
    · simp [hm, get?, ih]
    · have hne : m.1 ≠ key := fun e => hm (e ▸ h)
      simp [hm, get?, ih, hne]

theorem keys_filter (p : Text → Bool) (r : Record α) :
    keys (r.filter fun m => p m.1) = (keys r).filter p := by
  rw [keys, keys, List.filter_map]
  rfl

end Record

end QueryDiagram
