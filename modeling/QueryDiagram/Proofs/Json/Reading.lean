import Mathlib.Data.List.Nodup
import Mathlib.Tactic.SplitIfs
import QueryDiagram.Json.Reader
import QueryDiagram.Proofs.Record

/-!
# Values that are read

What holds of every item holds of all items of a sequence (`forall_mem_of_bracketed`), and what
holds of every value that a reader forms holds at whatever depth it stands (`everywhere_of_read`).
It forms every object by inserting its members one after the other, so the keys of an object are
distinct (`keysDistinct_of_read`).
-/

namespace QueryDiagram

theorem bind_eq_ok_iff {ε α β : Type} {a : Except ε α} {f : α → Except ε β} {w : β} :
    a >>= f = .ok w ↔ ∃ v, a = .ok v ∧ f v = .ok w := by
  cases a <;> simp [bind, Except.bind]

namespace Json

/-! ## Sequences -/

section Sequence

variable {α : Type} {item : Text → Except ReadError (α × Text)} {close : Char} {p : α → Prop}

theorem forall_mem_of_sequence (hitem : ∀ t a rest, item t = .ok (a, rest) → p a) {n : Nat}
    {t rest : Text} {as : List α} (h : sequence item close n t = .ok (as, rest)) :
    ∀ a ∈ as, p a := by
  induction n generalizing t rest as with
  | zero => cases h
  | succ n ih =>
    obtain ⟨⟨a, t₁⟩, ha, h⟩ := bind_eq_ok_iff.1 h
    have hp := hitem _ _ _ ha
    dsimp only at h
    split at h
    · cases h
    · split_ifs at h
      · obtain ⟨rfl, -⟩ := Prod.mk.inj (Except.ok.inj h)
        simpa using hp
      · obtain ⟨⟨as', t₂⟩, has, h⟩ := bind_eq_ok_iff.1 h
        obtain ⟨rfl, -⟩ := Prod.mk.inj (Except.ok.inj h)
        exact List.forall_mem_cons.2 ⟨hp, ih has⟩

theorem forall_mem_of_bracketed (hitem : ∀ t a rest, item t = .ok (a, rest) → p a)
    {t rest : Text} {as : List α} (h : bracketed item close t = .ok (as, rest)) :
    ∀ a ∈ as, p a := by
  unfold bracketed at h
  split at h
  · cases h
  · split_ifs at h
    · obtain ⟨rfl, -⟩ := Prod.mk.inj (Except.ok.inj h)
      simp
    · exact forall_mem_of_sequence hitem h

end Sequence

/-! ## Values -/

theorem mem_subvalues_self (v : Json) : v ∈ v.subvalues := by
  cases v <;> simp [subvalues]

theorem mem_subvaluesOfItems {items : List Json} {w : Json} :
    w ∈ subvaluesOfItems items ↔ ∃ v ∈ items, w ∈ v.subvalues := by
  induction items with
  | nil => simp [subvaluesOfItems]
  | cons v vs ih => simp [subvaluesOfItems, ih]

theorem mem_subvaluesOfMembers {members : List (Text × Json)} {w : Json} :
    w ∈ subvaluesOfMembers members ↔ ∃ m ∈ members, w ∈ m.2.subvalues := by
  induction members with
  | nil => simp [subvaluesOfMembers]
  | cons m ms ih =>
    obtain ⟨k, v⟩ := m
    simp [subvaluesOfMembers, ih]

/-- The value and all that it holds satisfy the property. -/
def Everywhere (p : Json → Prop) (v : Json) : Prop := ∀ w ∈ v.subvalues, p w

section Everywhere

variable {p : Json → Prop} {v : Json} {items : List Json} {members : Record Json}

theorem Everywhere.self (h : v.Everywhere p) : p v := h v (mem_subvalues_self v)

theorem Everywhere.of_mem_items (h : (list items).Everywhere p) (hv : v ∈ items) :
    v.Everywhere p := by
  intro w hw
  refine h w ?_
  rw [subvalues]
  exact List.mem_cons_of_mem _ (mem_subvaluesOfItems.2 ⟨v, hv, hw⟩)

theorem Everywhere.of_mem_members (h : (object members).Everywhere p) {m : Text × Json}
    (hm : m ∈ members) : m.2.Everywhere p := by
  intro w hw
  refine h w ?_
  rw [subvalues]
  exact List.mem_cons_of_mem _ (mem_subvaluesOfMembers.2 ⟨m, hm, hw⟩)

theorem everywhere_list (h : p (list items)) (hi : ∀ v ∈ items, v.Everywhere p) :
    (list items).Everywhere p := by
  intro w hw
  rw [subvalues, List.mem_cons, mem_subvaluesOfItems] at hw
  rcases hw with rfl | ⟨v, hv, hw⟩
  · exact h
  · exact hi v hv w hw

theorem everywhere_object (h : p (object members)) (hm : ∀ m ∈ members, m.2.Everywhere p) :
    (object members).Everywhere p := by
  intro w hw
  rw [subvalues, List.mem_cons, mem_subvaluesOfMembers] at hw
  rcases hw with rfl | ⟨m, hmem, hw⟩
  · exact h
  · exact hm m hmem w hw

/-- The value holds no others. -/
def isAtom : Json → Bool
  | list _ => false
  | object _ => false
  | _ => true

theorem everywhere_of_isAtom (ha : v.isAtom) (h : p v) : v.Everywhere p := by
  intro w hw
  cases v <;> simp_all [subvalues, isAtom]

end Everywhere

/-! ## Values that are read -/

/-- A word or a number stands for a value that holds no others. -/
theorem scalar_cases {dialect : Dialect} {t rest : Text} {v : Json}
    (h : scalar dialect t = .ok (v, rest)) :
    (∃ w ∈ wordValues dialect, w.2 = v) ∨ ∃ numeral, ofNumeral numeral = .ok v := by
  unfold scalar at h
  split at h
  · rename_i r hr
    obtain rfl := Except.ok.inj h
    obtain ⟨w, hw, hr⟩ := List.exists_of_findSome?_eq_some hr
    obtain ⟨rest', -, hr⟩ := Option.map_eq_some_iff.1 hr
    exact .inl ⟨w, hw, (Prod.mk.inj hr).1⟩
  · obtain ⟨⟨numeral, t₁⟩, -, h⟩ := bind_eq_ok_iff.1 h
    obtain ⟨w, hw, h⟩ := bind_eq_ok_iff.1 h
    obtain ⟨rfl, -⟩ := Prod.mk.inj (Except.ok.inj h)
    exact .inr ⟨numeral, hw⟩

theorem isAtom_of_ofNumeral {numeral : Numeral} {v : Json} (h : ofNumeral numeral = .ok v) :
    v.isAtom := by
  unfold ofNumeral at h
  split_ifs at h <;> obtain rfl := Except.ok.inj h <;> rfl

theorem isAtom_of_scalar {dialect : Dialect} {t rest : Text} {v : Json}
    (h : scalar dialect t = .ok (v, rest)) : v.isAtom := by
  obtain ⟨w, hw, rfl⟩ | ⟨numeral, h⟩ := scalar_cases h
  · have hall : ∀ w ∈ wordValues dialect, w.2.isAtom := by
      unfold wordValues
      split_ifs <;> simp [isAtom]
    exact hall w hw
  · exact isAtom_of_ofNumeral h

section Read

variable {dialect : Dialect} {p : Json → Prop}
  (hscalar : ∀ t v rest, scalar dialect t = .ok (v, rest) → p v) (hstr : ∀ s, p (str s))
  (hlist : ∀ items, p (list items)) (hobject : ∀ pairs, p (object (Record.ofPairs pairs)))

theorem everywhere_of_member {read : Text → Except ReadError (Json × Text)} {t rest : Text}
    {m : Text × Json} (hread : ∀ t v rest, read t = .ok (v, rest) → v.Everywhere p)
    (h : member read t = .ok (m, rest)) : m.2.Everywhere p := by
  obtain ⟨t₁, -, h⟩ := bind_eq_ok_iff.1 h
  obtain ⟨⟨key, t₂⟩, -, h⟩ := bind_eq_ok_iff.1 h
  obtain ⟨t₃, -, h⟩ := bind_eq_ok_iff.1 h
  obtain ⟨⟨v, t₄⟩, hv, h⟩ := bind_eq_ok_iff.1 h
  obtain ⟨rfl, -⟩ := Prod.mk.inj (Except.ok.inj h)
  exact hread _ _ _ hv

include hscalar hstr hlist hobject

theorem everywhere_of_value {n : Nat} {t rest : Text} {v : Json}
    (h : value dialect n t = .ok (v, rest)) : v.Everywhere p := by
  induction n generalizing t rest v with
  | zero => cases h
  | succ n ih =>
    cases t with
    | nil => cases h
    | cons c t =>
      rw [value] at h
      split_ifs at h
      · obtain ⟨⟨s, t₁⟩, -, h⟩ := bind_eq_ok_iff.1 h
        obtain ⟨rfl, -⟩ := Prod.mk.inj (Except.ok.inj h)
        exact everywhere_of_isAtom rfl (hstr s)
      · obtain ⟨⟨items, t₁⟩, hi, h⟩ := bind_eq_ok_iff.1 h
        obtain ⟨rfl, -⟩ := Prod.mk.inj (Except.ok.inj h)
        exact everywhere_list (hlist items) (forall_mem_of_bracketed (fun _ _ _ hv => ih hv) hi)
      · obtain ⟨⟨pairs, t₁⟩, hp, h⟩ := bind_eq_ok_iff.1 h
        obtain ⟨rfl, -⟩ := Prod.mk.inj (Except.ok.inj h)
        have hmem : ∀ m ∈ pairs, m.2.Everywhere p :=
          forall_mem_of_bracketed (fun _ _ _ hm => everywhere_of_member (fun _ _ _ h => ih h) hm) hp
        exact everywhere_object (hobject pairs) fun m hm => hmem m (Record.mem_of_mem_ofPairs hm)
      · exact everywhere_of_isAtom (isAtom_of_scalar h) (hscalar _ _ _ h)

/-- What holds of every value that is formed holds everywhere in what is read. -/
theorem everywhere_of_read {t : Text} {v : Json} (h : read dialect t = .ok v) :
    v.Everywhere p := by
  obtain ⟨⟨w, rest⟩, hw, h⟩ := bind_eq_ok_iff.1 h
  dsimp only at h
  split_ifs at h
  obtain rfl := Except.ok.inj h
  exact everywhere_of_value hscalar hstr hlist hobject hw

end Read

/-! ## Objects -/

/-- Every object in the value has distinct keys. -/
def KeysDistinct (v : Json) : Prop :=
  ∀ members, .object members ∈ v.subvalues → (Record.keys members).Nodup

theorem KeysDistinct.nodup {members : Record Json} (h : (object members).KeysDistinct) :
    members.keys.Nodup :=
  h members (mem_subvalues_self _)

theorem KeysDistinct.of_mem {members : Record Json} (h : (object members).KeysDistinct)
    {m : Text × Json} (hm : m ∈ members) : m.2.KeysDistinct := by
  intro members' hm'
  refine h members' ?_
  rw [subvalues]
  exact List.mem_cons_of_mem _ (mem_subvaluesOfMembers.2 ⟨m, hm, hm'⟩)

theorem keysDistinct_of_read {dialect : Dialect} {t : Text} {v : Json}
    (h : read dialect t = .ok v) : v.KeysDistinct := by
  have hv := everywhere_of_read
    (p := fun w => ∀ members, w = .object members → (Record.keys members).Nodup)
    (fun t w rest hw members e => by cases e ▸ isAtom_of_scalar hw) (fun s members e => by cases e)
    (fun items members e => by cases e)
    (fun pairs members e => by cases e; exact Record.nodup_keys_ofPairs pairs) h
  exact fun members hm => hv _ hm members rfl

end Json

end QueryDiagram
