import QueryDiagram.Argument
import QueryDiagram.Proofs.Logged

/-!
# Literals that have values

A conversion meets the integers of its literals at whatever depth they stand. It fails on one that
has too many digits if there is any (`FailsOn`), and never fails otherwise
(`failsOn_argumentRecord`).
-/

namespace QueryDiagram

open GraphQL

/-! ## Integers in literals -/

namespace GraphQL

mutual

/-- The spellings of the integers in a literal, at any depth. -/
def Literal.integers : Literal → List Text
  | .int spelling => [spelling]
  | .list items => integersOfItems items
  | .object fields => integersOfFields fields
  | _ => []

/-- The integers in the items of a list. -/
def integersOfItems : List Literal → List Text
  | [] => []
  | l :: ls => l.integers ++ integersOfItems ls

/-- The integers in the fields of an object. -/
def integersOfFields : List (Text × Literal) → List Text
  | [] => []
  | (_, l) :: fs => l.integers ++ integersOfFields fs

end

/-- The spellings of the integers in the arguments of a field. -/
def Field.integers (f : Field) : List Text := integersOfFields f.arguments

end GraphQL

/-- The number of digits of an integer. -/
def digitCount (spelling : Text) : Nat := (numeralOf spelling).whole.length

/-! ## Conversions that fail -/

/-- Of the spellings that the conversion meets, it fails on one with too many digits if there is
any, and does not fail otherwise. -/
def FailsOn {β : Type} (met : Text → Prop) : Except ConversionError β → Prop
  | .ok _ => ∀ s, met s → digitCount s ≤ integerDigitLimit
  | .error e => ∃ s, met s ∧ integerDigitLimit < digitCount s ∧
      e = .integerTooLong (digitCount s)

section FailsOn

variable {β γ : Type} {met met' : Text → Prop}

theorem FailsOn.congr {r : Except ConversionError β} (h : FailsOn met r)
    (hm : ∀ s, met s ↔ met' s) : FailsOn met' r := by
  obtain rfl : met = met' := funext fun s => propext (hm s)
  exact h

theorem FailsOn.of_error {e : ConversionError}
    (h : FailsOn met (.error e : Except ConversionError β)) :
    ∃ s, met s ∧ integerDigitLimit < digitCount s ∧ e = .integerTooLong (digitCount s) := h

theorem FailsOn.exists_error_iff {r : Except ConversionError β} (h : FailsOn met r) :
    (∃ e, r = .error e) ↔ ∃ s, met s ∧ integerDigitLimit < digitCount s := by
  cases r with
  | error e =>
    obtain ⟨s, hs, hlong, -⟩ := h.of_error
    exact ⟨fun _ => ⟨s, hs, hlong⟩, fun _ => ⟨e, rfl⟩⟩
  | ok b =>
    constructor
    · rintro ⟨e, he⟩
      cases he
    · rintro ⟨s, hs, hlong⟩
      exact absurd (h s hs) (Nat.not_le_of_lt hlong)

theorem failsOn_ok (b : β) : FailsOn (fun _ => False) (.ok b) := nofun

/-- The second step meets its spellings after those of the first. -/
theorem FailsOn.bind {a : Except ConversionError β} {f : β → Except ConversionError γ}
    (ha : FailsOn met a) (hf : ∀ b, FailsOn met' (f b)) :
    FailsOn (fun s => met s ∨ met' s) (a >>= f) := by
  cases a with
  | error e =>
    obtain ⟨s, hs, hlong, he⟩ := ha
    exact ⟨s, .inl hs, hlong, he⟩
  | ok b =>
    have hb := hf b
    change FailsOn _ (f b)
    cases hfb : f b with
    | error e =>
      rw [hfb] at hb
      obtain ⟨s, hs, hlong, he⟩ := hb
      exact ⟨s, .inr hs, hlong, he⟩
    | ok c =>
      rw [hfb] at hb
      exact fun s hs => hs.elim (ha s) (hb s)

theorem FailsOn.map {a : Except ConversionError β} (ha : FailsOn met a) (f : β → γ) :
    FailsOn met (do return f (← a)) :=
  (ha.bind fun b => failsOn_ok (f b)).congr (by simp)

theorem FailsOn.bind_outcome {a : Logged ConversionError β} {f : β → Logged ConversionError γ}
    (ha : FailsOn met a.outcome) (hf : ∀ b, FailsOn met' (f b).outcome) :
    FailsOn (fun s => met s ∨ met' s) (a >>= f).outcome := by
  have h := ha.bind hf
  cases hb : a.outcome with
  | error e =>
    rw [Logged.bind_of_error hb]
    rwa [hb] at h
  | ok b =>
    rw [Logged.bind_of_ok hb]
    rwa [hb] at h

theorem FailsOn.map_outcome {a : Logged ConversionError β} (ha : FailsOn met a.outcome)
    (f : β → γ) : FailsOn met (f <$> a).outcome := by
  rw [Logged.outcome_map]
  cases hb : a.outcome <;> rwa [hb] at ha

theorem failsOn_mapM {f : β → Logged ConversionError γ} {met : β → Text → Prop} (xs : List β)
    (h : ∀ x ∈ xs, FailsOn (met x) (f x).outcome) :
    FailsOn (fun s => ∃ x ∈ xs, met x s) (xs.mapM f).outcome := by
  induction xs with
  | nil => exact (failsOn_ok []).congr (by simp)
  | cons x xs ih =>
    rw [List.mapM_cons]
    have htail := ih fun y hy => h y (List.mem_cons_of_mem _ hy)
    refine ((h x List.mem_cons_self).bind_outcome fun y =>
      htail.bind_outcome fun ys => failsOn_ok (y :: ys)).congr ?_
    simp

end FailsOn

/-! ## Literals -/

namespace ArgumentValue

theorem failsOn_ofInteger (spelling : Text) : FailsOn (· = spelling) (ofInteger spelling) := by
  by_cases h : digitCount spelling ≤ integerDigitLimit
  · rw [show ofInteger spelling = .ok _ from if_pos h]
    rintro s rfl
    exact h
  · rw [show ofInteger spelling = .error _ from if_neg h]
    exact ⟨spelling, rfl, Nat.lt_of_not_le h, rfl⟩

mutual

theorem failsOn_ofLiteral : ∀ l : Literal, FailsOn (· ∈ l.integers) (ofLiteral l)
  | .int spelling => by
    rw [ofLiteral]
    exact (failsOn_ofInteger spelling).congr (by simp [Literal.integers])
  | .list items => by
    rw [ofLiteral]
    exact ((failsOn_ofItems items).map _).congr (by simp [Literal.integers])
  | .object fields => by
    rw [ofLiteral]
    exact ((failsOn_ofFields fields).map _).congr (by simp [Literal.integers])
  | .float _ | .string _ | .boolean _ | .null | .enum _ | .variableRef _ => by
    rw [ofLiteral]
    exact (failsOn_ok _).congr (by simp [Literal.integers])

theorem failsOn_ofItems : ∀ ls : List Literal, FailsOn (· ∈ integersOfItems ls) (ofItems ls)
  | [] => nofun
  | l :: ls => by
    rw [ofItems]
    refine ((failsOn_ofLiteral l).bind fun v => (failsOn_ofItems ls).map _).congr ?_
    simp [integersOfItems]

theorem failsOn_ofFields : ∀ fs : List (Text × Literal),
    FailsOn (· ∈ integersOfFields fs) (ofFields fs)
  | [] => nofun
  | (k, l) :: fs => by
    rw [ofFields]
    refine ((failsOn_ofLiteral l).bind fun v => (failsOn_ofFields fs).map _).congr ?_
    simp [integersOfFields]

end

end ArgumentValue

theorem failsOn_argumentRecord (arguments : List (Text × Literal)) :
    FailsOn (· ∈ integersOfFields arguments) (argumentRecord arguments) :=
  (ArgumentValue.failsOn_ofFields arguments).map _

end QueryDiagram
