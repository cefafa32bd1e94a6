import Mathlib.Data.List.Forall2
import QueryDiagram.Logged

/-!
# Laws of results with warnings

Computations that may warn and may fail form a lawful monad. A computation of two steps succeeds
exactly if both steps do (`outcome_bind_eq_ok_iff`), and one over a list exactly if every step
does (`outcome_mapM_eq_ok_iff`). Computations whose results have the same images agree on errors
and warnings (`agree_of_map_eq_map`). Replacing every result of a step by its image under a function
replaces the results of the list by their images (`map_mapM_of_forall`).
-/

namespace QueryDiagram

namespace Logged

variable {ε ε' α β γ : Type}

theorem ext {a b : Logged ε α} (hw : a.warnings = b.warnings) (ho : a.outcome = b.outcome) :
    a = b := by
  obtain ⟨w, o⟩ := a
  obtain ⟨w', o'⟩ := b
  simp_all

@[simp]
theorem warnings_ofExcept (r : Except ε α) : (ofExcept r).warnings = [] := rfl

@[simp]
theorem outcome_ofExcept (r : Except ε α) : (ofExcept r).outcome = r := rfl

instance : LawfulMonad (Logged ε) := LawfulMonad.mk' _
  (by
    rintro α ⟨w, o⟩
    cases o <;> simp [Functor.map, Logged.bind])
  (by
    intro α β x f
    exact (bind_of_ok rfl f).trans (ext (List.nil_append _) rfl))
  (by
    rintro α β γ ⟨w, o⟩ f g
    rcases o with e | v
    · rfl
    · change Logged.bind (Logged.bind _ _) _ = Logged.bind _ _
      rcases hf : (f v).outcome with e | u <;> simp [Logged.bind, bind, hf])

/-! ## Images of results -/

@[simp]
theorem warnings_map (f : α → β) (a : Logged ε α) : (f <$> a).warnings = a.warnings := by
  obtain ⟨w, o⟩ := a
  cases o <;> simp [Functor.map, Logged.bind]

@[simp]
theorem outcome_map (f : α → β) (a : Logged ε α) : (f <$> a).outcome = a.outcome.map f := by
  obtain ⟨w, o⟩ := a
  cases o <;> rfl

theorem mapError_map (g : ε → ε') (f : α → β) (a : Logged ε α) :
    (f <$> a).mapError g = f <$> a.mapError g := by
  obtain ⟨w, o⟩ := a
  cases o <;> simp [Functor.map, Logged.bind, mapError, Except.mapError]

/-! ## Computations that agree -/

/-- Both fail with the same error or both succeed with related results, after the same
warnings. -/
inductive Agree (r : α → β → Prop) : Logged ε α → Logged ε β → Prop
  | error {warnings e} : Agree r ⟨warnings, .error e⟩ ⟨warnings, .error e⟩
  | ok {warnings v w} (h : r v w) : Agree r ⟨warnings, .ok v⟩ ⟨warnings, .ok w⟩

theorem agree_of_map_eq_map {a : Logged ε α} {b : Logged ε β} {f : α → γ} {g : β → γ}
    {r : α → β → Prop} (h : f <$> a = g <$> b)
    (hr : ∀ v w, a.outcome = .ok v → b.outcome = .ok w → f v = g w → r v w) : Agree r a b := by
  have hw := congrArg warnings h
  have ho := congrArg outcome h
  rw [warnings_map, warnings_map] at hw
  rw [outcome_map, outcome_map] at ho
  obtain ⟨ws, a⟩ := a
  obtain ⟨ws', b⟩ := b
  obtain rfl : ws = ws' := hw
  rcases a with e | v <;> rcases b with e' | w <;> simp only [Except.map] at ho
  · obtain rfl := Except.error.inj ho
    exact .error
  · cases ho
  · cases ho
  · exact .ok (hr v w rfl rfl (Except.ok.inj ho))

/-! ## Success -/

theorem outcome_bind_eq_ok_iff {a : Logged ε α} {f : α → Logged ε β} {w : β} :
    (a >>= f).outcome = .ok w ↔ ∃ v, a.outcome = .ok v ∧ (f v).outcome = .ok w := by
  rcases h : a.outcome with e | v
  · rw [bind_of_error h]
    simp
  · rw [bind_of_ok h]
    simp

/-- A second step adds its warnings to those of a first that succeeds. -/
theorem warnings_bind_of_ok {a : Logged ε α} {v : α} (h : a.outcome = .ok v)
    (f : α → Logged ε β) : (a >>= f).warnings = a.warnings ++ (f v).warnings := by
  rw [bind_of_ok h]

theorem outcome_mapM_eq_ok_iff {f : α → Logged ε β} {xs : List α} {ys : List β} :
    (xs.mapM f).outcome = .ok ys ↔ List.Forall₂ (fun x y => (f x).outcome = .ok y) xs ys := by
  induction xs generalizing ys with
  | nil => cases ys <;> simp
  | cons x xs ih =>
    simp only [List.mapM_cons, outcome_bind_eq_ok_iff, outcome_pure, Except.ok.injEq, ih]
    constructor
    · rintro ⟨y, hy, ys', hys, rfl⟩
      exact .cons hy hys
    · intro h
      cases h with
      | cons hy hys => exact ⟨_, hy, _, hys, rfl⟩

/-! ## Steps that agree -/

theorem mapM_congr {f g : α → Logged ε β} {xs : List α} (h : ∀ x ∈ xs, f x = g x) :
    xs.mapM f = xs.mapM g := by
  induction xs with
  | nil => rfl
  | cons x xs ih =>
    rw [List.mapM_cons, List.mapM_cons, h x List.mem_cons_self,
      ih fun y hy => h y (List.mem_cons_of_mem _ hy)]

theorem map_mapM_of_forall {f : α → Logged ε β} {g : α → Logged ε γ} {r : β → γ} {xs : List α}
    (h : ∀ x ∈ xs, r <$> f x = g x) : List.map r <$> xs.mapM f = xs.mapM g := by
  induction xs with
  | nil => simp
  | cons x xs ih =>
    rw [List.mapM_cons, List.mapM_cons, ← h x List.mem_cons_self,
      ← ih fun y hy => h y (List.mem_cons_of_mem _ hy)]
    simp

end Logged

end QueryDiagram
