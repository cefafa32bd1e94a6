import QueryDiagram.Text.Basic

/-!
# Results with warnings

A computation that may warn and may fail. What it warned of before it failed is kept.
-/

namespace QueryDiagram

/-- What a build warns about, without failing. -/
inductive Warning where
  /-- A fragment whose name was already taken; it replaces the one before it. -/
  | repeatedFragment (name : Text)
  /-- A spread of a fragment inside that fragment. -/
  | recursiveSpread (name : Text)
  /-- A spread of a fragment that the document does not define. -/
  | unknownSpread (name : Text)
  deriving DecidableEq

/-- The text of the warning. -/
def Warning.message : Warning → Text
  | repeatedFragment n => "Fragment '" ++ n ++ "' defined more than once; keeping the last"
  | recursiveSpread n => "Fragment '" ++ n ++ "' spreads itself; not expanded again"
  | unknownSpread n => "Fragment spread '..." ++ n ++ "' has no definition"

/-- An outcome with the warnings that led to it, in order. -/
structure Logged (ε α : Type) where
  warnings : List Warning
  outcome : Except ε α

namespace Logged

variable {ε ε' α β : Type}

/-- An outcome that warns about nothing. -/
def ofExcept (r : Except ε α) : Logged ε α := ⟨[], r⟩

/-- Warns once. -/
def warn (w : Warning) : Logged ε Unit := ⟨[w], .ok ()⟩

/-- Warns in order. -/
def warnAll (ws : List Warning) : Logged ε Unit := ⟨ws, .ok ()⟩

/-- Goes on with the value; what was warned about before an error is kept. -/
protected def bind (a : Logged ε α) (f : α → Logged ε β) : Logged ε β :=
  match a.outcome with
  | .ok v => ⟨a.warnings ++ (f v).warnings, (f v).outcome⟩
  | .error e => ⟨a.warnings, .error e⟩

instance : Monad (Logged ε) where
  pure v := ⟨[], .ok v⟩
  bind := Logged.bind

@[simp]
theorem warnings_pure (v : α) : (pure v : Logged ε α).warnings = [] := rfl

@[simp]
theorem outcome_pure (v : α) : (pure v : Logged ε α).outcome = .ok v := rfl

theorem bind_of_ok {a : Logged ε α} {v : α} (h : a.outcome = .ok v) (f : α → Logged ε β) :
    a >>= f = ⟨a.warnings ++ (f v).warnings, (f v).outcome⟩ := by
  simp [bind, Logged.bind, h]

theorem bind_of_error {a : Logged ε α} {e : ε} (h : a.outcome = .error e) (f : α → Logged ε β) :
    a >>= f = ⟨a.warnings, .error e⟩ := by
  simp [bind, Logged.bind, h]

/-- The same warnings with another error. -/
def mapError (f : ε → ε') (a : Logged ε α) : Logged ε' α := ⟨a.warnings, a.outcome.mapError f⟩

end Logged

end QueryDiagram
