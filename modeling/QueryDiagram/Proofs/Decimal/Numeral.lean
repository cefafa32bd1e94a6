import Mathlib.Data.List.Basic
import Mathlib.Data.List.Induction
import Mathlib.Data.List.TakeDrop
import Mathlib.Tactic.IntervalCases
import Mathlib.Tactic.Ring
import QueryDiagram.Decimal.Numeral

/-!
# Numerals that are read back

A run of digits has the value of its parts (`Text.digitsValue_append`), and the digits of a number
have its value. A numeral that is spelled by its parts and does not run on into what follows is
read as these parts (`Numeral.read?_of_parts`), an integer as itself (`Numeral.read?_ofInt`).
-/

namespace QueryDiagram

namespace Text

/-! ## Runs of digits -/

/-- Nothing but digits. -/
def IsDigits (t : Text) : Prop := ∀ c ∈ t, c.isDigit

instance (t : Text) : Decidable t.IsDigits := inferInstanceAs (Decidable (∀ c ∈ t, c.isDigit))

theorem IsDigits.append {s t : Text} (hs : s.IsDigits) (ht : t.IsDigits) : IsDigits (s ++ t) :=
  fun c hc => (List.mem_append.1 hc).elim (hs c) (ht c)

theorem IsDigits.of_subset {s t : Text} (ht : t.IsDigits) (h : s ⊆ t) : s.IsDigits :=
  fun c hc => ht c (h hc)

theorem isDigits_zeros (n : Nat) : (zeros n).IsDigits := by
  intro c hc
  obtain rfl := List.eq_of_mem_replicate hc
  rfl

theorem isDigits_ofNat (n : Nat) : (ofNat n).IsDigits := by
  intro c hc
  obtain ⟨d, hd, rfl⟩ := List.mem_map.1 hc
  exact Nat.isDigit_of_mem_toDigits (by decide) (by decide) hd

theorem ofNat_ne_nil (n : Nat) : ofNat n ≠ [] := by
  simp [ofNat, Nat.toDigits_ne_nil]

theorem foldl_digitsValue (n : Nat) (t : Text) :
    t.foldl (fun n c => n * 10 + c.digitValue) n = n * 10 ^ t.length + digitsValue t := by
  unfold digitsValue
  induction t generalizing n with
  | nil => simp
  | cons c t ih =>
    rw [List.foldl_cons, ih, List.foldl_cons, ih (0 * 10 + c.digitValue), List.length_cons]
    ring

theorem digitsValue_append (s t : Text) :
    digitsValue (s ++ t) = digitsValue s * 10 ^ t.length + digitsValue t := by
  rw [digitsValue, List.foldl_append, foldl_digitsValue]
  rfl

@[simp]
theorem digitsValue_zeros (n : Nat) : digitsValue (zeros n) = 0 := by
  induction n with
  | zero => rfl
  | succ n ih => rw [zeros, List.replicate_succ', digitsValue_append, ← zeros, ih]; rfl

@[simp]
theorem digitsValue_ofNat (n : Nat) : digitsValue (ofNat n) = n := by
  have hdigit : ∀ (m : Nat), ∀ c ∈ Nat.toDigits 10 n,
      m * 10 + (CodePoint.scalar c).digitValue = 10 * m + (c.toNat - '0'.toNat) := by
    intro m c hc
    rw [CodePoint.digitValue, if_pos (Nat.isDigit_of_mem_toDigits (by decide) (by decide) hc),
      Nat.mul_comm]
  rw [digitsValue, ofNat, List.foldl_map, List.foldl_ext _ _ _ hdigit,
    ← Nat.ofDigitChars_eq_foldl, Nat.ofDigitChars_ten_toDigits]

theorem digitValue_lt (c : CodePoint) : c.digitValue < 10 := by
  unfold CodePoint.digitValue
  split
  · split_ifs with h
    · have hc := (Char.isDigit_iff_toNat.1 h).2
      rw [show '9'.toNat = 57 from rfl] at hc
      rw [show '0'.toNat = 48 from rfl]
      omega
    · decide
  · decide

theorem digitsValue_lt (t : Text) : digitsValue t < 10 ^ t.length := by
  induction t using List.reverseRecOn with
  | nil => decide
  | append_singleton t c ih =>
    have hc : digitsValue [c] < 10 := (Nat.zero_add _).trans_lt (digitValue_lt c)
    rw [digitsValue_append, List.length_append, List.length_singleton, Nat.pow_succ]
    omega

/-- The digits of the value of a run of digits are no more than it has. -/
theorem length_ofNat_digitsValue_le {t : Text} {k : Nat} (ht : t.length ≤ k) (hk : 0 < k) :
    (ofNat (digitsValue t)).length ≤ k := by
  rw [ofNat, List.length_map, Nat.length_toDigits_le_iff (by decide) hk]
  exact (digitsValue_lt t).trans_le (Nat.pow_le_pow_right (by decide) ht)

/-- The digits of a positive number do not begin with a zero. -/
theorem head?_ofNat_ne {n : Nat} (hn : n ≠ 0) : (ofNat n).head? ≠ some (.scalar '0') := by
  induction n using Nat.strong_induction_on with
  | _ n ih =>
    rcases Nat.lt_or_ge n 10 with h | h
    · interval_cases n <;> first | exact absurd rfl hn | decide
    · rw [ofNat, Nat.toDigits_of_base_le (by decide) h, List.map_append,
        List.head?_append_of_ne_nil _ (by simp [Nat.toDigits_ne_nil])]
      exact ih (n / 10) (by omega) (by omega)

/-- The digits write the number, without a zero in front. -/
structure Writes (digits : Text) (n : Nat) : Prop where
  isDigits : digits.IsDigits
  ne_nil : digits ≠ []
  head : digits.head? ≠ some (.scalar '0')
  value : digits.digitsValue = n

theorem writes_ofNat {n : Nat} (hn : n ≠ 0) : (ofNat n).Writes n :=
  ⟨isDigits_ofNat n, ofNat_ne_nil n, head?_ofNat_ne hn, digitsValue_ofNat n⟩

section Writes

variable {digits : Text} {n : Nat} (h : digits.Writes n)
include h

theorem Writes.length_pos : 0 < digits.length := List.length_pos_iff.2 h.ne_nil

theorem Writes.isDigits_take (k : Nat) : IsDigits (digits.take k) :=
  h.isDigits.of_subset (List.take_subset k digits)

theorem Writes.isDigits_drop (k : Nat) : IsDigits (digits.drop k) :=
  h.isDigits.of_subset (List.drop_subset k digits)

theorem Writes.take_ne_nil {k : Nat} (hk : 0 < k) : digits.take k ≠ [] := by
  have := h.length_pos
  exact List.ne_nil_of_length_pos (by rw [List.length_take]; omega)

theorem Writes.head_take {k : Nat} (hk : 0 < k) :
    (digits.take k).head? ≠ some (.scalar '0') := by
  rw [List.head?_take, if_neg (by omega)]
  exact h.head

end Writes

end Text

namespace Numeral

/-! ## Parts of a numeral -/

/-- The text does not continue a numeral in front of it. -/
def Ends (t : Text) : Prop :=
  ∀ c ∈ t.head?, c.isDigit = false ∧ c ≠ '.' ∧ c ≠ 'e' ∧ c ≠ 'E'

variable {t rest whole digits : Text}

theorem digits?_append (hd : digits.IsDigits) (hne : digits ≠ [])
    (hr : ∀ c ∈ rest.head?, c.isDigit = false) :
    digits? (digits ++ rest) = some (digits, rest) := by
  have hspan : (digits ++ rest).span CodePoint.isDigit = (digits, rest) := by
    rw [List.span_eq_takeWhile_dropWhile, List.takeWhile_append_of_pos hd,
      List.dropWhile_append_of_pos hd]
    cases rest with
    | nil => simp
    | cons c rest => simp [hr c rfl]
  obtain ⟨d, ds, rfl⟩ := List.exists_cons_of_ne_nil hne
  rw [digits?, hspan]

/-- Digits before the point: a zero, or a run that does not begin with one. -/
theorem whole?_append (hd : whole.IsDigits) (hne : whole ≠ [])
    (hz : whole = [.scalar '0'] ∨ whole.head? ≠ some (.scalar '0'))
    (hr : ∀ c ∈ rest.head?, c.isDigit = false) :
    whole? (whole ++ rest) = some (whole, rest) := by
  rcases hz with rfl | hz
  · rfl
  · obtain ⟨d, ds, rfl⟩ := List.exists_cons_of_ne_nil hne
    rw [List.cons_append, whole?, ← List.cons_append, digits?_append hd hne hr]
    intro rest e
    exact hz (congrArg List.head? e)

theorem fraction?_of_ends (h : Ends t) : fraction? t = (none, t) := by
  cases t with
  | nil => rfl
  | cons c t =>
    rw [fraction?]
    intro rest e
    exact (h c rfl).2.1 (List.cons.inj e).1

theorem fraction?_append (hd : digits.IsDigits) (hne : digits ≠ [])
    (hr : ∀ c ∈ rest.head?, c.isDigit = false) :
    fraction? (.scalar '.' :: (digits ++ rest)) = (some digits, rest) := by
  rw [fraction?, digits?_append hd hne hr]

theorem exponent?_of_ends (h : Ends t) : exponent? t = (none, t) := by
  cases t with
  | nil => rfl
  | cons c t => rw [exponent?, if_neg fun hc => hc.elim (h _ rfl).2.2.1 (h _ rfl).2.2.2]

theorem exponent?_append (negative : Bool) (hd : digits.IsDigits) (hne : digits ≠ [])
    (hr : Ends rest) :
    exponent? (.scalar 'e' :: .scalar (if negative then '-' else '+') :: (digits ++ rest)) =
      (some (if negative then -(digits.digitsValue : Int) else digits.digitsValue), rest) := by
  rw [exponent?, if_pos (.inl rfl)]
  cases negative <;> simp [exponentSign, digits?_append hd hne fun c hc => (hr c hc).1]

theorem whole?_minus (t : Text) : whole? (.scalar '-' :: t) = none := by
  rw [whole?, digits?, List.span_eq_takeWhile_dropWhile]
  · rfl
  · intro rest e
    cases (List.cons.inj e).1

/-- A numeral is read part by part. -/
theorem read?_of_parts {t₁ t₂ t₃ : Text} {fraction : Option Text} {exponent : Option Int}
    (hw : whole? t = some (whole, t₁)) (hf : fraction? t₁ = (fraction, t₂))
    (he : exponent? t₂ = (exponent, t₃)) :
    read? t = some (⟨false, whole, fraction, exponent⟩, t₃) ∧
      read? (.scalar '-' :: t) = some (⟨true, whole, fraction, exponent⟩, t₃) := by
  constructor
  · unfold read?
    split
    · rename_i heq
      split at heq
      · exact absurd hw (by simp [whole?_minus])
      · cases heq
        simp [hw, hf, he]
  · simp [read?, hw, hf, he]

theorem exists_cons_of_digits? (h : digits? t = some (digits, rest)) :
    ∃ c t', t = .scalar c :: t' ∧ c.isDigit := by
  rw [digits?, List.span_eq_takeWhile_dropWhile] at h
  cases t with
  | nil => cases h
  | cons c t =>
    cases c with
    | surrogate s => cases h
    | scalar c =>
      refine ⟨c, t, rfl, ?_⟩
      by_contra hc
      rw [List.takeWhile_cons_of_neg (by exact hc)] at h
      cases h

theorem exists_cons_of_whole? (h : whole? t = some (whole, rest)) :
    ∃ c t', t = .scalar c :: t' ∧ c.isDigit := by
  unfold whole? at h
  split at h
  · exact ⟨'0', _, rfl, by decide⟩
  · exact exists_cons_of_digits? h

/-- A numeral begins with a digit or a minus sign. -/
theorem exists_cons_of_read? {numeral : Numeral} (h : read? t = some (numeral, rest)) :
    ∃ c t', t = .scalar c :: t' ∧ (c.isDigit ∨ c = '-') := by
  unfold read? at h
  split at h
  rename_i heq
  split at heq
  · exact ⟨'-', _, rfl, .inr rfl⟩
  · obtain ⟨-, rfl⟩ := Prod.mk.inj heq
    split at h
    · cases h
    · rename_i hw
      obtain ⟨c, t', rfl, hc⟩ := exists_cons_of_whole? hw
      exact ⟨c, t', rfl, .inl hc⟩

/-! ## Integers -/

theorem whole?_ofNat (n : Nat) (hr : ∀ c ∈ rest.head?, c.isDigit = false) :
    whole? (Text.ofNat n ++ rest) = some (Text.ofNat n, rest) := by
  refine whole?_append (Text.isDigits_ofNat n) (Text.ofNat_ne_nil n) ?_ hr
  rcases Nat.eq_zero_or_pos n with rfl | hn
  · exact .inl rfl
  · exact .inr (Text.head?_ofNat_ne hn.ne')

/-- An integer is read back as it was written. -/
theorem read?_ofInt (n : Int) (hr : Ends rest) :
    ∃ numeral, read? (Text.ofInt n ++ rest) = some (numeral, rest) ∧ numeral.isInteger ∧
      numeral.toInt = n ∧ numeral.whole = Text.ofNat n.natAbs := by
  have parts : ∀ m, read? (Text.ofNat m ++ rest) = some (⟨false, Text.ofNat m, none, none⟩, rest) ∧
      read? (.scalar '-' :: (Text.ofNat m ++ rest)) =
        some (⟨true, Text.ofNat m, none, none⟩, rest) := fun m =>
    read?_of_parts (whole?_ofNat m fun c hc => (hr c hc).1) (fraction?_of_ends hr)
      (exponent?_of_ends hr)
  cases n with
  | ofNat n => exact ⟨_, (parts n).1, rfl, by simp [toInt], rfl⟩
  | negSucc n =>
    refine ⟨_, (parts (n + 1)).2, rfl, ?_, rfl⟩
    simp [toInt, Int.negSucc_eq]

end Numeral

end QueryDiagram
