import QueryDiagram.Proofs.Decimal.Numeral
import QueryDiagram.Proofs.Json.Reading
import QueryDiagram.Proofs.Text.Encoding

/-!
# JSON that is read of octets

Whatever is not refused as malformed begins with an ASCII character, and not with zeros
(`Json.beginsPlainly_of_read`). So its octets tell the encoding, and JSON is read of them exactly
if they spell, in one of the encodings and with or without a mark, a text that is read as such
(`Json.exists_ofJsonBytes?_read_iff`).
-/

namespace QueryDiagram

namespace Json

variable {dialect : Dialect} {c : CodePoint} {t rest : Text} {n : Nat}

/-! ## Words and numbers -/

theorem eq_append_of_word? {w : List Char} (h : word? w t = some rest) :
    t = w.map .scalar ++ rest := by
  fun_induction word? w t with
  | case1 t => exact Option.some.inj h
  | case2 a w t ih => rw [ih h, List.map_cons, List.cons_append]
  | case3 => cases h
  | case4 => cases h

/-- A word begins with two letters, or with a minus sign and a letter. -/
theorem exists_letters_of_mem_wordValues {w : String × Json} (hw : w ∈ wordValues dialect) :
    ∃ a b l, w.1.toList = a :: b :: l ∧ (0x20 < a.toNat ∧ a.toNat < 0x80) ∧ b ≠ '\x00' := by
  rcases List.mem_append.1 hw with hw | hw
  · simp only [List.mem_cons, List.not_mem_nil, or_false] at hw
    rcases hw with rfl | rfl | rfl <;> exact ⟨_, _, _, rfl, by decide, by decide⟩
  · split at hw
    · simp only [List.mem_cons, List.not_mem_nil, or_false] at hw
      rcases hw with rfl | rfl | rfl <;> exact ⟨_, _, _, rfl, by decide, by decide⟩
    · cases hw

theorem exists_letters_of_wordValue? {r : Json × Text} (h : wordValue? dialect t = some r) :
    ∃ a b t', t = .scalar a :: .scalar b :: t' ∧ (0x20 < a.toNat ∧ a.toNat < 0x80) ∧
      b ≠ '\x00' := by
  obtain ⟨w, hw, h⟩ := List.exists_of_findSome?_eq_some h
  obtain ⟨rest, hrest, -⟩ := Option.map_eq_some_iff.1 h
  obtain ⟨a, b, l, hl, ha, hb⟩ := exists_letters_of_mem_wordValues hw
  refine ⟨a, b, l.map .scalar ++ rest, ?_, ha, hb⟩
  rw [eq_append_of_word? hrest, hl]
  rfl

theorem digits?_nul (t : Text) : Numeral.digits? (.scalar '\x00' :: t) = none := by
  rw [Numeral.digits?, List.span_eq_takeWhile_dropWhile]
  rfl

theorem whole?_cons_nul {c : CodePoint} {ds t rest : Text}
    (h : Numeral.whole? (c :: .scalar '\x00' :: t) = some (ds, rest)) :
    ds.length = 1 ∧ rest = .scalar '\x00' :: t := by
  unfold Numeral.whole? at h
  split at h
  · rename_i rest' heq
    obtain ⟨-, rfl⟩ := List.cons.inj heq
    obtain ⟨rfl, rfl⟩ := Prod.mk.inj (Option.some.inj h)
    exact ⟨rfl, rfl⟩
  · rw [Numeral.digits?, List.span_eq_takeWhile_dropWhile] at h
    cases hc : c.isDigit with
    | false => simp [hc] at h
    | true =>
      have hnul : CodePoint.isDigit (.scalar '\x00') = false := rfl
      simp [hc, hnul] at h
      obtain ⟨rfl, rfl⟩ := h
      exact ⟨rfl, rfl⟩

/-- A numeral in front of a zero is a single digit. -/
theorem read?_cons_nul {c : CodePoint} {numeral : Numeral} {t rest : Text}
    (h : Numeral.read? (c :: .scalar '\x00' :: t) = some (numeral, rest)) :
    numeral.isInteger ∧ numeral.whole.length = 1 ∧ rest = .scalar '\x00' :: t := by
  unfold Numeral.read? at h
  split at h
  rename_i heq
  split at heq
  · obtain ⟨-, rfl⟩ := Prod.mk.inj heq
    rename_i heq'
    obtain ⟨-, rfl⟩ := List.cons.inj heq'
    have hnone : Numeral.whole? (.scalar '\x00' :: t) = none := digits?_nul t
    rw [hnone] at h
    cases h
  · obtain ⟨-, rfl⟩ := Prod.mk.inj heq
    split at h
    · cases h
    · rename_i hw
      obtain ⟨hlength, rfl⟩ := whole?_cons_nul hw
      obtain ⟨rfl, rfl⟩ := Prod.mk.inj (Option.some.inj h)
      exact ⟨rfl, hlength, rfl⟩

/-! ## Values -/

/-- A word or a number begins with an ASCII character that can be seen. -/
theorem exists_cons_of_scalar (h : scalar dialect t ≠ .error .malformed) :
    ∃ c t', t = c :: t' ∧ 0x20 < c.val ∧ c.val < 0x80 := by
  unfold scalar at h
  split at h
  · rename_i r hword
    obtain ⟨a, b, t', rfl, ha, -⟩ := exists_letters_of_wordValue? hword
    exact ⟨_, _, rfl, ha⟩
  · cases hnumeral : Numeral.read? t with
    | none => exact absurd (by rw [number, hnumeral]; rfl) h
    | some r =>
      obtain ⟨d, t', rfl, hd⟩ := Numeral.exists_cons_of_read? hnumeral
      refine ⟨_, _, rfl, ?_⟩
      rcases hd with hd | rfl
      · obtain ⟨hzero, hnine⟩ := Char.isDigit_iff_toNat.1 hd
        exact ⟨Nat.lt_of_lt_of_le (by decide) hzero, Nat.lt_of_le_of_lt hnine (by decide)⟩
      · decide

/-- A value begins with an ASCII character that can be seen. -/
theorem exists_cons_of_value (h : value dialect n t ≠ .error .malformed) :
    ∃ c t', t = c :: t' ∧ 0x20 < c.val ∧ c.val < 0x80 := by
  cases n with
  | zero => exact absurd rfl h
  | succ n =>
    cases t with
    | nil => exact absurd rfl h
    | cons c t =>
      rw [value] at h
      split_ifs at h with hstring hlist hobject
      · exact ⟨c, t, rfl, by subst hstring; decide⟩
      · exact ⟨c, t, rfl, by subst hlist; decide⟩
      · exact ⟨c, t, rfl, by subst hobject; decide⟩
      · exact exists_cons_of_scalar h

theorem value_nul (t : Text) (n : Nat) :
    value dialect n (.scalar '\x00' :: t) = .error .malformed := by
  by_contra h
  obtain ⟨c, t', ht, hc, -⟩ := exists_cons_of_value h
  obtain ⟨rfl, -⟩ := List.cons.inj ht
  exact absurd hc (by decide)

theorem bracketed_nul {α : Type} {item : Text → Except ReadError (α × Text)} {close : Char}
    (hclose : close ≠ '\x00') (hitem : item (.scalar '\x00' :: t) = .error .malformed) :
    bracketed item close (.scalar '\x00' :: t) = .error .malformed := by
  have hskip : skipSpace (.scalar '\x00' :: t) = .scalar '\x00' :: t := rfl
  rw [bracketed, hskip]
  simp only [CodePoint.scalar.injEq, hclose.symm, if_false, sequence, hitem]
  rfl

theorem stringRest?_nul (read t : Text) : stringRest? read (.scalar '\x00' :: t) = none := by
  rw [stringRest?]
  rfl

/-- A word or a number in front of a zero ends before it, if it is one. -/
theorem scalar_cons_nul (dialect : Dialect) (c : CodePoint) (t : Text) :
    scalar dialect (c :: .scalar '\x00' :: t) = .error .malformed ∨
      ∃ v, scalar dialect (c :: .scalar '\x00' :: t) = .ok (v, .scalar '\x00' :: t) := by
  have hword : wordValue? dialect (c :: .scalar '\x00' :: t) = none := by
    by_contra hsome
    obtain ⟨r, hr⟩ := Option.ne_none_iff_exists'.1 hsome
    obtain ⟨a, b, t', ht, -, hb⟩ := exists_letters_of_wordValue? hr
    obtain ⟨-, hb'⟩ := List.cons.inj ht
    exact hb (CodePoint.scalar.inj (List.cons.inj hb').1).symm
  rw [scalar, hword]
  change number _ = _ ∨ ∃ v, number _ = _
  cases hnumeral : Numeral.read? (c :: .scalar '\x00' :: t) with
  | none => exact .inl (by rw [number, hnumeral]; rfl)
  | some r =>
    obtain ⟨hint, hlength, hrest⟩ := read?_cons_nul hnumeral
    refine .inr ⟨.int r.1.toInt, ?_⟩
    have hlimit : r.1.whole.length ≤ integerDigitLimit := hlength ▸ by decide
    have hvalue : ofNumeral r.1 = .ok (.int r.1.toInt) := by
      rw [ofNumeral, if_pos hint, if_pos hlimit]
    rw [number, hnumeral, ← hrest]
    change (ofNumeral r.1 >>= fun v => _) = _
    rw [hvalue]
    rfl

/-- A value in front of a zero ends before it, if it is one. -/
theorem value_cons_nul (dialect : Dialect) (c : CodePoint) (t : Text) (n : Nat) :
    value dialect n (c :: .scalar '\x00' :: t) = .error .malformed ∨
      ∃ v, value dialect n (c :: .scalar '\x00' :: t) = .ok (v, .scalar '\x00' :: t) := by
  cases n with
  | zero => exact .inl rfl
  | succ n =>
    rw [value]
    split_ifs
    · rw [stringRest?_nul]
      exact .inl rfl
    · rw [bracketed_nul (by decide) (value_nul t n)]
      exact .inl rfl
    · rw [bracketed_nul (by decide) rfl]
      exact .inl rfl
    · exact scalar_cons_nul dialect c t

/-! ## Texts -/

theorem read_of_value_eq_error {e : ReadError}
    (h : value dialect (t.length + 1) (skipSpace t) = .error e) : read dialect t = .error e := by
  rw [read, h]
  rfl

theorem read_cons_nul (dialect : Dialect) (c : CodePoint) (t : Text) :
    read dialect (c :: .scalar '\x00' :: t) = .error .malformed := by
  by_cases hc : isSpace c
  · have hskip : skipSpace (c :: .scalar '\x00' :: t) = .scalar '\x00' :: t := by
      rw [skipSpace, List.dropWhile_cons_of_pos hc]
      rfl
    exact read_of_value_eq_error (by rw [hskip, value_nul])
  · have hskip : skipSpace (c :: .scalar '\x00' :: t) = c :: .scalar '\x00' :: t :=
      List.dropWhile_cons_of_neg hc
    rcases value_cons_nul dialect c t (t.length + 2 + 1) with h | ⟨v, h⟩
    · exact read_of_value_eq_error (by rw [hskip]; exact h)
    · rw [read, hskip]
      change (value dialect (t.length + 2 + 1) (c :: .scalar '\x00' :: t) >>= fun r => _) = _
      rw [h]
      rfl

/-- What is not refused as malformed begins as JSON does. -/
theorem beginsPlainly_of_read (h : read dialect t ≠ .error .malformed) : t.BeginsPlainly := by
  cases t with
  | nil => exact absurd rfl h
  | cons c t =>
    have hfirst : 0 < c.val ∧ c.val < 0x80 := by
      by_cases hc : isSpace c
      · simp only [isSpace, decide_eq_true_eq] at hc
        rcases hc with rfl | rfl | rfl | rfl <;> decide
      · have hskip : skipSpace (c :: t) = c :: t := List.dropWhile_cons_of_neg hc
        have hvalue : value dialect ((c :: t).length + 1) (c :: t) ≠ .error .malformed :=
          fun hv => h (read_of_value_eq_error (by rw [hskip, hv]))
        obtain ⟨c', t', ht, hlow, hhigh⟩ := exists_cons_of_value hvalue
        obtain ⟨rfl, -⟩ := List.cons.inj ht
        exact ⟨by omega, hhigh⟩
    refine ⟨hfirst.1, hfirst.2, fun d hd => Nat.pos_of_ne_zero fun hzero => ?_⟩
    cases t with
    | nil => cases hd
    | cons d' t =>
      obtain rfl := Option.some.inj hd
      obtain rfl : d' = .scalar '\x00' := CodePoint.val_injective hzero
      exact h (read_cons_nul dialect c t)

/-- JSON is read of octets exactly if they spell a text that is read as such. -/
theorem exists_ofJsonBytes?_read_iff {bytes : ByteArray} {r : Except ReadError Json}
    (hr : r ≠ .error .malformed) :
    (∃ t, Text.ofJsonBytes? bytes = some t ∧ read dialect t = r) ↔
      ∃ t, Encoding.Spells bytes.data.toList t ∧ read dialect t = r := by
  refine exists_congr fun t => and_congr_left fun ht => ?_
  exact Text.ofJsonBytes?_eq_some_iff (beginsPlainly_of_read (ht ▸ hr))

end Json

end QueryDiagram
