import Mathlib
import QueryDiagram.Decimal.Style
import QueryDiagram.Proofs.Decimal.Nearest
import QueryDiagram.Proofs.Decimal.Numeral

/-!
# Doubles that are read back

The shortest decimal of a double has it as its double (`Decimal.toFloat_shortest`), and either
notation spells this decimal (`Decimal.Style.spells_renderPositive`). So a finite double that is
written in any style is read back as itself (`Decimal.Style.read?_render`).
-/

namespace QueryDiagram

namespace Decimal

open Float.Model

/-! ## Shortest decimals -/

@[simp]
theorem value_stripZeros (d : Decimal) (n : ℕ) : (d.stripZeros n).value = d.value := by
  induction n generalizing d with
  | zero => rfl
  | succ n ih =>
    rw [stripZeros]
    split_ifs with h
    · have hc : (d.coefficient : ℚ) = 10 * (d.coefficient / 10 : ℕ) := by
        have hdiv := Nat.div_add_mod d.coefficient 10
        rw [h.2, Nat.add_zero] at hdiv
        exact_mod_cast hdiv.symm
      rw [ih, value, value, hc, zpow_add_one₀ (by norm_num)]
      ring
    · rfl

theorem value_toDecimal {r : Ratio} {k : ℕ} (hr : r.den = 2 ^ k) :
    r.toDecimal.value = r.num / 2 ^ k := by
  rw [Ratio.toDecimal, value, hr, Nat.log2_two_pow, Nat.pow_eq, zpow_neg, zpow_natCast,
    show (10 : ℚ) = 5 * 2 by norm_num, mul_pow]
  push_cast
  field_simp

theorem toFloat_of_onGrid? {x : Float} {r : Ratio} {exponent : ℤ} {d : Decimal}
    (h : onGrid? x r exponent = some d) : d.toFloat = x := by
  unfold onGrid? at h
  dsimp only at h
  split_ifs at h with hbelow habove <;> obtain rfl := Option.some.inj h <;> assumption

theorem toFloat_search {x : Float} {r : Ratio} (h : r.toDecimal.toFloat = x) (n : ℕ)
    (exponent : ℤ) : (search x r n exponent).toFloat = x := by
  induction n generalizing exponent with
  | zero => exact h
  | succ n ih =>
    rw [search]
    cases hd : onGrid? x r exponent with
    | none => exact ih _
    | some d => exact toFloat_of_onGrid? hd

/-- The shortest decimal of a positive double has it as its double. -/
theorem toFloat_shortest {x : Float} {m : ℕ} {e : ℤ} {hm : 0 < m}
    (h : x.toModel.unpack = .finite .positive m e hm) : (shortest x).toFloat = x := by
  obtain ⟨k, hden, hvalue⟩ := Double.exists_ofFloat_eq h
  have hexact : (Ratio.ofFloat x).toDecimal.value = m * 2 ^ e :=
    (value_toDecimal hden).trans hvalue
  have hpos : 0 < (Ratio.ofFloat x).toDecimal.coefficient := by
    refine Nat.pos_of_ne_zero fun h0 => ?_
    have := hexact.symm.trans (value_eq_zero_iff.2 h0)
    exact (by positivity : (m * 2 ^ e : ℚ) ≠ 0) this
  have hread : (Ratio.ofFloat x).toDecimal.toFloat = x := by
    rw [toFloat_eq_nearest hpos, hexact, Double.nearest_of_unpack h]
  rw [shortest, toFloat_congr (value_stripZeros _ _), toFloat_search hread]

theorem coefficient_shortest_ne_zero {x : Float} {m : ℕ} {e : ℤ} {hm : 0 < m}
    (h : x.toModel.unpack = .finite .positive m e hm) : (shortest x).coefficient ≠ 0 := by
  intro h0
  rw [← toFloat_shortest h, toFloat_of_eq_zero h0] at h
  cases h

/-! ## Notations -/

/-- Whatever ends a numeral may follow, the text is read as a numeral of this value; with a minus
sign in front, as its negative. -/
def Spells (t : Text) (d : Decimal) : Prop :=
  ∀ rest, Numeral.Ends rest → ∃ n : Numeral, n.isInteger = false ∧ n.magnitude.value = d.value ∧
    Numeral.read? (t ++ rest) = some ({ n with negative := false }, rest) ∧
    Numeral.read? (.scalar '-' :: (t ++ rest)) = some ({ n with negative := true }, rest)

theorem Spells.congr {t : Text} {d d' : Decimal} (h : Spells t d) (hd : d.value = d'.value) :
    Spells t d' := fun rest hr => by
  obtain ⟨n, hi, hn, hread⟩ := h rest hr
  exact ⟨n, hi, hn.trans hd, hread⟩

namespace Style

variable {whole fraction : Text}

theorem spells_point (hw : whole.IsDigits) (hw' : whole ≠ [])
    (hz : whole = [.scalar '0'] ∨ whole.head? ≠ some (.scalar '0')) (hf : fraction.IsDigits)
    (hf' : fraction ≠ []) :
    Spells (whole ++ "." ++ fraction) ⟨(whole ++ fraction).digitsValue, -fraction.length⟩ := by
  intro rest hr
  refine ⟨⟨false, whole, some fraction, none⟩, rfl, by simp [Numeral.magnitude], ?_⟩
  have ht : whole ++ "." ++ fraction ++ rest = whole ++ (.scalar '.' :: (fraction ++ rest)) := by
    simp [Text.ofString]
  rw [ht]
  exact Numeral.read?_of_parts (Numeral.whole?_append hw hw' hz (by simp; rfl))
    (Numeral.fraction?_append hf hf' fun c hc => (hr c hc).1) (Numeral.exponent?_of_ends hr)

section Positional

variable {digits : Text} {d : Decimal} (h : digits.Writes d.coefficient)
include h

/-- All digits are after the point. -/
theorem spells_small {k : ℕ} (hk : (k : ℤ) + digits.length = -d.exponent) :
    Spells ("0." ++ Text.zeros k ++ digits) d := by
  have hfraction : (Text.zeros k ++ digits).IsDigits := (Text.isDigits_zeros k).append h.isDigits
  have ht : Text.ofString "0." ++ Text.zeros k ++ digits =
      Text.ofString "0" ++ "." ++ (Text.zeros k ++ digits) := by
    simp [Text.ofString]
  have hlength : ((Text.zeros k ++ digits).length : ℤ) = -d.exponent := by
    rw [List.length_append, Text.zeros, List.length_replicate]
    exact_mod_cast hk
  rw [ht]
  refine (spells_point (by decide) (by decide) (.inl rfl) hfraction (by simp [h.ne_nil])).congr ?_
  rw [Text.digitsValue_append, Text.digitsValue_append, Text.digitsValue_zeros, h.value, hlength,
    neg_neg]
  simp [value, Text.digitsValue, CodePoint.digitValue]

/-- All digits are before the point. -/
theorem spells_large {k : ℕ} (hk : d.exponent = k) : Spells (digits ++ Text.zeros k ++ ".0") d := by
  have ht : digits ++ Text.zeros k ++ Text.ofString ".0" =
      digits ++ Text.zeros k ++ "." ++ "0" := by
    simp [Text.ofString]
  have hhead : (digits ++ Text.zeros k).head? ≠ some (.scalar '0') := by
    rw [List.head?_append_of_ne_nil _ h.ne_nil]
    exact h.head
  have hcoefficient : (digits ++ Text.zeros k ++ Text.ofString "0").digitsValue =
      d.coefficient * 10 ^ k * 10 := by
    rw [Text.digitsValue_append, Text.digitsValue_append, Text.digitsValue_zeros, h.value,
      Text.zeros, List.length_replicate]
    rfl
  rw [ht]
  refine (spells_point (h.isDigits.append (Text.isDigits_zeros k)) (by simp [h.ne_nil]) (.inr hhead)
    (by decide) (by decide)).congr ?_
  rw [hcoefficient, value, value, hk, zpow_natCast]
  simp [Text.ofString]

/-- The point is among the digits. -/
theorem spells_amid {k : ℕ} (h0 : 0 < k) (hlt : k < digits.length)
    (hk : (digits.length : ℤ) - k = -d.exponent) :
    Spells (digits.take k ++ "." ++ digits.drop k) d := by
  have hdrop : digits.drop k ≠ [] := List.ne_nil_of_length_pos (by rw [List.length_drop]; omega)
  have hlength : ((digits.drop k).length : ℤ) = -d.exponent := by
    rw [List.length_drop]
    omega
  refine (spells_point (h.isDigits_take k) (h.take_ne_nil h0) (.inr (h.head_take h0))
    (h.isDigits_drop k) hdrop).congr ?_
  rw [List.take_append_drop, h.value, hlength, neg_neg]

theorem spells_positional : Spells (positional digits (d.exponent + digits.length - 1)) d := by
  have hpos := h.length_pos
  unfold positional
  dsimp only
  split_ifs with hneg hlong
  · exact spells_small h (by omega)
  · exact spells_large h (by omega)
  · exact spells_amid h (by omega) (by omega) (by omega)

end Positional

/-- The exponent of a number in scientific notation. -/
theorem exponent?_scientific (k : ℕ) (lead : ℤ) {rest : Text} (hr : Numeral.Ends rest) :
    Numeral.exponent? (.scalar 'e' :: .scalar (if lead < 0 then '-' else '+') ::
      (Text.zeros k ++ Text.ofNat lead.natAbs ++ rest)) = (some lead, rest) := by
  have hdigits := (Text.isDigits_zeros k).append (Text.isDigits_ofNat lead.natAbs)
  have h := Numeral.exponent?_append (decide (lead < 0)) hdigits
    (by simp [Text.ofNat_ne_nil]) hr
  rw [Text.digitsValue_append, Text.digitsValue_zeros, Text.digitsValue_ofNat] at h
  simp only [decide_eq_true_eq] at h
  rw [h]
  split_ifs <;> congr 2 <;> omega

theorem spells_scientific (s : Style) {digits : Text} {d : Decimal}
    (h : digits.Writes d.coefficient) :
    Spells (s.scientific digits (d.exponent + digits.length - 1)) d := by
  have hpos := h.length_pos
  generalize hlead : d.exponent + digits.length - 1 = lead
  intro rest hr
  have hwhole : ∀ t : Text, (∀ c ∈ t.head?, c.isDigit = false) →
      Numeral.whole? (digits.take 1 ++ t) = some (digits.take 1, t) := fun t ht =>
    Numeral.whole?_append (h.isDigits_take 1) (h.take_ne_nil one_pos)
      (.inr (h.head_take one_pos)) ht
  generalize hk : s.exponentDigits - (Text.ofNat lead.natAbs).length = k
  have hexponent := exponent?_scientific k lead hr
  by_cases hlong : digits.length ≤ 1
  · have ht : s.scientific digits lead ++ rest = digits.take 1 ++ (.scalar 'e' ::
        .scalar (if lead < 0 then '-' else '+') ::
          (Text.zeros k ++ Text.ofNat lead.natAbs ++ rest)) := by
      rw [scientific, if_pos hlong, hk]
      split_ifs <;> simp [Text.ofString]
    rw [ht]
    refine ⟨⟨false, digits.take 1, none, some lead⟩, rfl, ?_,
      Numeral.read?_of_parts (hwhole _ (by simp; rfl)) rfl hexponent⟩
    have hexact : d.exponent = lead := by omega
    simp [Numeral.magnitude, value, List.take_of_length_le hlong, h.value, hexact]
  · have ht : s.scientific digits lead ++ rest = digits.take 1 ++ (.scalar '.' ::
        (digits.drop 1 ++ (.scalar 'e' :: .scalar (if lead < 0 then '-' else '+') ::
          (Text.zeros k ++ Text.ofNat lead.natAbs ++ rest)))) := by
      rw [scientific, if_neg hlong, hk]
      split_ifs <;> simp [Text.ofString]
    have hdrop : digits.drop 1 ≠ [] := List.ne_nil_of_length_pos (by rw [List.length_drop]; omega)
    rw [ht]
    refine ⟨⟨false, digits.take 1, some (digits.drop 1), some lead⟩, rfl, ?_,
      Numeral.read?_of_parts (hwhole _ (by simp; rfl))
        (Numeral.fraction?_append (h.isDigits_drop 1) hdrop (by simp; rfl)) hexponent⟩
    have hexact : lead - (digits.drop 1).length = d.exponent := by
      rw [List.length_drop]
      omega
    rw [Numeral.magnitude, value, Option.getD_some, List.take_append_drop, h.value,
      Option.getD_some, hexact, value]

theorem spells_renderPositive (s : Style) {x : Float} (hx : (shortest x).coefficient ≠ 0) :
    Spells (s.renderPositive x) (shortest x) := by
  unfold renderPositive
  dsimp only
  split_ifs with h
  · exact spells_positional (Text.writes_ofNat hx)
  · exact s.spells_scientific (Text.writes_ofNat hx)

/-- A double of positive sign is read back, and its negative is with a minus sign in front. -/
theorem spells_renderMagnitude (s : Style) {x : Float}
    (hx : Double.HasSign .positive x.toModel.unpack) :
    ∃ d : Decimal, d.toFloat = x ∧ Spells (s.renderMagnitude x) d := by
  have hinf : x.isInf = false := hx.isInf
  rw [renderMagnitude, hinf, if_neg Bool.false_ne_true]
  split_ifs with h0
  · have hzero : (Text.ofString "0").IsDigits := by decide
    have hspells := spells_point hzero (by decide) (.inl rfl) hzero (by decide)
    exact ⟨_, h0 ▸ toFloat_of_eq_zero rfl, hspells⟩
  · rcases hx with hx | ⟨m, e, hm, hx⟩
    · exact absurd (Double.eq_of_unpack_eq (hx.trans rfl)) h0
    · exact ⟨_, toFloat_shortest hx, s.spells_renderPositive (coefficient_shortest_ne_zero hx)⟩

/-- A finite double is read back as itself, in front of whatever ends a numeral. -/
theorem read?_render (s : Style) {x : Float} (hx : x.isFinite) {rest : Text}
    (hr : Numeral.Ends rest) : ∃ n, Numeral.read? (s.render x ++ rest) = some (n, rest) ∧
      n.isInteger = false ∧ n.toFloat = x := by
  have hsign := Double.hasSign_of_isFinite hx
  have hnan : x.isNaN = false := hsign.isNaN
  rw [render, hnan, if_neg Bool.false_ne_true]
  split_ifs at hsign ⊢ with hbits
  · obtain ⟨d, hd, hspells⟩ := s.spells_renderMagnitude hsign
    obtain ⟨n, hi, hn, hread, -⟩ := hspells rest hr
    refine ⟨_, hread, hi, ?_⟩
    rw [Numeral.toFloat, if_neg Bool.false_ne_true, ← hd]
    exact toFloat_congr hn
  · have hneg : Double.HasSign .positive (-x).toModel.unpack := by
      rw [Double.unpack_neg hnan]
      exact hsign.neg
    obtain ⟨d, hd, hspells⟩ := s.spells_renderMagnitude hneg
    obtain ⟨n, hi, hn, -, hread⟩ := hspells rest hr
    refine ⟨_, hread, hi, ?_⟩
    rw [Numeral.toFloat, if_pos rfl, ← Double.neg_neg_of_not_isNaN hnan, ← hd]
    exact congrArg (fun y : Float => -y) (toFloat_congr hn)

/-- A double that is too large has a word in place of its digits. -/
theorem render_of_isInf (s : Style) {x : Float} (hx : x.isInf) :
    s.render x = s.infinity ∨ s.render x = "-" ++ s.infinity := by
  have hnan : x.isNaN = false := Double.isNaN_of_isInf hx
  rw [render, hnan, if_neg Bool.false_ne_true]
  split_ifs
  · exact .inl (if_pos hx)
  · refine .inr (congrArg _ (if_pos ?_))
    exact Double.isInf_neg hx

end Style

end Decimal

/-- What a numeral is read as is a number, if perhaps an infinite one. -/
theorem Numeral.isNaN_toFloat (n : Numeral) : n.toFloat.isNaN = false := by
  unfold toFloat
  split_ifs
  · exact Double.isNaN_neg (Decimal.isNaN_toFloat _)
  · exact Decimal.isNaN_toFloat _

end QueryDiagram
