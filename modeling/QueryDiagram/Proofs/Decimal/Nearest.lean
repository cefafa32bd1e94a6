import Mathlib
import QueryDiagram.Decimal.Basic
import QueryDiagram.Proofs.Decimal.Doubles

/-!
# Doubles nearest to decimals

Products and quotients of doubles are their exact results, rounded (`mul_eq_rounded`,
`div_eq_rounded`). So the double of a decimal is the one nearest to its value
(`Decimal.toFloat_eq_nearest`), by whichever way it is computed: two decimals of one value have the
same double.
-/

namespace QueryDiagram

namespace Double

open Float.Model Float.Model.UnpackedFloat

/-- The double nearest to a positive fraction. -/
def nearest (q : ℚ) : Float := ⟨Float.Model.pack (rounded q)⟩

/-! ## Operations on doubles -/

theorem le_quantum {m : ℕ} (h : 2 ^ 52 ≤ m) (e : ℤ) : e ≤ quantum (m * 2 ^ e) := by
  have hm : m ≠ 0 := by omega
  have hlog := (Nat.le_log2 hm).2 h
  rw [quantum, log_mul_zpow hm]
  omega

theorem round_eq_rounded {m : ℕ} (hm : 0 < m) (e : ℤ) :
    UnpackedFloat.round .binary64 .positive m e = rounded (m * 2 ^ e) := by
  have htarget : Format.binary64.targetExponent (totalExponent m e) = quantum (m * 2 ^ e) := by
    rw [targetExponent_eq, totalExponent, quantum, log_mul_zpow hm.ne']
    congr 1
    omega
  unfold UnpackedFloat.round decreaseExponent
  rw [htarget]
  set k := (e - quantum (m * 2 ^ e)).toNat with hk
  refine roundWithAccuracy_eq_rounded (by positivity) ?_ (by omega)
  rw [extended_natCast, Nat.shiftLeft_eq]
  congr 1
  push_cast
  rw [zpow_sub₀ two_ne_zero, zpow_natCast]
  field_simp

theorem mul_eq_rounded {m₁ m₂ : ℕ} (e₁ e₂ : ℤ) (h₁ : 0 < m₁) (h₂ : 0 < m₂)
    (h : 2 ^ 52 ≤ m₁ * m₂) :
    UnpackedFloat.mul .binary64 (.finite .positive m₁ e₁ h₁) (.finite .positive m₂ e₂ h₂) =
      rounded (m₁ * 2 ^ e₁ * (m₂ * 2 ^ e₂)) := by
  have hq : (m₁ * 2 ^ e₁ * (m₂ * 2 ^ e₂) : ℚ) = (m₁ * m₂ : ℕ) * 2 ^ (e₁ + e₂) := by
    rw [zpow_add₀ two_ne_zero]
    push_cast
    ring
  rw [hq]
  refine roundWithAccuracy_eq_rounded (by positivity) ?_ (le_quantum h _)
  rw [extended_natCast, mul_div_cancel_right₀ _ (by positivity)]

/-- A quotient is no smaller than that of the next powers of two. -/
theorem le_log_div {m₁ m₂ : ℕ} (e₁ e₂ : ℤ) (h₁ : 0 < m₁) (h₂ : 0 < m₂) :
    (m₁.log2 : ℤ) + e₁ - (m₂.log2 + 1 + e₂) ≤ Int.log 2 (m₁ * 2 ^ e₁ / (m₂ * 2 ^ e₂) : ℚ) := by
  have hl : (2 : ℚ) ^ m₁.log2 ≤ m₁ := by exact_mod_cast Nat.log2_self_le h₁.ne'
  have hu : (m₂ : ℚ) ≤ 2 ^ (m₂.log2 + 1) := by exact_mod_cast Nat.lt_log2_self.le
  rw [← Int.zpow_le_iff_le_log one_lt_two (by positivity), le_div_iff₀ (by positivity)]
  calc ((2 : ℕ) : ℚ) ^ ((m₁.log2 : ℤ) + e₁ - (m₂.log2 + 1 + e₂)) * (m₂ * 2 ^ e₂)
      ≤ 2 ^ ((m₁.log2 : ℤ) + e₁ - (m₂.log2 + 1 + e₂)) * (2 ^ (m₂.log2 + 1) * 2 ^ e₂) := by
        push_cast
        gcongr
    _ = 2 ^ m₁.log2 * 2 ^ e₁ := by
        rw [← zpow_natCast, ← zpow_natCast, ← zpow_add₀ two_ne_zero, ← zpow_add₀ two_ne_zero,
          ← zpow_add₀ two_ne_zero]
        congr 1
        push_cast
        ring
    _ ≤ m₁ * 2 ^ e₁ := by gcongr

theorem div_eq_rounded {m₁ m₂ : ℕ} (e₁ e₂ : ℤ) (h₁ : 0 < m₁) (h₂ : 0 < m₂) :
    UnpackedFloat.div .binary64 (.finite .positive m₁ e₁ h₁) (.finite .positive m₂ e₂ h₂) =
      rounded (m₁ * 2 ^ e₁ / (m₂ * 2 ^ e₂)) := by
  have hlog := le_log_div e₁ e₂ h₁ h₂
  unfold UnpackedFloat.div divCore
  dsimp only
  rw [targetExponent_eq, totalExponent, totalExponent]
  -- the quotient is taken in units that are small enough for all of its bits
  set t := min (e₁ - e₂) (max ((m₁.log2 + 1 + e₁) - (m₂.log2 + 1 + e₂) - 53) (-1074)) with ht
  refine roundWithAccuracy_eq_rounded (by positivity) ?_ (by unfold quantum; omega)
  rw [extended_div _ h₂, Nat.shiftLeft_eq]
  congr 1
  have he : (2 : ℚ) ^ e₁ = 2 ^ t * 2 ^ (e₁ - e₂ - t).toNat * 2 ^ e₂ := by
    rw [← zpow_natCast, ← zpow_add₀ two_ne_zero, ← zpow_add₀ two_ne_zero]
    congr 1
    omega
  push_cast
  rw [he]
  field_simp

/-! ## Nearest doubles -/

theorem nearest_of_unpack {x : Float} {m : ℕ} {e : ℤ} {hm : 0 < m}
    (h : x.toModel.unpack = .finite .positive m e hm) : nearest (m * 2 ^ e) = x := by
  obtain ⟨hc, he⟩ := canonical_of_unpack h
  refine eq_of_unpack_eq ?_
  rw [h, nearest, rounded_of_canonical hm hc, unpack_pack _ hm hc he]

/-- A number of at most 53 bits is a double. -/
theorem exists_unpack_nearest {n : ℕ} (h0 : 0 < n) (hn : n < 2 ^ 53) {k : ℤ} (hk : -1022 ≤ k)
    (hk' : k ≤ 971) : ∃ m e hm, (nearest (n * 2 ^ k)).toModel.unpack = .finite .positive m e hm ∧
      2 ^ 52 ≤ m ∧ (m * 2 ^ e : ℚ) = n * 2 ^ k := by
  have hlog := (Nat.log2_lt h0.ne').2 hn
  have hm : 2 ^ 52 ≤ n * 2 ^ (52 - n.log2) := by
    calc 2 ^ 52 = 2 ^ n.log2 * 2 ^ (52 - n.log2) := by rw [← pow_add]; congr 1; omega
      _ ≤ n * 2 ^ (52 - n.log2) := Nat.mul_le_mul_right _ (Nat.log2_self_le h0.ne')
  have hlt : n * 2 ^ (52 - n.log2) < 2 ^ 53 := by
    calc n * 2 ^ (52 - n.log2) < 2 ^ (n.log2 + 1) * 2 ^ (52 - n.log2) :=
          Nat.mul_lt_mul_of_pos_right Nat.lt_log2_self (by positivity)
      _ = 2 ^ 53 := by rw [← pow_add]; congr 1; omega
  have hc : Canonical (n * 2 ^ (52 - n.log2)) (k - (52 - n.log2 : ℕ)) :=
    ⟨hlt, by omega, .inl hm⟩
  have hvalue : ((n * 2 ^ (52 - n.log2) : ℕ) * 2 ^ (k - (52 - n.log2 : ℕ)) : ℚ) = n * 2 ^ k := by
    rw [zpow_sub₀ two_ne_zero, zpow_natCast]
    push_cast
    field_simp
  refine ⟨_, _, by omega, ?_, hm, hvalue⟩
  rw [← hvalue, nearest, rounded_of_canonical (by omega) hc, unpack_pack _ _ hc (by omega)]

theorem nearest_of_large {q : ℚ} (h : 2 ^ (1024 : ℤ) ≤ q) :
    nearest q = ⟨Float.Model.pack (.infinity .positive)⟩ := by
  have hq : 0 < q := lt_of_lt_of_le (by positivity) h
  have hlog : 1024 ≤ Int.log 2 q := by
    rwa [← Int.zpow_le_iff_le_log one_lt_two hq, Nat.cast_ofNat]
  have hquantum : 972 ≤ quantum q := by
    unfold quantum
    omega
  have hn : nearestNat (q / 2 ^ quantum q) ≠ 0 := by
    have hle := zpow_quantum_le hq (by omega)
    have hone : (1 : ℚ) ≤ q / 2 ^ quantum q := by
      rw [le_div_iff₀ (by positivity), one_mul]
      exact (zpow_le_zpow_right₀ one_le_two (by omega)).trans hle
    have hfloor : 1 ≤ ⌊q / 2 ^ quantum q⌋₊ := Nat.le_floor (by exact_mod_cast hone)
    have hn := (nearestNat_bounds (q / 2 ^ quantum q)).1
    omega
  unfold nearest rounded
  dsimp only
  rw [dif_neg hn]
  split_ifs <;> exact congrArg Float.ofModel (pack_of_large _ (by omega))

theorem nearest_of_small {q : ℚ} (hq : 0 < q) (h : q < 2 ^ (-1075 : ℤ)) :
    nearest q = ⟨Float.Model.pack (.zero .positive)⟩ := by
  have hlog : Int.log 2 q < -1075 := by
    rw [← Int.lt_zpow_iff_log_lt one_lt_two hq]
    exact_mod_cast h
  have hquantum : quantum q = -1074 := by
    unfold quantum
    omega
  have hn : nearestNat (q / 2 ^ quantum q) = 0 := by
    refine nearestNat_eq_zero (by positivity) ?_
    rw [div_lt_iff₀ (by positivity), hquantum]
    refine h.trans_eq ?_
    rw [show (-1075 : ℤ) = -1 + -1074 by norm_num, zpow_add₀ two_ne_zero]
    norm_num
  unfold nearest rounded
  simp only [hn, dite_true]

theorem isNaN_nearest {q : ℚ} (hq : 0 < q) : (nearest q).isNaN = false := by
  change (Float.Model.pack (rounded q)).unpack.isNaN = false
  rcases rounded_cases hq with h | ⟨m, e, hm, h, hc⟩
  · rw [h]
    rfl
  · rw [h]
    by_cases he : e ≤ 971
    · rw [unpack_pack _ hm hc he]
      rfl
    · rw [pack_of_large hm (by omega)]
      rfl

/-! ## Decimals -/

theorem ofNat_eq_nearest {n : ℕ} (hn : 0 < n) : ⟨Float.Model.ofNat n⟩ = nearest n := by
  have hcmp : compare (n : ℤ) 0 = .gt := by
    rw [compare_gt_iff_gt]
    omega
  have hround := round_eq_rounded hn 0
  rw [zpow_zero, mul_one] at hround
  rw [Float.Model.ofNat, UnpackedFloat.ofNat, UnpackedFloat.ofInt, UnpackedFloat.normalize, hcmp]
  exact congrArg (fun u => Float.ofModel (Float.Model.pack u)) hround

/-- The powers of ten that are doubles. -/
theorem powersOfTen_eq : ∀ e : Fin Float.exactlyRepresentablePowersOfTen.size,
    Float.exactlyRepresentablePowersOfTen[e] = ⟨Float.Model.ofNat (10 ^ (e : ℕ))⟩ := by
  decide +kernel

theorem exists_unpack_powersOfTen (e : Fin Float.exactlyRepresentablePowersOfTen.size) :
    ∃ m k hm, Float.exactlyRepresentablePowersOfTen[e].toModel.unpack = .finite .positive m k hm ∧
      2 ^ 52 ≤ m ∧ (m * 2 ^ k : ℚ) = 10 ^ (e : ℕ) := by
  have he : (e : ℕ) < 23 := e.isLt
  have hfive : 5 ^ (e : ℕ) < 2 ^ 53 :=
    (Nat.pow_le_pow_right (by decide) (by omega : (e : ℕ) ≤ 22)).trans_lt (by decide)
  have hten : ((5 ^ (e : ℕ) : ℕ) * 2 ^ ((e : ℕ) : ℤ) : ℚ) = (10 ^ (e : ℕ) : ℕ) := by
    rw [zpow_natCast]
    push_cast
    rw [← mul_pow]
    norm_num
  obtain ⟨m, k, hm, hu, hmin, hvalue⟩ :=
    exists_unpack_nearest (by positivity) hfive (k := (e : ℕ)) (by omega) (by omega)
  rw [hten] at hu hvalue
  have htable := (powersOfTen_eq e).trans (ofNat_eq_nearest (by positivity))
  refine ⟨m, k, hm, ?_, hmin, hvalue.trans (by push_cast; rfl)⟩
  exact (congrArg (fun x : Float => x.toModel.unpack) htable).trans hu

/-- A product or quotient of two doubles that are exact. -/
theorem ofScientific_of_small {m e : ℕ} (h0 : 0 < m) (hm : m < 2 ^ 53) (he : e ≤ 22) (s : Bool) :
    Float.ofScientific m s e = nearest (if s then m / 10 ^ e else m * 10 ^ e) := by
  obtain ⟨m₁, e₁, h₁, hu₁, hmin₁, hv₁⟩ := exists_unpack_nearest h0 hm (k := 0) (by omega) (by omega)
  obtain ⟨m₂, e₂, h₂, hu₂, hmin₂, hv₂⟩ := exists_unpack_powersOfTen ⟨e, Nat.lt_succ_of_le he⟩
  rw [zpow_zero, mul_one] at hu₁ hv₁
  have hfloat : m.toUInt64.toFloat = nearest m := by
    have hn : m.toUInt64.toNat = m := Nat.mod_eq_of_lt (by omega)
    have hconv : m.toUInt64.toFloat = ⟨Float.Model.ofNat m.toUInt64.toNat⟩ := rfl
    rw [hconv, hn, ofNat_eq_nearest h0]
  have hmin : 2 ^ 52 ≤ m₁ * m₂ := hmin₁.trans (Nat.le_mul_of_pos_right _ h₂)
  rw [Float.ofScientific, dif_pos ⟨hm, he⟩]
  cases s
  · have hmul := mul_eq_rounded e₁ e₂ h₁ h₂ hmin
    rw [hv₁, hv₂, ← hu₁, ← hu₂, ← hfloat] at hmul
    exact congrArg (fun u => Float.ofModel (Float.Model.pack u)) hmul
  · have hdiv := div_eq_rounded e₁ e₂ h₁ h₂
    rw [hv₁, hv₂, ← hu₁, ← hu₂, ← hfloat] at hdiv
    exact congrArg (fun u => Float.ofModel (Float.Model.pack u)) hdiv

/-- The exact mantissas, multiplied or divided. -/
theorem modelOfScientific_eq {m : ℕ} (h0 : 0 < m) {e : ℤ} (hmax : e ≤ 400)
    (hmin : -1200 ≤ m.log2 + 3 * e) :
    ⟨Float.Model.ofScientific m e⟩ = nearest (m * 10 ^ e) := by
  have hbits : (2 : ℤ) ^ Format.binary64.exponentBits = 2048 := rfl
  unfold Float.Model.ofScientific UnpackedFloat.ofScientific nearest
  rw [hbits, dif_neg h0.ne', if_neg (by omega), if_neg (by omega)]
  congr 2
  split_ifs with he
  · have hm : 2 ^ 52 ≤ (m <<< Format.binary64.mantissaBits) * 10 ^ e.toNat := by
      rw [Nat.shiftLeft_eq]
      calc 2 ^ 52 ≤ 1 * 2 ^ Format.binary64.mantissaBits * 1 := by decide
        _ ≤ m * 2 ^ Format.binary64.mantissaBits * 10 ^ e.toNat := by
          gcongr
          · exact h0
          · exact Nat.one_le_pow _ _ (by decide)
    refine (mul_eq_rounded _ _ _ _ hm).trans (congrArg rounded ?_)
    have hshift : ((m <<< Format.binary64.mantissaBits : ℕ) : ℚ) *
        2 ^ (-(Format.binary64.mantissaBits : ℤ)) = m := by
      rw [Nat.shiftLeft_eq, zpow_neg, zpow_natCast]
      push_cast
      field_simp
    rw [hshift, zpow_zero, mul_one]
    push_cast
    rw [← zpow_natCast 10, Int.toNat_of_nonneg he]
  · refine (div_eq_rounded _ _ _ _).trans (congrArg rounded ?_)
    rw [zpow_zero, mul_one, mul_one]
    push_cast
    rw [← zpow_natCast 10, Int.toNat_of_nonneg (by omega), zpow_neg, div_inv_eq_mul]

end Double

namespace Decimal

open Double

/-- The number that a decimal stands for. -/
def value (d : Decimal) : ℚ := d.coefficient * 10 ^ d.exponent

theorem value_pos {d : Decimal} (h : 0 < d.coefficient) : 0 < d.value := by
  unfold value
  positivity

theorem nearest_value_of_large {d : Decimal} (h : 0 < d.coefficient) (he : 400 < d.exponent) :
    nearest d.value = 1 / 0 := by
  have hinfinity : (1 / 0 : Float) = ⟨Float.Model.pack (.infinity .positive)⟩ := by decide +kernel
  rw [hinfinity]
  refine nearest_of_large ?_
  calc (2 : ℚ) ^ (1024 : ℤ) ≤ 2 ^ (3 * d.exponent) := zpow_le_zpow_right₀ one_le_two (by omega)
    _ = (2 ^ (3 : ℤ)) ^ d.exponent := zpow_mul _ _ _
    _ ≤ 10 ^ d.exponent := zpow_le_zpow_left₀ (by omega) (by norm_num) (by norm_num)
    _ ≤ d.value := le_mul_of_one_le_left (by positivity) (by exact_mod_cast h)

theorem nearest_value_of_small {d : Decimal} (h : 0 < d.coefficient)
    (he : d.coefficient.log2 + 3 * d.exponent < -1200) : nearest d.value = 0 := by
  have hzero : (0 : Float) = ⟨Float.Model.pack (.zero .positive)⟩ := by decide +kernel
  rw [hzero]
  refine nearest_of_small (value_pos h) ?_
  have hlog : (d.coefficient : ℚ) < 2 ^ (d.coefficient.log2 + 1) := by
    exact_mod_cast Nat.lt_log2_self
  obtain ⟨k, hk⟩ := Int.exists_eq_neg_ofNat (a := d.exponent) (by omega)
  have hten : (10 : ℚ) ^ d.exponent ≤ 2 ^ (3 * d.exponent) := by
    rw [zpow_mul, hk, zpow_neg, zpow_neg, zpow_natCast, zpow_natCast]
    gcongr
    norm_num
  calc d.value < 2 ^ (d.coefficient.log2 + 1) * 2 ^ (3 * d.exponent) :=
        mul_lt_mul_of_lt_of_le_of_pos_of_nonneg hlog hten (by positivity) (by positivity)
    _ = 2 ^ (d.coefficient.log2 + 1 + 3 * d.exponent) := by
        rw [zpow_add₀ two_ne_zero]
        norm_cast
    _ ≤ 2 ^ (-1075 : ℤ) := zpow_le_zpow_right₀ one_le_two (by omega)

theorem ofScientific_eq_nearest {d : Decimal} (h : 0 < d.coefficient) (hmax : d.exponent ≤ 400)
    (hmin : -1200 ≤ d.coefficient.log2 + 3 * d.exponent) :
    Float.ofScientific d.coefficient (d.exponent < 0) d.exponent.natAbs = nearest d.value := by
  by_cases hsmall : d.coefficient < 2 ^ 53 ∧ d.exponent.natAbs ≤ 22
  · rw [ofScientific_of_small h hsmall.1 hsmall.2, value]
    congr 1
    by_cases he : d.exponent < 0
    · rw [if_pos (decide_eq_true he), div_eq_mul_inv, ← zpow_natCast, ← zpow_neg,
        show -(d.exponent.natAbs : ℤ) = d.exponent by omega]
    · rw [if_neg (by simpa using he), ← zpow_natCast,
        show (d.exponent.natAbs : ℤ) = d.exponent by omega]
  · have hexponent : (if decide (d.exponent < 0) then Int.negOfNat d.exponent.natAbs
        else Int.ofNat d.exponent.natAbs) = d.exponent := by
      by_cases he : d.exponent < 0
      · rw [if_pos (decide_eq_true he), Int.negOfNat_eq, Int.ofNat_eq_natCast]
        omega
      · rw [if_neg (by simpa using he), Int.ofNat_eq_natCast]
        omega
    rw [Float.ofScientific, dif_neg hsmall, value, ← modelOfScientific_eq h hmax hmin]
    exact congrArg (fun e => Float.ofModel (Float.Model.ofScientific d.coefficient e)) hexponent

/-- The double of a decimal is the one nearest to its value. -/
theorem toFloat_eq_nearest {d : Decimal} (h : 0 < d.coefficient) : d.toFloat = nearest d.value := by
  unfold toFloat
  split_ifs with h0 hlarge hsmall
  · omega
  · exact (nearest_value_of_large h hlarge).symm
  · exact (nearest_value_of_small h hsmall).symm
  · exact ofScientific_eq_nearest h (by omega) (by omega)

theorem toFloat_of_eq_zero {d : Decimal} (h : d.coefficient = 0) : d.toFloat = 0 := if_pos h

theorem value_eq_zero_iff {d : Decimal} : d.value = 0 ↔ d.coefficient = 0 := by
  rw [value, mul_eq_zero, or_iff_left (zpow_ne_zero _ (by norm_num)), Nat.cast_eq_zero]

/-- The double of a decimal depends on nothing but its value. -/
theorem toFloat_congr {d d' : Decimal} (h : d.value = d'.value) : d.toFloat = d'.toFloat := by
  rcases Nat.eq_zero_or_pos d.coefficient with hd | hd
  · have hd' := value_eq_zero_iff.1 (h.symm.trans (value_eq_zero_iff.2 hd))
    rw [toFloat_of_eq_zero hd, toFloat_of_eq_zero hd']
  · have hd' : 0 < d'.coefficient :=
      Nat.pos_of_ne_zero fun e => hd.ne' (value_eq_zero_iff.1 (h.trans (value_eq_zero_iff.2 e)))
    rw [toFloat_eq_nearest hd, toFloat_eq_nearest hd', h]

/-- The double of a decimal is a number, if perhaps an infinite one. -/
theorem isNaN_toFloat (d : Decimal) : d.toFloat.isNaN = false := by
  rcases Nat.eq_zero_or_pos d.coefficient with hd | hd
  · rw [toFloat_of_eq_zero hd]
    decide +kernel
  · rw [toFloat_eq_nearest hd]
    exact isNaN_nearest (value_pos hd)

end Decimal

end QueryDiagram
