import Mathlib
import QueryDiagram.Decimal.Shortest
import QueryDiagram.Proofs.Decimal.Rounding

/-!
# Doubles and their mantissas

A finite double that is not zero has one mantissa and exponent (`Canonical`), and every such pair
within the range of doubles belongs to one (`unpack_pack`). Rounding gives such a pair
(`rounded_cases`), and the pair itself where it is rounded (`rounded_of_canonical`). Negation
changes the sign and nothing else (`unpack_neg`).
-/

namespace QueryDiagram

namespace Double

open Float.Model Float.Model.UnpackedFloat

/-! ## Mantissas and exponents -/

/-- The mantissa and exponent of a double: the leading bit is set unless the exponent is least. -/
structure Canonical (m : ℕ) (e : ℤ) : Prop where
  lt : m < 2 ^ 53
  least : -1074 ≤ e
  normal : 2 ^ 52 ≤ m ∨ e = -1074

theorem finite_congr {s : Sign} {m m' : ℕ} {e e' : ℤ} {hm : 0 < m} {hm' : 0 < m'} (h : m = m')
    (he : e = e') : UnpackedFloat.finite s m e hm = .finite s m' e' hm' := by
  subst h he
  rfl

theorem unpack_normal (s : Sign) {exponent : BitVec 11} (mantissa : BitVec 52)
    (h0 : exponent ≠ 0#11) (h1 : exponent ≠ -1#11) :
    UnpackedFloat.unpack .binary64 (packComponents .binary64 s exponent mantissa) =
      .finite s (2 ^ 52 + mantissa.toNat) (exponent.toNat - 1075) (by positivity) := by
  have hm : (1#1 ++ mantissa).toNat = 2 ^ 52 + mantissa.toNat := by
    rw [BitVec.toNat_append, ← Nat.shiftLeft_add_eq_or_of_lt mantissa.isLt]
    rfl
  unfold UnpackedFloat.unpack
  simp only [unpackMantissa_packComponents, unpackExponent_packComponents,
    unpackSign_packComponents, h0, h1, if_false, Sign.ofBitVec_toBitVec, hm]
  rfl

theorem unpack_subnormal (s : Sign) {mantissa : BitVec 52} (h : mantissa ≠ 0#52) :
    UnpackedFloat.unpack .binary64 (packComponents .binary64 s 0#11 mantissa) =
      .finite s mantissa.toNat (-1074)
        (Nat.pos_of_ne_zero fun e => h (BitVec.eq_of_toNat_eq e)) := by
  have h1 : (0#11) ≠ -1#11 := by decide
  unfold UnpackedFloat.unpack
  simp only [unpackMantissa_packComponents, unpackExponent_packComponents,
    unpackSign_packComponents, h, h1, if_false, if_true, Sign.ofBitVec_toBitVec]
  rfl

theorem pack_unpack_packComponents (s : Sign) {exponent : BitVec 11} (mantissa : BitVec 52)
    (h : exponent ≠ -1#11 ∨ mantissa = 0#52) :
    UnpackedFloat.pack .binary64 (UnpackedFloat.unpack .binary64
      (packComponents .binary64 s exponent mantissa)) =
        packComponents .binary64 s exponent mantissa := by
  rw [pack_unpack, if_neg]
  simp only [isNaNBits, unpackExponent_packComponents, unpackMantissa_packComponents,
    decide_eq_true_eq, not_and_or, not_not]
  exact h

/-- The bits of a mantissa and exponent within the range of doubles. -/
theorem exists_packComponents (s : Sign) {m : ℕ} {e : ℤ} (hm : 0 < m) (hc : Canonical m e)
    (he : e ≤ 971) : ∃ (exponent : BitVec 11) (mantissa : BitVec 52), exponent ≠ -1#11 ∧
      UnpackedFloat.unpack .binary64 (packComponents .binary64 s exponent mantissa) =
        .finite s m e hm := by
  obtain ⟨hlt, hleast, hnormal⟩ := hc
  by_cases h : 2 ^ 52 ≤ m
  · have hexp : (BitVec.ofNat 11 (e + 1075).toNat).toNat = (e + 1075).toNat := by
      rw [BitVec.toNat_ofNat, Nat.mod_eq_of_lt (by omega)]
    have hman : (BitVec.ofNat 52 (m - 2 ^ 52)).toNat = m - 2 ^ 52 := by
      rw [BitVec.toNat_ofNat, Nat.mod_eq_of_lt (by omega)]
    have h1 : BitVec.ofNat 11 (e + 1075).toNat ≠ -1#11 := by
      intro h
      have := congrArg BitVec.toNat h
      rw [hexp, show (-1#11).toNat = 2047 from rfl] at this
      omega
    refine ⟨_, _, h1, (unpack_normal s (BitVec.ofNat 52 (m - 2 ^ 52)) ?_ h1).trans
      (finite_congr (by rw [hman]; omega) (by rw [hexp]; omega))⟩
    intro h
    have := congrArg BitVec.toNat h
    rw [hexp, BitVec.toNat_zero] at this
    omega
  · obtain rfl := hnormal.resolve_left h
    have hman : (BitVec.ofNat 52 m).toNat = m := by
      rw [BitVec.toNat_ofNat, Nat.mod_eq_of_lt (by omega)]
    refine ⟨0#11, _, by decide, (unpack_subnormal s ?_).trans (finite_congr hman rfl)⟩
    intro h
    have := congrArg BitVec.toNat h
    rw [hman, BitVec.toNat_zero] at this
    omega

theorem unpack_pack (s : Sign) {m : ℕ} {e : ℤ} (hm : 0 < m) (hc : Canonical m e) (he : e ≤ 971) :
    (Float.Model.pack (.finite s m e hm)).unpack = .finite s m e hm := by
  obtain ⟨exponent, mantissa, h1, hu⟩ := exists_packComponents s hm hc he
  have hp := pack_unpack_packComponents s mantissa (.inl h1)
  rw [hu] at hp
  change UnpackedFloat.unpack .binary64 (UnpackedFloat.pack .binary64 (.finite s m e hm)) = _
  rw [hp, hu]

/-- A mantissa with an exponent beyond the range of doubles is infinite. -/
theorem pack_of_large {m : ℕ} {e : ℤ} (hm : 0 < m) (he : 971 < e) :
    Float.Model.pack (.finite .positive m e hm) = Float.Model.pack (.infinity .positive) := by
  have hlarge : 2 ^ 11 ≤ (e + 1023 + 52).toNat + 1 := by omega
  have hpack : UnpackedFloat.pack .binary64 (.finite .positive m e hm) =
      packedInfinity .binary64 .positive := by
    unfold UnpackedFloat.pack
    exact if_pos hlarge
  unfold Float.Model.pack
  congr 1
  exact congrArg UInt64.ofBitVec hpack

theorem unpack_special (s : Sign) (mantissa : BitVec 52) :
    UnpackedFloat.unpack .binary64 (packComponents .binary64 s (-1#11) mantissa) =
      if mantissa = 0#52 then .infinity s else .notANumber := by
  unfold UnpackedFloat.unpack
  simp only [unpackMantissa_packComponents, unpackExponent_packComponents,
    unpackSign_packComponents, if_true, Sign.ofBitVec_toBitVec]

theorem unpack_zero (s : Sign) :
    UnpackedFloat.unpack .binary64 (packComponents .binary64 s 0#11 0#52) = .zero s :=
  unpack_packedZero

theorem exists_eq_packComponents (b : BitVec Format.binary64.numBits) :
    ∃ (s : Sign) (exponent : BitVec 11) (mantissa : BitVec 52),
      b = packComponents .binary64 s exponent mantissa :=
  ⟨_, _, _, (packComponents_unpackSign_unpackExponent_unpackMantissa b).symm⟩

theorem canonical_of_unpack {b : BitVec Format.binary64.numBits} {s : Sign} {m : ℕ} {e : ℤ}
    {hm : 0 < m} (h : UnpackedFloat.unpack .binary64 b = .finite s m e hm) :
    Canonical m e ∧ e ≤ 971 := by
  obtain ⟨s', exponent, mantissa, rfl⟩ := exists_eq_packComponents b
  have hmantissa : mantissa.toNat < 2 ^ 52 := mantissa.isLt
  have hexponent : exponent.toNat < 2 ^ 11 := exponent.isLt
  by_cases h1 : exponent = -1#11
  · subst h1
    rw [unpack_special] at h
    split_ifs at h
  by_cases h0 : exponent = 0#11
  · subst h0
    by_cases hz : mantissa = 0#52
    · subst hz
      rw [unpack_zero] at h
      cases h
    · rw [unpack_subnormal _ hz] at h
      obtain ⟨-, rfl, rfl⟩ := finite.inj h
      exact ⟨⟨by omega, le_rfl, .inr rfl⟩, by decide⟩
  · rw [unpack_normal _ _ h0 h1] at h
    obtain ⟨-, rfl, rfl⟩ := finite.inj h
    have h0' : exponent.toNat ≠ 0 := fun e => h0 (BitVec.eq_of_toNat_eq e)
    have h1' : exponent.toNat ≠ 2047 := fun e => h1 (BitVec.eq_of_toNat_eq e)
    exact ⟨⟨by omega, by omega, .inl (by omega)⟩, by omega⟩

/-! ## Rounded mantissas -/

theorem rounded_cases {q : ℚ} (hq : 0 < q) :
    rounded q = .zero .positive ∨
      ∃ m e hm, rounded q = .finite .positive m e hm ∧ Canonical m e := by
  have hmin : -1074 ≤ quantum q := le_max_right _ _
  have hnormal : 2 ^ 52 ≤ nearestNat (q / 2 ^ quantum q) ∨ quantum q = -1074 := by
    rcases hmin.lt_or_eq with h | h
    · refine .inl ((Nat.le_floor ?_).trans (nearestNat_bounds _).1)
      rw [le_div_iff₀ (by positivity)]
      have hle := zpow_quantum_le hq h
      rw [zpow_add₀ two_ne_zero, mul_comm] at hle
      exact_mod_cast hle
    · exact .inr h.symm
  unfold rounded
  dsimp only
  split_ifs with h0 hlt
  · exact .inl rfl
  · exact .inr ⟨_, _, Nat.pos_of_ne_zero h0, rfl, hlt, hmin, hnormal⟩
  · exact .inr ⟨_, _, by decide, rfl, by decide, by omega, .inl le_rfl⟩

theorem quantum_of_canonical {m : ℕ} {e : ℤ} (hm : 0 < m) (hc : Canonical m e) :
    quantum (m * 2 ^ e) = e := by
  have hlt := (Nat.log2_lt hm.ne').2 hc.lt
  rw [quantum, log_mul_zpow hm.ne']
  rcases hc.normal with h | h
  · have := (Nat.le_log2 hm.ne').2 h
    have := hc.least
    omega
  · by_cases h' : 2 ^ 52 ≤ m
    · have := (Nat.le_log2 hm.ne').2 h'
      omega
    · have := (Nat.log2_lt hm.ne').2 (not_le.1 h')
      omega

/-- What needs no rounding is not changed. -/
theorem rounded_of_canonical {m : ℕ} {e : ℤ} (hm : 0 < m) (hc : Canonical m e) :
    rounded (m * 2 ^ e) = .finite .positive m e hm := by
  have he : (0 : ℚ) < 2 ^ e := by positivity
  have hn : nearestNat ((m * 2 ^ e : ℚ) / 2 ^ e) = m := by
    rw [mul_div_cancel_right₀ _ he.ne', nearestNat_natCast]
  unfold rounded
  simp only [quantum_of_canonical hm hc, hn, hm.ne', hc.lt, dite_false, if_true]

/-! ## Negation -/

theorem unpack_packComponents_neg (s : Sign) (exponent : BitVec 11) (mantissa : BitVec 52) :
    UnpackedFloat.unpack .binary64 (packComponents .binary64 (-s) exponent mantissa) =
      (UnpackedFloat.unpack .binary64 (packComponents .binary64 s exponent mantissa)).neg := by
  unfold UnpackedFloat.unpack
  simp only [unpackMantissa_packComponents, unpackExponent_packComponents,
    unpackSign_packComponents, Sign.ofBitVec_toBitVec]
  split_ifs <;> rfl

theorem unpack_pack_neg {b : BitVec Format.binary64.numBits}
    (h : (UnpackedFloat.unpack .binary64 b).isNaN = false) :
    UnpackedFloat.unpack .binary64 (UnpackedFloat.pack .binary64
      (UnpackedFloat.unpack .binary64 b).neg) = (UnpackedFloat.unpack .binary64 b).neg := by
  obtain ⟨s, exponent, mantissa, rfl⟩ := exists_eq_packComponents b
  rw [← unpack_packComponents_neg, pack_unpack_packComponents]
  by_contra hspecial
  obtain ⟨rfl, hmantissa⟩ : exponent = -1#11 ∧ mantissa ≠ 0#52 := by simpa [not_or] using hspecial
  rw [unpack_special, if_neg hmantissa] at h
  cases h

theorem unpack_neg {x : Float} (hx : x.isNaN = false) :
    (-x).toModel.unpack = x.toModel.unpack.neg := unpack_pack_neg hx

theorem eq_of_unpack_eq {x y : Float} (h : x.toModel.unpack = y.toModel.unpack) : x = y := by
  have hbits := (unpack_inj_of_valid x.toModel.valid y.toModel.valid).1 h
  exact Float.toBits_inj.1 (UInt64.toBitVec_inj.1 hbits)

theorem isFinite_of_not {x : Float} (hn : x.isNaN = false) (hi : x.isInf = false) :
    x.isFinite := by
  change x.toModel.unpack.isNaN = false at hn
  change x.toModel.unpack.isInf = false at hi
  change x.toModel.unpack.isFinite
  cases h : x.toModel.unpack <;> simp_all [UnpackedFloat.isNaN, UnpackedFloat.isInf,
    UnpackedFloat.isFinite]

theorem isNaN_of_isInf {x : Float} (hx : x.isInf) : x.isNaN = false := by
  change x.toModel.unpack.isInf = true at hx
  change x.toModel.unpack.isNaN = false
  cases h : x.toModel.unpack <;> simp_all [UnpackedFloat.isNaN, UnpackedFloat.isInf]

theorem isInf_neg {x : Float} (hx : x.isInf) : (-x).isInf := by
  have hneg := unpack_neg (isNaN_of_isInf hx)
  change x.toModel.unpack.isInf = true at hx
  change (-x).toModel.unpack.isInf = true
  rw [hneg]
  cases h : x.toModel.unpack <;> simp_all [UnpackedFloat.isInf, UnpackedFloat.neg]

theorem isNaN_neg {x : Float} (hx : x.isNaN = false) : (-x).isNaN = false := by
  change (-x).toModel.unpack.isNaN = false
  change x.toModel.unpack.isNaN = false at hx
  rw [unpack_neg hx]
  cases h : x.toModel.unpack <;> simp_all [UnpackedFloat.neg, UnpackedFloat.isNaN]

theorem neg_neg_of_not_isNaN {x : Float} (hx : x.isNaN = false) : -(-x) = x := by
  refine eq_of_unpack_eq ?_
  rw [unpack_neg (isNaN_neg hx), unpack_neg hx]
  rcases x.toModel.unpack with s | _ | s | ⟨s, m, e, hm⟩
  · cases s <;> rfl
  · rfl
  · cases s <;> rfl
  · cases s <;> rfl

/-! ## Bits -/

theorem toNat_packComponents (s : Sign) (exponent : BitVec 11) (mantissa : BitVec 52) :
    (packComponents .binary64 s exponent mantissa).toNat =
      s.toBitVec.toNat * 2 ^ 63 + exponent.toNat * 2 ^ 52 + mantissa.toNat := by
  have h : (packComponents .binary64 s exponent mantissa).toNat =
      (s.toBitVec ++ exponent ++ mantissa).toNat := rfl
  rw [h, BitVec.toNat_append, ← Nat.shiftLeft_add_eq_or_of_lt mantissa.isLt, BitVec.toNat_append,
    ← Nat.shiftLeft_add_eq_or_of_lt exponent.isLt, Nat.shiftLeft_eq, Nat.shiftLeft_eq]
  ring

/-- A finite number of this sign. -/
def HasSign (s : Sign) (u : UnpackedFloat) : Prop := u = .zero s ∨ ∃ m e hm, u = .finite s m e hm

theorem HasSign.neg {s : Sign} {u : UnpackedFloat} (h : HasSign s u) : HasSign (-s) u.neg := by
  rcases h with rfl | ⟨m, e, hm, rfl⟩
  · exact .inl rfl
  · exact .inr ⟨m, e, hm, rfl⟩

theorem HasSign.isNaN {s : Sign} {u : UnpackedFloat} (h : HasSign s u) : u.isNaN = false := by
  rcases h with rfl | ⟨m, e, hm, rfl⟩ <;> rfl

theorem HasSign.isInf {s : Sign} {u : UnpackedFloat} (h : HasSign s u) : u.isInf = false := by
  rcases h with rfl | ⟨m, e, hm, rfl⟩ <;> rfl

theorem hasSign_unpack (s : Sign) (exponent : BitVec 11) (mantissa : BitVec 52)
    (h : (UnpackedFloat.unpack .binary64 (packComponents .binary64 s exponent mantissa)).isFinite) :
    HasSign s (UnpackedFloat.unpack .binary64 (packComponents .binary64 s exponent mantissa)) := by
  by_cases h1 : exponent = -1#11
  · rw [h1, unpack_special] at h
    split_ifs at h <;> cases h
  by_cases h0 : exponent = 0#11
  · subst h0
    by_cases hz : mantissa = 0#52
    · exact .inl (hz ▸ unpack_zero s)
    · exact .inr ⟨_, _, _, unpack_subnormal s hz⟩
  · exact .inr ⟨_, _, _, unpack_normal s mantissa h0 h1⟩

/-- The first bit of a finite double is its sign. -/
theorem hasSign_of_isFinite {x : Float} (hx : x.isFinite) :
    HasSign (if x.toBits.toNat < 0x8000000000000000 then .positive else .negative)
      x.toModel.unpack := by
  obtain ⟨s, exponent, mantissa, hb⟩ := exists_eq_packComponents x.toModel.toBits.toBitVec
  have hbits : x.toBits.toNat = _ := (congrArg BitVec.toNat hb).trans (toNat_packComponents ..)
  have hmantissa : mantissa.toNat < 2 ^ 52 := mantissa.isLt
  have hexponent : exponent.toNat < 2 ^ 11 := exponent.isLt
  have hunpack : x.toModel.unpack =
      UnpackedFloat.unpack .binary64 (packComponents .binary64 s exponent mantissa) :=
    congrArg (UnpackedFloat.unpack .binary64) hb
  change x.toModel.unpack.isFinite at hx
  have hsign : (if x.toBits.toNat < 0x8000000000000000 then Sign.positive else .negative) = s := by
    cases s
    · have hone : Sign.negative.toBitVec.toNat = 1 := rfl
      exact if_neg (by omega)
    · have hzero : Sign.positive.toBitVec.toNat = 0 := rfl
      exact if_pos (by omega)
  rw [hsign, hunpack]
  exact hasSign_unpack s exponent mantissa (hunpack ▸ hx)

theorem bits_of_unpack_positive {x : Float} {m : ℕ} {e : ℤ} {hm : 0 < m}
    (h : x.toModel.unpack = .finite .positive m e hm) :
    ∃ (exponent : BitVec 11) (mantissa : BitVec 52), exponent ≠ -1#11 ∧
      x.toBits.toNat = exponent.toNat * 2 ^ 52 + mantissa.toNat ∧
      (exponent.toNat = 0 ∧ m = mantissa.toNat ∧ e = -1074 ∨
        exponent.toNat ≠ 0 ∧ m = 2 ^ 52 + mantissa.toNat ∧ e = exponent.toNat - 1075) := by
  obtain ⟨s, exponent, mantissa, hb⟩ := exists_eq_packComponents x.toModel.toBits.toBitVec
  have hbits : x.toBits.toNat = _ := (congrArg BitVec.toNat hb).trans (toNat_packComponents ..)
  have hpos : Sign.positive.toBitVec.toNat = 0 := rfl
  rw [Float.Model.unpack, hb] at h
  have h1 : exponent ≠ -1#11 := by
    rintro rfl
    rw [unpack_special] at h
    split_ifs at h
  refine ⟨exponent, mantissa, h1, ?_⟩
  by_cases h0 : exponent = 0#11
  · subst h0
    by_cases hz : mantissa = 0#52
    · rw [hz, unpack_zero] at h
      cases h
    · rw [unpack_subnormal _ hz] at h
      obtain ⟨rfl, rfl, rfl⟩ := finite.inj h
      exact ⟨by rw [hbits, hpos, Nat.zero_mul, Nat.zero_add], .inl ⟨rfl, rfl, rfl⟩⟩
  · rw [unpack_normal _ _ h0 h1] at h
    obtain ⟨rfl, rfl, rfl⟩ := finite.inj h
    exact ⟨by rw [hbits, hpos, Nat.zero_mul, Nat.zero_add],
      .inr ⟨fun e => h0 (BitVec.eq_of_toNat_eq e), rfl, rfl⟩⟩

/-- The exact value of a positive double has a power of two as its denominator. -/
theorem exists_ofFloat_eq {x : Float} {m : ℕ} {e : ℤ} {hm : 0 < m}
    (h : x.toModel.unpack = .finite .positive m e hm) :
    ∃ k, (Ratio.ofFloat x).den = 2 ^ k ∧ ((Ratio.ofFloat x).num : ℚ) / 2 ^ k = m * 2 ^ e := by
  obtain ⟨exponent, mantissa, -, hbits, hcases⟩ := bits_of_unpack_positive h
  have hmantissa : mantissa.toNat < 2 ^ 52 := mantissa.isLt
  have hexponent : exponent.toNat < 2 ^ 11 := exponent.isLt
  have hbiased : x.toBits.toNat / Ratio.hiddenBit % 0x800 = exponent.toNat := by
    rw [hbits, Ratio.hiddenBit]
    omega
  have hfraction : x.toBits.toNat % Ratio.hiddenBit = mantissa.toNat := by
    rw [hbits, Ratio.hiddenBit]
    omega
  have hdiv : ∀ n k : ℕ, (n : ℚ) / 2 ^ k = n * 2 ^ (-(k : ℤ)) := fun n k => by
    rw [zpow_neg, zpow_natCast, div_eq_mul_inv]
  rw [Ratio.ofFloat]
  simp only [hbiased, hfraction]
  rcases hcases with ⟨h0, rfl, rfl⟩ | ⟨h0, rfl, rfl⟩
  · rw [if_pos h0]
    generalize hk : 1074 = k
    exact ⟨k, rfl, by rw [hdiv, ← hk, Nat.cast_ofNat]⟩
  · rw [if_neg h0]
    split_ifs with hlt
    · refine ⟨1075 - exponent.toNat, rfl, (hdiv _ _).trans ?_⟩
      rw [show -((1075 - exponent.toNat : ℕ) : ℤ) = exponent.toNat - 1075 by omega]
      rfl
    · refine ⟨0, rfl, ?_⟩
      rw [show (exponent.toNat : ℤ) - 1075 = (exponent.toNat - 1075 : ℕ) by omega, zpow_natCast,
        pow_zero, div_one]
      exact_mod_cast rfl

end Double

end QueryDiagram
