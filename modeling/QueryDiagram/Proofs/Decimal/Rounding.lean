import Mathlib

/-!
# Rounding to doubles

A positive fraction is rounded to a multiple of `2 ^ quantum`, the even one of two that are equally
near (`Double.rounded`). The operations on doubles know of their exact result its mantissa, whether
it lies in the upper half of the unit above that, and whether it lies neither at an end nor in the
middle (`Double.extended`). As shifting agrees with halving (`shiftRight_extended`), what an
operation gives depends on nothing but its exact result (`roundWithAccuracy_eq_rounded`).
-/

namespace QueryDiagram

namespace Double

open Float.Model Float.Model.UnpackedFloat

/-! ## Mantissas of fractions -/

/-- The mantissa of a fraction in units. -/
def extended (q : ℚ) : ExtendedMantissa :=
  ⟨⌊q⌋₊, decide (1 / 2 ≤ Int.fract q), decide (Int.fract q ≠ 0 ∧ Int.fract q ≠ 1 / 2)⟩

theorem extended_add (m : ℕ) {f : ℚ} (h0 : 0 ≤ f) (h1 : f < 1) :
    extended (m + f) = ⟨m, decide (1 / 2 ≤ f), decide (f ≠ 0 ∧ f ≠ 1 / 2)⟩ := by
  have hfract : Int.fract (m + f) = f := by
    rw [Int.fract_natCast_add, Int.fract_eq_self.2 ⟨h0, h1⟩]
  have hfloor : ⌊(m : ℚ) + f⌋₊ = m :=
    (Nat.floor_eq_iff (by positivity)).2 ⟨by linarith, by linarith⟩
  rw [extended, hfract, hfloor]

theorem exists_eq_add {q : ℚ} (hq : 0 ≤ q) : ∃ (m : ℕ) (f : ℚ), q = m + f ∧ 0 ≤ f ∧ f < 1 :=
  ⟨⌊q⌋₊, q - ⌊q⌋₊, by ring, by linarith [Nat.floor_le hq], by linarith [Nat.lt_floor_add_one q]⟩

theorem extended_natCast (m : ℕ) : .ofMantissaAndAccuracy m .exact = extended m := by
  have h := extended_add m (f := 0) le_rfl (by norm_num)
  rw [add_zero] at h
  rw [h]
  norm_num [ExtendedMantissa.ofMantissaAndAccuracy]

/-- The quotient, and how twice the remainder compares with the divisor. -/
theorem extended_div (m : ℕ) {k : ℕ} (hk : 0 < k) :
    .ofMantissaAndAccuracy (m / k) (accuracyOfFraction (m % k) k) = extended (m / k) := by
  have hk' : (0 : ℚ) < k := by exact_mod_cast hk
  have hr : ((m % k : ℕ) : ℚ) < k := by exact_mod_cast Nat.mod_lt m hk
  have hq : (m : ℚ) / k = (m / k : ℕ) + (m % k : ℕ) / k := by
    field_simp
    exact_mod_cast (Nat.div_add_mod m k).symm
  rw [hq, extended_add _ (by positivity) ((div_lt_one hk').2 hr), accuracyOfFraction]
  generalize m % k = r
  have hzero : (r : ℚ) / k = 0 ↔ r = 0 := by simp [hk.ne']
  have hupper : 1 / 2 ≤ (r : ℚ) / k ↔ k ≤ 2 * r := by
    rw [div_le_div_iff₀ two_pos hk']
    norm_cast
    omega
  have hmid : (r : ℚ) / k = 1 / 2 ↔ 2 * r = k := by
    rw [div_eq_div_iff hk'.ne' two_ne_zero]
    norm_cast
    omega
  simp only [hzero, hupper, hmid, ne_eq]
  by_cases hr : r = 0
  · simp [hr, ExtendedMantissa.ofMantissaAndAccuracy, hk.ne']
  · rw [if_neg hr]
    rcases Nat.lt_trichotomy (2 * r) k with h | h | h
    · rw [Nat.compare_eq_lt.2 h]
      simp [ExtendedMantissa.ofMantissaAndAccuracy, hr, h, h.ne]
    · rw [Nat.compare_eq_eq.2 h]
      simp [ExtendedMantissa.ofMantissaAndAccuracy, h]
    · rw [Nat.compare_eq_gt.2 h]
      simp [ExtendedMantissa.ofMantissaAndAccuracy, hr, h.le, h.ne']

theorem shiftRightOne_extended {q : ℚ} (hq : 0 ≤ q) :
    (extended q).shiftRightOne = extended (q / 2) := by
  obtain ⟨m, f, rfl, h0, h1⟩ := exists_eq_add hq
  have hm : (m : ℚ) = 2 * (m / 2 : ℕ) + (m % 2 : ℕ) := by exact_mod_cast (Nat.div_add_mod m 2).symm
  have hhalf : ((m : ℚ) + f) / 2 = (m / 2 : ℕ) + ((m % 2 : ℕ) + f) / 2 := by linarith
  have hr : ((m % 2 : ℕ) : ℚ) = 0 ∨ ((m % 2 : ℕ) : ℚ) = 1 := by
    exact_mod_cast Nat.mod_two_eq_zero_or_one m
  rw [hhalf, extended_add m h0 h1,
    extended_add (m / 2) (by positivity) (by rcases hr with h | h <;> linarith)]
  -- an odd bit that is shifted out makes the upper half, and what was behind it the sticky bit
  have hupper : 1 / 2 ≤ (((m % 2 : ℕ) : ℚ) + f) / 2 ↔ m % 2 ≠ 0 := by
    rcases hr with h | h <;> rw [h] <;> norm_cast at h <;> simp [h] <;> linarith
  have hsticky : (((m % 2 : ℕ) : ℚ) + f) / 2 ≠ 0 ∧ (((m % 2 : ℕ) : ℚ) + f) / 2 ≠ 1 / 2 ↔ f ≠ 0 := by
    rcases hr with h | h <;> rw [h]
    · constructor
      · rintro ⟨h, -⟩ rfl
        simp at h
      · exact fun hf => ⟨by simpa using hf, fun h => by linarith⟩
    · constructor
      · rintro ⟨-, h⟩ rfl
        simp at h
      · exact fun hf => ⟨fun h => by linarith, fun h => hf (by linarith)⟩
  have hbits : 1 / 2 ≤ f ∨ (f ≠ 0 ∧ f ≠ 1 / 2) ↔ f ≠ 0 := by
    constructor
    · rintro (h | h) rfl
      · norm_num at h
      · exact h.1 rfl
    · exact fun hf => or_iff_not_imp_left.2 fun h => ⟨hf, fun e => h e.ge⟩
  simp only [ExtendedMantissa.shiftRightOne, hupper, hsticky, ← Bool.decide_or, hbits]
  rcases Nat.mod_two_eq_zero_or_one m with h | h <;> simp [h]

/-- Shifting to the right halves. -/
theorem shiftRight_extended {q : ℚ} (hq : 0 ≤ q) (n : ℕ) :
    extended q >>> n = extended (q / 2 ^ n) := by
  change n.repeat ExtendedMantissa.shiftRightOne (extended q) = _
  induction n with
  | zero => simp [Nat.repeat]
  | succ n ih => rw [Nat.repeat, ih, shiftRightOne_extended (by positivity), div_div, pow_succ]

/-! ## Nearest natural numbers -/

/-- The natural number nearest to a fraction; of two equally near the even one. -/
def nearestNat (q : ℚ) : ℕ := (extended q).roundedMantissa

theorem nearestNat_bounds (q : ℚ) : ⌊q⌋₊ ≤ nearestNat q ∧ nearestNat q ≤ ⌊q⌋₊ + 1 := by
  rcases h : extended q with ⟨m, r, s⟩
  obtain rfl : ⌊q⌋₊ = m := congrArg ExtendedMantissa.mantissa h
  cases r <;> cases s <;>
    simp only [nearestNat, h, ExtendedMantissa.roundedMantissa, ExtendedMantissa.accuracy,
      Accuracy.roundToNearestEven] <;>
    omega

@[simp]
theorem nearestNat_natCast (n : ℕ) : nearestNat n = n := by
  rw [nearestNat, ← extended_natCast]
  rfl

theorem nearestNat_eq_zero {q : ℚ} (h0 : 0 ≤ q) (h : q < 1 / 2) : nearestNat q = 0 := by
  have he := extended_add 0 h0 (by linarith)
  rw [Nat.cast_zero, zero_add, decide_eq_false (by linarith)] at he
  rw [nearestNat, he]
  generalize decide (q ≠ 0 ∧ q ≠ 1 / 2) = sticky
  cases sticky <;> rfl

/-! ## Nearest doubles -/

/-- The exponent of the last bit of the double nearest to a fraction. -/
def quantum (q : ℚ) : ℤ := max (Int.log 2 q - 52) (-1074)

/-- The double nearest to a positive fraction, if its exponent is not too large. -/
def rounded (q : ℚ) : UnpackedFloat :=
  let n := nearestNat (q / 2 ^ quantum q)
  if h : n = 0 then .zero .positive
  else if n < 2 ^ 53 then .finite .positive n (quantum q) (Nat.pos_of_ne_zero h)
  else .finite .positive (2 ^ 52) (quantum q + 1) (by decide)

theorem lt_zpow_quantum {q : ℚ} : q < 2 ^ (quantum q + 53) := by
  have hle : Int.log 2 q + 1 ≤ quantum q + 53 := by
    unfold quantum
    omega
  refine (Int.lt_zpow_succ_log_self one_lt_two q).trans_le ?_
  exact_mod_cast zpow_le_zpow_right₀ (one_le_two : (1 : ℚ) ≤ 2) hle

theorem zpow_quantum_le {q : ℚ} (hq : 0 < q) (h : -1074 < quantum q) :
    2 ^ (quantum q + 52) ≤ q := by
  have he : quantum q + 52 = Int.log 2 q := by
    unfold quantum at h ⊢
    omega
  rw [he]
  exact_mod_cast Int.zpow_log_le_self one_lt_two hq

theorem nearestNat_div_quantum_le {q : ℚ} (hq : 0 < q) :
    nearestNat (q / 2 ^ quantum q) ≤ 2 ^ 53 := by
  have hlt : q / 2 ^ quantum q < (2 ^ 53 : ℕ) := by
    rw [div_lt_iff₀ (by positivity)]
    refine lt_zpow_quantum.trans_eq ?_
    rw [zpow_add₀ two_ne_zero]
    push_cast
    ring
  have hf := (Nat.floor_lt (by positivity)).2 hlt
  have hn := (nearestNat_bounds (q / 2 ^ quantum q)).2
  omega

/-! ## Operations -/

theorem targetExponent_eq (t : ℤ) : Format.binary64.targetExponent t = max (t - 53) (-1074) := rfl

theorem log_eq {q : ℚ} (hq : 0 < q) {m : ℕ} {e : ℤ} (hm : ⌊q / 2 ^ e⌋₊ = m) (h0 : m ≠ 0) :
    Int.log 2 q = m.log2 + e := by
  have he : (0 : ℚ) < 2 ^ e := by positivity
  have hl : (m : ℚ) ≤ q / 2 ^ e := hm ▸ Nat.floor_le (by positivity)
  have hu : q / 2 ^ e < m + 1 := hm ▸ Nat.lt_floor_add_one _
  have hl' : (2 : ℚ) ^ m.log2 ≤ m := by exact_mod_cast Nat.log2_self_le h0
  have hu' : (m : ℚ) + 1 ≤ 2 ^ (m.log2 + 1) := by exact_mod_cast Nat.lt_log2_self
  refine le_antisymm ?_ ?_
  · rw [← Int.lt_add_one_iff, ← Int.lt_zpow_iff_log_lt one_lt_two hq]
    have hq' := (div_lt_iff₀ he).1 (hu.trans_le hu')
    rw [← zpow_natCast, ← zpow_add₀ two_ne_zero] at hq'
    rwa [show (m.log2 : ℤ) + e + 1 = (m.log2 + 1 : ℕ) + e by omega]
  · rw [← Int.zpow_le_iff_le_log one_lt_two hq]
    have hq' := (le_div_iff₀ he).1 (hl'.trans hl)
    rw [← zpow_natCast, ← zpow_add₀ two_ne_zero] at hq'
    exact_mod_cast hq'

theorem floor_mul_zpow_div (m : ℕ) (e : ℤ) : ⌊(m * 2 ^ e : ℚ) / 2 ^ e⌋₊ = m := by
  rw [mul_div_cancel_right₀ _ (by positivity), Nat.floor_natCast]

theorem log_mul_zpow {m : ℕ} (hm : m ≠ 0) (e : ℤ) : Int.log 2 (m * 2 ^ e : ℚ) = m.log2 + e :=
  log_eq (by positivity) (floor_mul_zpow_div m e) hm

/-- The exponent that is aimed at is that of the exact result. -/
theorem targetExponent_eq_quantum {q : ℚ} (hq : 0 < q) {m : ℕ} {e : ℤ}
    (hm : ⌊q / 2 ^ e⌋₊ = m) (he : e ≤ quantum q) :
    Format.binary64.targetExponent (totalExponent m e) = quantum q := by
  rw [targetExponent_eq, totalExponent]
  by_cases h0 : m = 0
  · subst h0
    have hlt : q / 2 ^ e < 1 := Nat.floor_eq_zero.1 hm
    have hlog : Int.log 2 q < e := by
      rw [← Int.lt_zpow_iff_log_lt one_lt_two hq]
      exact_mod_cast (div_lt_one (by positivity)).1 hlt
    unfold quantum at he ⊢
    simp only [Nat.log2_zero]
    omega
  · unfold quantum
    rw [log_eq hq hm h0]
    congr 1
    omega

theorem shiftToTargetExponent_eq {q : ℚ} (hq : 0 < q) {m : ℕ} {e : ℤ} {accuracy : Accuracy}
    (hm : .ofMantissaAndAccuracy m accuracy = extended (q / 2 ^ e)) (he : e ≤ quantum q) :
    shiftToTargetExponent .binary64 m e accuracy =
      (extended (q / 2 ^ quantum q), quantum q) := by
  have hfloor : ⌊q / 2 ^ e⌋₊ = m := by
    have h := congrArg ExtendedMantissa.mantissa hm.symm
    rcases accuracy with _ | (_ | _ | _) <;> exact h
  have hshift : e + ((quantum q - e).toNat : ℤ) = quantum q := by omega
  rw [shiftToTargetExponent, targetExponent_eq_quantum hq hfloor he, shiftToExponent]
  rw [hm, shiftRight_extended (by positivity), div_div, hshift]
  congr 3
  rw [← zpow_natCast, ← zpow_add₀ two_ne_zero, hshift]

theorem shiftToTargetExponent_of_lt {n : ℕ} {e : ℤ} (hn : n < 2 ^ 53) (he : -1074 ≤ e) :
    shiftToTargetExponent .binary64 n e .exact = (⟨n, false, false⟩, e) := by
  have hlog : n.log2 < 53 := by
    by_cases h0 : n = 0
    · simp [h0]
    · exact (Nat.log2_lt h0).2 hn
  have hzero : (Format.binary64.targetExponent (totalExponent n e) - e).toNat = 0 := by
    rw [targetExponent_eq, totalExponent]
    omega
  rw [shiftToTargetExponent, shiftToExponent]
  rw [hzero]
  simp [HShiftRight.hShiftRight, Nat.repeat, ExtendedMantissa.ofMantissaAndAccuracy]

theorem shiftToTargetExponent_of_eq {e : ℤ} (he : -1074 ≤ e) :
    shiftToTargetExponent .binary64 (2 ^ 53) e .exact = (⟨2 ^ 52, false, false⟩, e + 1) := by
  have hone : (Format.binary64.targetExponent (totalExponent (2 ^ 53) e) - e).toNat = 1 := by
    rw [targetExponent_eq, totalExponent, Nat.log2_two_pow]
    omega
  rw [shiftToTargetExponent, shiftToExponent]
  rw [hone]
  rfl

theorem roundWithAccuracy_eq {s : Sign} {m : ℕ} {e e₁ e₂ : ℤ} {accuracy : Accuracy}
    {em₁ em₂ : ExtendedMantissa}
    (h₁ : shiftToTargetExponent .binary64 m e accuracy = (em₁, e₁))
    (h₂ : shiftToTargetExponent .binary64 em₁.roundedMantissa e₁ .exact = (em₂, e₂)) :
    roundWithAccuracy .binary64 s m e accuracy =
      if h : em₂.mantissa = 0 then .zero s
      else .finite s em₂.mantissa e₂ (Nat.pos_of_ne_zero h) := by
  unfold roundWithAccuracy
  rw [h₁]
  dsimp only
  rw [h₂]

/-- What an operation gives is its exact result, rounded. -/
theorem roundWithAccuracy_eq_rounded {q : ℚ} (hq : 0 < q) {m : ℕ} {e : ℤ} {accuracy : Accuracy}
    (hm : .ofMantissaAndAccuracy m accuracy = extended (q / 2 ^ e)) (he : e ≤ quantum q) :
    roundWithAccuracy .binary64 .positive m e accuracy = rounded q := by
  have hmin : -1074 ≤ quantum q := le_max_right _ _
  have h₁ := shiftToTargetExponent_eq hq hm he
  have hround : (extended (q / 2 ^ quantum q)).roundedMantissa =
      nearestNat (q / 2 ^ quantum q) := rfl
  rw [rounded]
  rcases (nearestNat_div_quantum_le hq).lt_or_eq with hn | hn
  · rw [roundWithAccuracy_eq h₁ (by rw [hround, shiftToTargetExponent_of_lt hn hmin])]
    simp only [hn, if_true]
  · rw [roundWithAccuracy_eq h₁ (by rw [hround, hn, shiftToTargetExponent_of_eq hmin])]
    simp only [hn]
    rfl

end Double

end QueryDiagram
