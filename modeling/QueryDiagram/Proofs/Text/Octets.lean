import Mathlib.Data.List.Basic
import Mathlib.Tactic.Linarith
import QueryDiagram.Proofs.Text.Pairs
import QueryDiagram.Text.Encoding

/-!
# Points of octets

Octets are read as points exactly if they spell them: by numbers of one width
(`ByteOrder.points?_eq_some_iff`), or in UTF-8 (`Utf8.points?_eq_some_iff`), where a character is
read octet by octet and the digits of its number in base 64 follow the first one
(`Utf8.points?_some_iff`).
-/

namespace QueryDiagram

/-! ## Numbers in octets -/

namespace ByteOrder

theorem length_leastFirst (width n : Nat) : (leastFirst width n).length = width := by
  induction width generalizing n with
  | zero => rfl
  | succ width ih => rw [leastFirst, List.length_cons, ih]

theorem ofLeastFirst_leastFirst {width n : Nat} (h : n < 256 ^ width) :
    ofLeastFirst (leastFirst width n) = n := by
  induction width generalizing n with
  | zero =>
    rw [pow_zero] at h
    obtain rfl : n = 0 := by omega
    rfl
  | succ width ih =>
    have hdiv : n / 256 < 256 ^ width := by
      rw [pow_succ] at h
      exact Nat.div_lt_of_lt_mul (by linarith)
    rw [leastFirst, ofLeastFirst, ih hdiv, UInt8.toNat_ofNat']
    exact Nat.mod_add_div n 256

theorem leastFirst_ofLeastFirst (os : List UInt8) :
    leastFirst os.length (ofLeastFirst os) = os := by
  induction os with
  | nil => rfl
  | cons o os ih =>
    have ho : o.toNat < 256 := o.toNat_lt
    have hfirst : UInt8.ofNat (o.toNat + 256 * ofLeastFirst os) = o := by
      apply UInt8.toNat_inj.1
      rw [UInt8.toNat_ofNat']
      omega
    have hrest : (o.toNat + 256 * ofLeastFirst os) / 256 = ofLeastFirst os := by omega
    rw [ofLeastFirst, List.length_cons, leastFirst, hfirst, hrest, ih]

theorem ofLeastFirst_lt (os : List UInt8) : ofLeastFirst os < 256 ^ os.length := by
  induction os with
  | nil => simp [ofLeastFirst]
  | cons o os ih =>
    have ho : o.toNat < 256 := o.toNat_lt
    rw [ofLeastFirst, List.length_cons, pow_succ]
    omega

variable {order : ByteOrder} {width n : Nat} {os : List UInt8} {ns : List Nat}

@[simp] theorem arrange_arrange (order : ByteOrder) (os : List UInt8) :
    order.arrange (order.arrange os) = os := by
  cases order with
  | big => exact List.reverse_reverse os
  | little => rfl

@[simp] theorem length_arrange (order : ByteOrder) (os : List UInt8) :
    (order.arrange os).length = os.length := by
  cases order with
  | big => exact List.length_reverse
  | little => rfl

@[simp] theorem length_octets (order : ByteOrder) (width n : Nat) :
    (order.octets width n).length = width := by
  rw [octets, length_arrange, length_leastFirst]

theorem number_octets (h : n < 256 ^ width) : order.number (order.octets width n) = n := by
  rw [number, octets, arrange_arrange, ofLeastFirst_leastFirst h]

theorem octets_number (h : os.length = width) : order.octets width (order.number os) = os := by
  rw [number, octets, ← h, ← length_arrange order os, leastFirst_ofLeastFirst, arrange_arrange]

theorem number_lt (h : os.length = width) : order.number os < 256 ^ width := by
  rw [number, ← h, ← length_arrange order os]
  exact ofLeastFirst_lt _

/-- The octets that complete a number. -/
theorem numbers?_append {begun os' : List UInt8} (hne : os' ≠ [])
    (h : begun.length + os'.length = width) (os : List UInt8) :
    order.numbers? width begun (os' ++ os) =
      (order.numbers? width [] os).map (order.number (begun ++ os') :: ·) := by
  induction os' generalizing begun with
  | nil => exact absurd rfl hne
  | cons o os' ih =>
    have hlength : (begun ++ [o]).length = begun.length + 1 := by simp
    rw [List.length_cons] at h
    rw [List.cons_append, numbers?]
    by_cases hlast : os' = []
    · subst hlast
      rw [if_neg (by rw [hlength]; simp at h; omega), List.nil_append]
    · have hpos := List.length_pos_of_ne_nil hlast
      rw [if_pos (by omega), ih hlast (by omega), List.append_assoc]
      rfl

/-- Octets that are read are those of the numbers, after those that were begun with. -/
theorem eq_of_numbers? {begun : List UInt8} (hbegun : begun.length < width)
    (h : order.numbers? width begun os = some ns) :
    begun ++ os = ns.flatMap (order.octets width) ∧ ∀ n ∈ ns, n < 256 ^ width := by
  induction os generalizing begun ns with
  | nil =>
    rw [numbers?] at h
    split at h
    · rename_i hnone
      obtain rfl := Option.some.inj h
      simpa using hnone
    · cases h
  | cons o os ih =>
    rw [numbers?] at h
    split at h
    · rename_i hlt
      simpa using ih hlt h
    · rename_i hge
      obtain ⟨ns', hns, rfl⟩ := Option.map_eq_some_iff.1 h
      have hlength : (begun ++ [o]).length = width := by
        simp only [List.length_append, List.length_singleton] at hge ⊢
        omega
      have hnone : ([] : List UInt8).length < width := Nat.zero_lt_of_lt hbegun
      obtain ⟨hos, hlt⟩ := ih hnone hns
      rw [List.flatMap_cons, octets_number hlength, ← hos, List.append_assoc]
      exact ⟨rfl, List.forall_mem_cons.2 ⟨number_lt hlength, hlt⟩⟩

theorem numbers?_eq_some_iff (hwidth : 0 < width) :
    order.numbers? width [] os = some ns ↔
      os = ns.flatMap (order.octets width) ∧ ∀ n ∈ ns, n < 256 ^ width := by
  refine ⟨eq_of_numbers? hwidth, ?_⟩
  rintro ⟨rfl, hlt⟩
  induction ns with
  | nil => rfl
  | cons n ns ih =>
    obtain ⟨hn, hns⟩ := List.forall_mem_cons.1 hlt
    have hne : order.octets width n ≠ [] := by
      apply List.ne_nil_of_length_pos
      rwa [length_octets]
    rw [List.flatMap_cons, numbers?_append hne (by simp), ih hns, List.nil_append,
      number_octets hn]
    rfl

/-- Points are read of the octets of their numbers. -/
theorem points?_eq_some_iff (hwidth : 0 < width) {t : Text} :
    order.points? width os = some t ↔
      os = t.flatMap (fun c => order.octets width c.val) ∧ ∀ c ∈ t, c.val < 256 ^ width := by
  simp only [points?, bind, Option.bind_eq_some_iff, CodePoint.mapM_ofNat?_eq_some_iff,
    numbers?_eq_some_iff hwidth]
  constructor
  · rintro ⟨_, ⟨rfl, hlt⟩, rfl⟩
    exact ⟨List.flatMap_map .., by simpa using hlt⟩
  · rintro ⟨rfl, hlt⟩
    exact ⟨t.map CodePoint.val, ⟨(List.flatMap_map ..).symm, by simpa using hlt⟩, rfl⟩

end ByteOrder

/-! ## UTF-8 -/

namespace Utf8

variable {bits k least : Nat} {os : List UInt8} {c : CodePoint} {t : Text}

theorem ofNat_eq_iff {n : Nat} (h : n < 256) {o : UInt8} : UInt8.ofNat n = o ↔ n = o.toNat := by
  rw [← UInt8.toNat_inj, UInt8.toNat_ofNat_of_lt' h]

theorem point?_eq_some_iff {p : Part} : p.point? = some c ↔ p.least ≤ p.bits ∧ c.val = p.bits := by
  unfold Part.point?
  split <;> simp_all [CodePoint.ofNat?_eq_some_iff]

/-- What is read where a character is complete, and where it is not. -/
theorem points?_cons_iff {part : Option Part} {o : UInt8} :
    points? part (o :: os) = some (c :: t) ↔ ∃ p, next? part o.toNat = some p ∧
      if p.missing = 0 then p.least ≤ p.bits ∧ c.val = p.bits ∧ points? none os = some t
      else points? (some p) os = some (c :: t) := by
  simp only [points?, bind, Option.bind_eq_some_iff]
  refine exists_congr fun p => and_congr_right fun _ => ?_
  split
  · simp only [Option.bind_eq_some_iff, point?_eq_some_iff, pure, Option.some.injEq,
      List.cons.injEq]
    constructor
    · rintro ⟨c', ⟨hleast, hbits⟩, t', ht, rfl, rfl⟩
      exact ⟨hleast, hbits, ht⟩
    · rintro ⟨hleast, hbits, ht⟩
      exact ⟨c, ⟨hleast, hbits⟩, t, ht, rfl, rfl⟩
  · rfl

/-- An octet that goes on with a character adds six bits. -/
theorem next?_some_iff {p q : Part} {o : UInt8} :
    next? (some p) o.toNat = some q ↔ ∃ d < 0x40, o = UInt8.ofNat (0x80 + d) ∧
      q = { p with bits := p.bits * 0x40 + d, missing := p.missing - 1 } := by
  simp only [next?]
  constructor
  · intro h
    split at h
    · rename_i ho
      refine ⟨o.toNat - 0x80, by omega, ?_, (Option.some.inj h).symm⟩
      rw [eq_comm, ofNat_eq_iff (by omega)]
      omega
    · cases h
  · rintro ⟨d, hd, rfl, rfl⟩
    have ho : (UInt8.ofNat (0x80 + d)).toNat = 0x80 + d :=
      UInt8.toNat_ofNat_of_lt' (show _ < 256 by omega)
    rw [ho, if_pos (by omega), Nat.add_sub_cancel_left]

theorem points?_some_cons_iff {o : UInt8} :
    points? (some ⟨bits, k + 1, least⟩) (o :: os) = some (c :: t) ↔
      ∃ d < 0x40, o = UInt8.ofNat (0x80 + d) ∧
        if k = 0 then
          least ≤ bits * 0x40 + d ∧ c.val = bits * 0x40 + d ∧ points? none os = some t
        else points? (some ⟨bits * 0x40 + d, k, least⟩) os = some (c :: t) := by
  rw [points?_cons_iff]
  simp only [next?_some_iff]
  constructor
  · rintro ⟨_, ⟨d, hd, ho, rfl⟩, h⟩
    exact ⟨d, hd, ho, h⟩
  · rintro ⟨d, hd, ho, h⟩
    exact ⟨_, ⟨d, hd, ho, rfl⟩, h⟩

theorem tails_succ (k n : Nat) :
    tails (k + 1) n = UInt8.ofNat (0x80 + n / 0x40 ^ k % 0x40) :: tails k n := rfl

/-- A character after some of its octets is read if the rest of its number follows in base 64. -/
theorem points?_some_iff :
    points? (some ⟨bits, k + 1, least⟩) os = some (c :: t) ↔
      c.val / 0x40 ^ (k + 1) = bits ∧ least ≤ c.val ∧
        ∃ os', os = tails (k + 1) c.val ++ os' ∧ points? none os' = some t := by
  induction k generalizing bits os with
  | zero =>
    cases os with
    | nil => simp [points?, tails_succ]
    | cons o os =>
      rw [points?_some_cons_iff, tails_succ]
      constructor
      · rintro ⟨d, hd, rfl, hleast, hc, ht⟩
        have hdigit : c.val / 0x40 ^ 0 % 0x40 = d := by omega
        exact ⟨by omega, by omega, os, by rw [hdigit]; rfl, ht⟩
      · rintro ⟨hbits, hleast, os', hos, ht⟩
        obtain ⟨rfl, rfl⟩ := List.cons.inj hos
        exact ⟨c.val / 0x40 ^ 0 % 0x40, by omega, rfl, by omega, by omega, ht⟩
  | succ k ih =>
    have hpow : c.val / 0x40 ^ (k + 1 + 1) = c.val / 0x40 ^ (k + 1) / 0x40 := by
      rw [pow_succ, Nat.div_div_eq_div_mul]
    cases os with
    | nil => simp [points?, tails_succ]
    | cons o os =>
      rw [points?_some_cons_iff, tails_succ, hpow]
      simp only [Nat.succ_ne_zero, if_false, ih]
      constructor
      · rintro ⟨d, hd, rfl, hbits, hleast, os', rfl, ht⟩
        have hdigit : c.val / 0x40 ^ (k + 1) % 0x40 = d := by omega
        exact ⟨by omega, hleast, os', by rw [hdigit]; rfl, ht⟩
      · rintro ⟨hbits, hleast, os', hos, ht⟩
        obtain ⟨rfl, rfl⟩ := List.cons.inj hos
        exact ⟨c.val / 0x40 ^ (k + 1) % 0x40, by omega, rfl, by omega, hleast, os', rfl, ht⟩

/-- The first octet of a point tells how many follow, and holds what they leave of its number. -/
theorem exists_first?_octets (c : CodePoint) : ∃ o k least, octets c = o :: tails k c.val ∧
    first? o.toNat = some ⟨c.val / 0x40 ^ k, k, least⟩ ∧ least ≤ c.val := by
  have hlt := c.val_lt
  have hoctet : ∀ {n : Nat}, n < 256 → (UInt8.ofNat n).toNat = n := UInt8.toNat_ofNat_of_lt'
  unfold octets first?
  split_ifs with h₁ h₂ h₃
  · refine ⟨_, 0, 0, rfl, ?_, Nat.zero_le _⟩
    rw [hoctet (by omega), if_pos h₁, pow_zero, Nat.div_one]
  · refine ⟨_, 1, 0x80, rfl, ?_, by omega⟩
    rw [hoctet (by omega), if_neg (by omega), if_neg (by omega), if_pos (by omega),
      Nat.add_sub_cancel_left, pow_one]
  · refine ⟨_, 2, 0x800, rfl, ?_, by omega⟩
    rw [hoctet (by omega), if_neg (by omega), if_neg (by omega), if_neg (by omega),
      if_pos (by omega), Nat.add_sub_cancel_left]
    rfl
  · refine ⟨_, 3, 0x10000, rfl, ?_, by omega⟩
    rw [hoctet (by omega), if_neg (by omega), if_neg (by omega), if_neg (by omega),
      if_neg (by omega), if_pos (by omega), Nat.add_sub_cancel_left]
    rfl

theorem octets_eq_of_first? {o : UInt8} (h : first? o.toNat = some ⟨c.val / 0x40 ^ k, k, least⟩)
    (hleast : least ≤ c.val) : octets c = o :: tails k c.val := by
  have ho : o.toNat < 256 := o.toNat_lt
  have hoctet : ∀ n, n = o.toNat → UInt8.ofNat n = o := fun n hn =>
    (ofNat_eq_iff (hn ▸ ho)).2 hn
  unfold first? at h
  split_ifs at h <;> obtain ⟨hbits, rfl, rfl⟩ := Part.mk.inj (Option.some.inj h)
  · rw [octets, if_pos (by omega), hoctet c.val (by omega), tails]
  · rw [octets, if_neg (by omega), if_pos (by omega), hoctet _ (by omega)]
  · rw [octets, if_neg (by omega), if_neg (by omega), if_pos (by omega), hoctet _ (by omega)]
  · rw [octets, if_neg (by omega), if_neg (by omega), if_neg (by omega), hoctet _ (by omega)]

/-- What is read after the first octet of a character. -/
theorem resume_iff {p : Part} :
    (if p.missing = 0 then p.least ≤ p.bits ∧ c.val = p.bits ∧ points? none os = some t
      else points? (some p) os = some (c :: t)) ↔
      p.bits = c.val / 0x40 ^ p.missing ∧ p.least ≤ c.val ∧
        ∃ os', os = tails p.missing c.val ++ os' ∧ points? none os' = some t := by
  obtain ⟨bits, missing, least⟩ := p
  cases missing with
  | zero =>
    simp only [if_true, pow_zero, Nat.div_one, tails, List.nil_append, exists_eq_left']
    constructor
    · rintro ⟨hleast, rfl, ht⟩
      exact ⟨rfl, hleast, ht⟩
    · rintro ⟨rfl, hleast, ht⟩
      exact ⟨hleast, rfl, ht⟩
  | succ k =>
    rw [if_neg (Nat.succ_ne_zero k), points?_some_iff, eq_comm]

/-- The first character that is read. -/
theorem points?_none_iff :
    points? none os = some (c :: t) ↔
      ∃ os', os = octets c ++ os' ∧ points? none os' = some t := by
  obtain ⟨o', k, least, hoctets, hfirst, hleast⟩ := exists_first?_octets c
  cases os with
  | nil => simp [points?, hoctets]
  | cons o os =>
    simp only [points?_cons_iff, resume_iff]
    constructor
    · rintro ⟨⟨bits, k, least⟩, hp, hbits, hle, os', rfl, ht⟩
      obtain rfl : bits = c.val / 0x40 ^ k := hbits
      exact ⟨os', by rw [octets_eq_of_first? hp hle]; rfl, ht⟩
    · rintro ⟨os', hos, ht⟩
      rw [hoctets] at hos
      obtain ⟨rfl, rfl⟩ := List.cons.inj hos
      exact ⟨_, hfirst, rfl, hleast, os', rfl, ht⟩

/-- What holds an octet is no empty text. -/
theorem points?_cons_ne_nil (part : Option Part) (o : UInt8) (os : List UInt8) :
    points? part (o :: os) ≠ some [] := by
  intro h
  rw [points?] at h
  obtain ⟨p, -, h⟩ := Option.bind_eq_some_iff.1 h
  split at h
  · simp [bind, Option.bind_eq_some_iff] at h
  · cases os with
    | nil => cases h
    | cons o' os => exact points?_cons_ne_nil _ o' os h

/-- Octets are read in UTF-8 if they are those of a text. -/
theorem points?_eq_some_iff : points? none os = some t ↔ os = t.flatMap octets := by
  induction t generalizing os with
  | nil =>
    cases os with
    | nil => simp [points?]
    | cons o os => simpa using points?_cons_ne_nil none o os
  | cons c t ih =>
    rw [points?_none_iff, List.flatMap_cons]
    simp only [ih]
    constructor
    · rintro ⟨os', rfl, rfl⟩
      rfl
    · exact fun h => ⟨_, h, rfl⟩

end Utf8

end QueryDiagram
