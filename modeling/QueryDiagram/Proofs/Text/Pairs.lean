import Mathlib.Data.List.Chain
import QueryDiagram.Text.Basic

/-!
# Surrogate pairs

A point above U+FFFF is taken apart into the halves of a surrogate pair, and halves that follow
each other are joined. Taking apart undoes joining (`Text.flatMap_halves_joinPairs`), and joining
undoes taking apart where no halves follow each other (`Text.joinPairs_flatMap_halves`).
-/

namespace QueryDiagram

/-! ## Numbers of points -/

namespace CodePoint

theorem val_lt (c : CodePoint) : c.val < 0x110000 := by
  cases c with
  | scalar c =>
    have hc : c.toNat.isValidChar := c.valid
    simp only [Nat.isValidChar] at hc
    rw [val]
    omega
  | surrogate s =>
    have := s.isLt
    rw [val]
    omega

theorem ofNat?_eq_some_iff {n : Nat} {c : CodePoint} : ofNat? n = some c ↔ c.val = n := by
  constructor
  · intro h
    by_cases hn : n.isValidChar
    · rw [ofNat?, dif_pos hn] at h
      rw [← Option.some.inj h]
      rfl
    · rw [ofNat?, dif_neg hn] at h
      by_cases hs : 0xD800 ≤ n ∧ n < 0xE000
      · rw [dif_pos hs] at h
        rw [← Option.some.inj h, val]
        exact Nat.add_sub_cancel' hs.1
      · rw [dif_neg hs] at h
        cases h
  · rintro rfl
    exact ofNat?_val c

theorem mapM_ofNat?_eq_some_iff {ns : List Nat} {t : Text} :
    ns.mapM ofNat? = some t ↔ ns = t.map val := by
  induction ns generalizing t with
  | nil => cases t <;> simp
  | cons n ns ih =>
    simp only [List.mapM_cons, bind, Option.bind_eq_some_iff, pure, Option.some.injEq, ih,
      ofNat?_eq_some_iff]
    constructor
    · rintro ⟨c, rfl, t', rfl, rfl⟩
      rfl
    · intro h
      cases t with
      | nil => cases h
      | cons c t =>
        obtain ⟨hn, hns⟩ := List.cons.inj h
        exact ⟨c, hn.symm, t, hns, rfl⟩

end CodePoint

/-! ## Surrogate pairs -/

namespace CodePoint

theorem val_surrogate (s : Fin 0x800) : (surrogate s).val = 0xD800 + s.val := rfl

theorem halves_of_lt {c : CodePoint} (h : c.val < 0x10000) : c.halves = [c] := if_pos h

theorem combine?_eq_none_left {c : CodePoint} (h : c.isLeading = false) (d : CodePoint) :
    c.combine? d = none := by
  simp [combine?, h]

theorem combine?_eq_none_right {d : CodePoint} (h : d.isTrailing = false) (c : CodePoint) :
    c.combine? d = none := by
  simp [combine?, h]

/-- Two points are halves of a pair that stands for a point if these are its halves. -/
theorem combine?_eq_some_iff {c d e : CodePoint} :
    c.combine? d = some e ↔ 0x10000 ≤ e.val ∧ e.halves = [c, d] := by
  constructor
  · intro h
    unfold combine? at h
    split at h
    · rename_i hpair
      rw [ofNat?_eq_some_iff] at h
      cases c with
      | scalar c => simp [isLeading] at hpair
      | surrogate s =>
        cases d with
        | scalar d => simp [isTrailing] at hpair
        | surrogate s' =>
          simp only [isLeading, isTrailing, Bool.and_eq_true, decide_eq_true_eq] at hpair
          have hs' := s'.isLt
          rw [val_surrogate, val_surrogate] at h
          have hlarge : 0x10000 ≤ e.val := by omega
          refine ⟨hlarge, ?_⟩
          rw [halves, if_neg (by omega)]
          simp only [List.cons.injEq, surrogate.injEq, Fin.ext_iff, and_true]
          omega
    · cases h
  · rintro ⟨hlarge, h⟩
    have hlt := e.val_lt
    rw [halves, if_neg (by omega)] at h
    obtain ⟨rfl, hd⟩ := List.cons.inj h
    obtain rfl := List.singleton_inj.1 hd
    rw [combine?, if_pos, ofNat?_eq_some_iff]
    · simp only [val_surrogate]
      omega
    · simp only [isLeading, isTrailing, Bool.and_eq_true, decide_eq_true_eq]
      omega

theorem val_lt_of_mem_halves {c d : CodePoint} (h : d ∈ c.halves) : d.val < 0x10000 := by
  unfold halves at h
  split at h
  · rwa [List.mem_singleton.1 h]
  · simp only [List.mem_cons, List.not_mem_nil, or_false] at h
    rcases h with rfl | rfl <;> rw [val_surrogate] <;> omega

/-- A point of two halves is no half itself. -/
theorem not_half_of_le {c : CodePoint} (h : 0x10000 ≤ c.val) :
    c.isLeading = false ∧ c.isTrailing = false := by
  cases c with
  | scalar c => exact ⟨rfl, rfl⟩
  | surrogate s =>
    have := s.isLt
    rw [val_surrogate] at h
    omega

/-- The halves of a point as a pair. -/
theorem exists_halves_eq {c : CodePoint} (h : 0x10000 ≤ c.val) :
    ∃ leading trailing, c.halves = [leading, trailing] ∧ leading.isTrailing = false := by
  refine ⟨_, _, if_neg (by omega), ?_⟩
  simp only [isTrailing, decide_eq_false_iff_not]
  omega

end CodePoint

namespace Text

/-- No two halves of a surrogate pair follow each other. -/
def IsJoined (t : Text) : Prop := t.IsChain fun c d => c.combine? d = none

variable {t : Text} {c d : CodePoint}

/-- Without any halves there are none that follow each other. -/
theorem isJoined_of_isWellFormed (h : t.isWellFormed) : IsJoined t := by
  induction t with
  | nil => exact .nil
  | cons c t ih =>
    obtain ⟨hc, ht⟩ := Bool.and_eq_true_iff.1 (List.all_cons.symm.trans h)
    have hleading : c.isLeading = false := by
      cases c with
      | scalar c => rfl
      | surrogate s => cases hc
    exact List.isChain_cons.2 ⟨fun d _ => CodePoint.combine?_eq_none_left hleading d, ih ht⟩

theorem head?_joinPairs (t : Text) : (joinPairs t).head? = front? t := by
  fun_cases joinPairs t <;> simp [front?, *]

theorem joinPairs_cons_of_none {c d : CodePoint} (h : c.combine? d = none) (t : Text) :
    joinPairs (c :: d :: t) = c :: joinPairs (d :: t) := by
  rw [joinPairs, h]

/-- Joined points can be taken apart again. -/
theorem flatMap_halves_joinPairs (h : ∀ c ∈ t, c.val < 0x10000) :
    (joinPairs t).flatMap CodePoint.halves = t := by
  fun_induction joinPairs t with
  | case1 => rfl
  | case2 c => simpa using CodePoint.halves_of_lt (h c (by simp))
  | case3 c d rest e he ih =>
    have hrest := ih fun c' hc' => h c' (by simp [hc'])
    rw [List.flatMap_cons, (CodePoint.combine?_eq_some_iff.1 he).2, hrest]
    rfl
  | case4 c d rest he ih =>
    have hrest := ih fun c' hc' => h c' (List.mem_cons_of_mem _ hc')
    rw [List.flatMap_cons, CodePoint.halves_of_lt (h c (by simp)), hrest]
    rfl

/-- Points that were taken apart are joined again. -/
theorem joinPairs_flatMap_halves (h : IsJoined t) :
    joinPairs (t.flatMap CodePoint.halves) = t := by
  induction t with
  | nil => rfl
  | cons c t ih =>
    obtain ⟨hhead, ht⟩ := List.isChain_cons.1 h
    rw [List.flatMap_cons]
    by_cases hc : c.val < 0x10000
    · rw [CodePoint.halves_of_lt hc]
      cases t with
      | nil => rfl
      | cons d t =>
        -- what follows is the next point itself, or a half that completes no pair
        have hnext : ∃ e rest, d.halves = e :: rest ∧ c.combine? e = none := by
          by_cases hd : d.val < 0x10000
          · exact ⟨d, [], CodePoint.halves_of_lt hd, hhead d rfl⟩
          · obtain ⟨l, r, hd, hl⟩ := CodePoint.exists_halves_eq (Nat.le_of_not_lt hd)
            exact ⟨l, [r], hd, CodePoint.combine?_eq_none_right hl c⟩
        obtain ⟨e, rest, hd, he⟩ := hnext
        have hrest := ih ht
        rw [List.flatMap_cons, hd] at hrest ⊢
        exact (joinPairs_cons_of_none he _).trans (congrArg (c :: ·) hrest)
    · have hle := Nat.le_of_not_lt hc
      obtain ⟨l, r, hpair, -⟩ := CodePoint.exists_halves_eq hle
      have hjoined := CodePoint.combine?_eq_some_iff.2 ⟨hle, hpair⟩
      rw [hpair, List.cons_append, List.cons_append, List.nil_append, joinPairs, hjoined, ih ht]

theorem isJoined_joinPairs (t : Text) : IsJoined (joinPairs t) := by
  fun_induction joinPairs t with
  | case1 => exact .nil
  | case2 c => exact .singleton c
  | case3 c d rest e he ih =>
    have hleading := (CodePoint.not_half_of_le (CodePoint.combine?_eq_some_iff.1 he).1).1
    exact List.isChain_cons.2 ⟨fun d _ => CodePoint.combine?_eq_none_left hleading d, ih⟩
  | case4 c d rest he ih =>
    refine List.isChain_cons.2 ⟨fun e hfront => ?_, ih⟩
    rw [head?_joinPairs, Option.mem_def] at hfront
    cases rest with
    | nil =>
      obtain rfl := Option.some.inj hfront
      exact he
    | cons d' rest =>
      rw [front?, Option.some.injEq] at hfront
      cases hpair : d.combine? d' with
      | none =>
        rw [hpair] at hfront
        rwa [← hfront]
      | some e' =>
        rw [hpair] at hfront
        have htrailing := (CodePoint.not_half_of_le (CodePoint.combine?_eq_some_iff.1 hpair).1).2
        exact CodePoint.combine?_eq_none_right (hfront ▸ htrailing) c

end Text

end QueryDiagram
