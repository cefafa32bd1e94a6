import Mathlib.Tactic.SplitIfs
import QueryDiagram.Json.Reader
import QueryDiagram.Json.Writer

/-!
# Strings that are read back

A written string is read back point by point (`stringRest?_escaped`), whatever points it holds: an
escape stands for one control character, which never begins a surrogate pair
(`completePair_of_not_leading`).
-/

namespace QueryDiagram

namespace Json

variable {c : CodePoint} {t rest read : Text}

theorem completePair_of_not_leading (h : c.isLeading = false) (t : Text) :
    completePair c t = (c, t) := by
  have hnone : ∀ d, c.combine? d = none := fun d => by simp [CodePoint.combine?, h]
  unfold completePair
  split
  · rw [show c.combine? = fun _ => none from funext hnone, Option.bind_fun_none]
  · rfl

/-! ## Single points -/

theorem stringRest?_of_escape (h : escape? t = some (c, rest)) :
    stringRest? read (.scalar '\\' :: t) = stringRest? (c :: read) rest := by
  rw [stringRest?, if_neg (by decide), if_pos rfl]
  split
  · rename_i e rest' he
    obtain ⟨rfl, rfl⟩ := Prod.mk.inj (Option.some.inj (he.symm.trans h))
    rfl
  · rename_i he
    rw [h] at he
    cases he

/-- The four digits of a control character stand for it. -/
theorem escape?_ofHex (h : c.val < 0x20) (t : Text) :
    escape? (.scalar 'u' :: (Text.ofHex 4 c.val ++ t)) = some (c, t) := by
  have hdigits : ∀ n < 0x20, Text.ofHex 4 n = [.scalar '0', .scalar '0',
      .scalar (Nat.digitChar (n / 16)), .scalar (Nat.digitChar (n % 16))] ∧
      CodePoint.ofHex4? (.scalar '0') (.scalar '0') (.scalar (Nat.digitChar (n / 16)))
        (.scalar (Nat.digitChar (n % 16))) = CodePoint.ofNat? n := by decide
  obtain ⟨hx, hv⟩ := hdigits c.val h
  have hl : c.isLeading = false := by
    cases c with
    | scalar _ => rfl
    | surrogate s =>
      simp only [CodePoint.val] at h
      omega
  rw [hx]
  simp only [List.cons_append, List.nil_append, escape?, hv, CodePoint.ofNat?_val, Option.map_some,
    completePair_of_not_leading hl]

theorem stringRest?_escaped (c : CodePoint) (read t : Text) :
    stringRest? read (escaped c ++ t) = stringRest? (c :: read) t := by
  unfold escaped
  split_ifs with h₁ h₂ h₃ h₄ h₅ h₆ h₇ h₈
  · exact stringRest?_of_escape (by rw [h₁]; rfl)
  · exact stringRest?_of_escape (by rw [h₂]; rfl)
  · exact stringRest?_of_escape (by rw [h₃]; rfl)
  · exact stringRest?_of_escape (by rw [h₄]; rfl)
  · exact stringRest?_of_escape (by rw [h₅]; rfl)
  · exact stringRest?_of_escape (by rw [h₆]; rfl)
  · exact stringRest?_of_escape (by rw [h₇]; rfl)
  · exact stringRest?_of_escape (escape?_ofHex h₈ t)
  · rw [List.cons_append, stringRest?, if_neg h₁, if_neg h₂, if_neg h₈, List.nil_append]

/-! ## Whole strings -/

theorem stringRest?_flatMap_escaped (read t rest : Text) :
    stringRest? read (t.flatMap escaped ++ .scalar '"' :: rest) =
      some (read.reverse ++ t, rest) := by
  induction t generalizing read with
  | nil => rw [List.flatMap_nil, List.nil_append, stringRest?, if_pos rfl, List.append_nil]
  | cons c t ih =>
    rw [List.flatMap_cons, List.append_assoc, stringRest?_escaped, ih, List.reverse_cons,
      List.append_assoc, List.singleton_append]

/-- A string is read back as it was written. -/
theorem stringRest?_writeString (t rest : Text) :
    ∃ body, writeString t ++ rest = .scalar '"' :: body ∧
      stringRest? [] body = some (t, rest) :=
  ⟨t.flatMap escaped ++ .scalar '"' :: rest, by simp [writeString, Text.ofString],
    stringRest?_flatMap_escaped [] t rest⟩

end Json

end QueryDiagram
