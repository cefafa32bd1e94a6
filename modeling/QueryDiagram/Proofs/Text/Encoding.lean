import QueryDiagram.Proofs.Text.Octets

/-!
# What is read of octets

In each encoding octets are read exactly if they are those of a text
(`Encoding.decode?_eq_some_iff`); in UTF-16 that is a text without two halves of a surrogate pair
next to each other, as they would stand for one point. The main statement is
`Text.ofJsonBytes?_eq_some_iff`: a text that begins as JSON does is read of the octets that stand
for it in some encoding, with or without a mark, and of no others.
-/

namespace QueryDiagram

/-! ## Encodings -/

namespace Encoding

variable {e : Encoding} {os : List UInt8} {t : Text}

/-- The texts that an encoding writes. In UTF-16 two halves of a surrogate pair that follow each
other stand for one point. -/
def Writes : Encoding → Text → Prop
  | utf16 _, t => t.IsJoined
  | _, _ => True

theorem writes_of_isWellFormed (h : t.isWellFormed) (e : Encoding) : e.Writes t := by
  cases e with
  | utf16 order => exact Text.isJoined_of_isWellFormed h
  | _ => trivial

/-- Octets are read exactly if they are those of a text. -/
theorem decode?_eq_some_iff : e.decode? os = some t ↔ e.Writes t ∧ os = e.encode t := by
  cases e with
  | utf8 => simp only [decode?, Writes, encode, Utf8.points?_eq_some_iff, true_and]
  | utf16 order =>
    have hlimit : 256 ^ 2 = 0x10000 := by decide
    simp only [decode?, Writes, encode, Option.map_eq_some_iff,
      ByteOrder.points?_eq_some_iff Nat.two_pos, hlimit]
    constructor
    · rintro ⟨units, ⟨rfl, hlt⟩, rfl⟩
      rw [Text.flatMap_halves_joinPairs hlt]
      exact ⟨Text.isJoined_joinPairs units, rfl⟩
    · rintro ⟨ht, rfl⟩
      refine ⟨_, ⟨rfl, fun c hc => ?_⟩, Text.joinPairs_flatMap_halves ht⟩
      obtain ⟨d, -, hc⟩ := List.mem_flatMap.1 hc
      exact CodePoint.val_lt_of_mem_halves hc
  | utf32 order =>
    have hlimit : ∀ c ∈ t, c.val < 256 ^ 4 := fun c _ => c.val_lt.trans (by decide)
    simp only [decode?, Writes, encode, ByteOrder.points?_eq_some_iff (Nat.succ_pos 3), true_and]
    exact and_iff_left hlimit

/-! ## Marks -/

/-- The octets are those of a text in one of the encodings, with or without a mark. -/
def Spells (os : List UInt8) (t : Text) : Prop :=
  ∃ e : Encoding, e.Writes t ∧ (os = e.encode t ∨ os = e.mark ++ e.encode t)

theorem ofMark?_eq_some (h : ofMark? os = some e) : e.mark ++ os.drop e.mark.length = os := by
  have hmark : e.mark.isPrefixOf os := by simpa using List.find?_some h
  exact List.prefix_iff_eq_append.1 (List.isPrefixOf_iff_prefix.1 hmark)

/-- What is read spells what it is read as. -/
theorem spells_of_ofJsonBytes? {bytes : ByteArray} (h : Text.ofJsonBytes? bytes = some t) :
    Spells bytes.data.toList t := by
  unfold Text.ofJsonBytes? ofJson at h
  cases hmark : ofMark? bytes.data.toList with
  | none =>
    rw [hmark] at h
    obtain ⟨hwrites, hos⟩ := decode?_eq_some_iff.1 h
    exact ⟨_, hwrites, .inl hos⟩
  | some e =>
    rw [hmark] at h
    obtain ⟨hwrites, hos⟩ := decode?_eq_some_iff.1 h
    exact ⟨e, hwrites, .inr (by rw [← hos, ofMark?_eq_some hmark])⟩

@[simp] theorem mark_utf8 : mark utf8 = [0xEF, 0xBB, 0xBF] := by decide

@[simp] theorem mark_utf16_big : mark (utf16 .big) = [0xFE, 0xFF] := by decide

@[simp] theorem mark_utf16_little : mark (utf16 .little) = [0xFF, 0xFE] := by decide

@[simp] theorem mark_utf32_big : mark (utf32 .big) = [0, 0, 0xFE, 0xFF] := by decide

@[simp] theorem mark_utf32_little : mark (utf32 .little) = [0xFF, 0xFE, 0, 0] := by
  decide

/-- A mark is told from what follows it, unless zeros follow the mark of UTF-16 with the least
octet first. -/
theorem ofJson_mark_append (h : e = utf16 .little → ¬ [0, 0] <+: os) :
    ofJson (e.mark ++ os) = (e, os) := by
  have hfound : ofMark? (e.mark ++ os) = some e := by
    rcases e with _ | (_ | _) | (_ | _) <;> simp [ofMark?, all]
    exact Bool.eq_false_iff.2 fun hp => h rfl (List.isPrefixOf_iff_prefix.1 hp)
  simp only [ofJson, hfound, List.drop_left]

/-! ## Texts without a mark -/

end Encoding

/-- A text begins as JSON does: with an ASCII character and no zeros. -/
def Text.BeginsPlainly : Text → Prop
  | [] => False
  | c :: t => 0 < c.val ∧ c.val < 0x80 ∧ ∀ d ∈ t.head?, 0 < d.val

namespace Encoding

/-- The octets of an ASCII character. -/
def ascii : Encoding → UInt8 → List UInt8
  | utf8, a => [a]
  | utf16 .big, a => [0, a]
  | utf16 .little, a => [a, 0]
  | utf32 .big, a => [0, 0, 0, a]
  | utf32 .little, a => [a, 0, 0, 0]

variable {a : UInt8} {c : CodePoint}

theorem encode_cons_of_lt (hc : c.val < 0x80) (e : Encoding) (t : Text) :
    e.encode (c :: t) = e.ascii (UInt8.ofNat c.val) ++ e.encode t := by
  have hzero : c.val / 256 = 0 := by omega
  rcases e with _ | (_ | _) | (_ | _) <;>
    simp [encode, ascii, Utf8.octets, hc, ByteOrder.octets, ByteOrder.arrange,
      ByteOrder.leastFirst, CodePoint.halves_of_lt (show c.val < 0x10000 by omega), hzero]

theorem ofNat_ne_zero {n : Nat} (hpos : 0 < n) (hlt : n < 0x80) : UInt8.ofNat n ≠ 0 := by
  intro h
  have hzero := congrArg UInt8.toNat h
  rw [UInt8.toNat_ofNat_of_lt' (show _ < 256 by omega)] at hzero
  exact hpos.ne' hzero

theorem ofMark?_ascii (hpos : 0 < a.toNat) (hlt : a.toNat < 0x80) (e : Encoding)
    (os : List UInt8) : ofMark? (e.ascii a ++ os) = none := by
  have hne : ∀ o : UInt8, o.toNat = 0 ∨ 0x80 ≤ o.toNat → o ≠ a := by
    rintro o ho rfl
    omega
  rcases e with _ | (_ | _) | (_ | _) <;> simp [ofMark?, all, ascii, hne]

/-- The first octets of a text that has no zero in front. -/
theorem exists_utf8_cons {d : CodePoint} (hd : 0 < d.val) (t : Text) :
    ∃ b os, b ≠ 0 ∧ encode utf8 (d :: t) = b :: os := by
  obtain ⟨b, k, least, hoctets, hfirst, -⟩ := Utf8.exists_first?_octets d
  refine ⟨b, _, ?_, by rw [encode, List.flatMap_cons, hoctets]; rfl⟩
  rintro rfl
  obtain ⟨hbits, rfl, -⟩ := Utf8.Part.mk.inj (Option.some.inj hfirst)
  rw [pow_zero] at hbits
  simp at hbits
  omega

theorem exists_utf16_cons {d : CodePoint} (hd : 0 < d.val) (order : ByteOrder) (t : Text) :
    ∃ b b' os, (b = 0 → b' ≠ 0) ∧ encode (utf16 order) (d :: t) = order.arrange [b, b'] ++ os := by
  obtain ⟨u, us, hu, hpos⟩ : ∃ u us, d.halves = u :: us ∧ 0 < u.val := by
    by_cases hlt : d.val < 0x10000
    · exact ⟨d, [], CodePoint.halves_of_lt hlt, hd⟩
    · exact ⟨_, _, if_neg hlt, by rw [CodePoint.val_surrogate]; omega⟩
  have hlt : u.val < 0x10000 :=
    CodePoint.val_lt_of_mem_halves (by rw [hu]; exact List.mem_cons_self)
  refine ⟨UInt8.ofNat u.val, UInt8.ofNat (u.val / 256), _, fun h h' => ?_, by
    rw [encode, List.flatMap_cons, hu, List.cons_append, List.flatMap_cons]
    rfl⟩
  have hlow := congrArg UInt8.toNat h
  have hhigh := congrArg UInt8.toNat h'
  simp only [UInt8.toNat_ofNat', UInt8.toNat_zero] at hlow hhigh
  omega

/-- A plain text is told by its zeros. -/
theorem ofZeros_ascii (ha : a ≠ 0) (ht : ∀ d ∈ t.head?, 0 < d.val) (e : Encoding) :
    ofZeros (e.ascii a ++ e.encode t) = e := by
  cases t with
  | nil => rcases e with _ | (_ | _) | (_ | _) <;> simp [ofZeros, ascii, encode, ha]
  | cons d t =>
    have hd := ht d rfl
    rcases e with _ | (_ | _) | (_ | _)
    · obtain ⟨b, os, hb, h⟩ := exists_utf8_cons hd t
      rw [h]
      rcases os with _ | ⟨_, _ | _⟩ <;> simp [ofZeros, ascii, ha, hb]
    · obtain ⟨b, b', os, -, h⟩ := exists_utf16_cons hd .big t
      rw [h]
      simp [ofZeros, ascii, ByteOrder.arrange, ha]
    · obtain ⟨b, b', os, hb, h⟩ := exists_utf16_cons hd .little t
      rw [h]
      simpa [ofZeros, ascii, ByteOrder.arrange, ha] using hb
    · simp [ofZeros, ascii]
    · simp [ofZeros, ascii, ha]

/-- A plain text is told by its first octets. -/
theorem ofJson_encode (ht : t.BeginsPlainly) (e : Encoding) :
    ofJson (e.encode t) = (e, e.encode t) := by
  cases t with
  | nil => exact ht.elim
  | cons c t =>
    obtain ⟨hpos, hlt, hsecond⟩ := ht
    have ha : (UInt8.ofNat c.val).toNat = c.val := UInt8.toNat_ofNat_of_lt' (show _ < 256 by omega)
    rw [encode_cons_of_lt hlt, ofJson, ofMark?_ascii (by omega) (by omega)]
    simp only [ofZeros_ascii (ofNat_ne_zero hpos hlt) hsecond]

/-- What follows a mark begins with no zeros if the least octet is first. -/
theorem not_zeros_prefix_encode (ht : t.BeginsPlainly) :
    ¬ [0, 0] <+: (utf16 .little).encode t := by
  cases t with
  | nil => exact ht.elim
  | cons c t =>
    rw [encode_cons_of_lt ht.2.1]
    exact fun h => ofNat_ne_zero ht.1 ht.2.1 (List.cons_prefix_cons.1 h).1.symm

end Encoding

/-- A text that begins as JSON does is read of the octets that spell it, and of no others. -/
theorem Text.ofJsonBytes?_eq_some_iff {bytes : ByteArray} {t : Text} (ht : t.BeginsPlainly) :
    ofJsonBytes? bytes = some t ↔ Encoding.Spells bytes.data.toList t := by
  refine ⟨Encoding.spells_of_ofJsonBytes?, ?_⟩
  rintro ⟨e, hwrites, hos | hos⟩
  · rw [ofJsonBytes?, hos, Encoding.ofJson_encode ht]
    exact Encoding.decode?_eq_some_iff.2 ⟨hwrites, rfl⟩
  · have hmark := Encoding.ofJson_mark_append (e := e) fun he =>
      he ▸ Encoding.not_zeros_prefix_encode ht
    rw [ofJsonBytes?, hos, hmark]
    exact Encoding.decode?_eq_some_iff.2 ⟨hwrites, rfl⟩

/-- A text of characters is read of its octets in every encoding, with a mark and without. -/
theorem Text.ofJsonBytes?_encode {t : Text} (ht : t.BeginsPlainly) (hw : t.isWellFormed)
    (e : Encoding) :
    ofJsonBytes? ⟨(e.encode t).toArray⟩ = some t ∧
      ofJsonBytes? ⟨(e.mark ++ e.encode t).toArray⟩ = some t := by
  have hwrites := Encoding.writes_of_isWellFormed hw e
  rw [ofJsonBytes?_eq_some_iff ht, ofJsonBytes?_eq_some_iff ht]
  exact ⟨⟨e, hwrites, .inl rfl⟩, ⟨e, hwrites, .inr rfl⟩⟩

/-- A mark of UTF-16 with the least octet first, and half of a surrogate pair in UTF-8. -/
example : Text.ofJsonBytes? ⟨#[0xFF, 0xFE, 0x7B, 0, 0x7D, 0]⟩ = some "\x7b\x7d" ∧
    Text.ofJsonBytes? ⟨#[0x22, 0xED, 0xA0, 0x80, 0x22]⟩ =
      some [.scalar '"', .surrogate ⟨0, by decide⟩, .scalar '"'] := by
  decide +kernel

end QueryDiagram
