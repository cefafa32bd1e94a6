import QueryDiagram.Proofs.Decimal.Rendering
import QueryDiagram.Proofs.Json.Reading
import QueryDiagram.Proofs.Json.Strings

/-!
# Values that are read back

A value that satisfies what every value that is read satisfies (`Json.Standard`) is read back from
what is written for it (`Json.read_write`). What is read satisfies this itself, unless it holds a
number that is too large for a double (`Json.isStandard_of_read`).
-/

namespace QueryDiagram

namespace Json

open Numeral (Ends)

/-! ## Values that can be read -/

/-- What a value must satisfy to be read back, apart from the values that it holds: an integer has
no more digits than are read, a double is finite, and an object has every key once. -/
def IsStandard : Json → Prop
  | int n => (Text.ofNat n.natAbs).length ≤ integerDigitLimit
  | float x => x.isFinite
  | object members => (Record.keys members).Nodup
  | _ => True

/-- What a value must satisfy to be read back. -/
def Standard (v : Json) : Prop := v.Everywhere IsStandard

theorem depth_le_depthOfItems {items : List Json} {v : Json} (h : v ∈ items) :
    v.depth ≤ depthOfItems items := by
  induction items with
  | nil => simp at h
  | cons w ws ih =>
    rw [depthOfItems]
    rcases List.mem_cons.1 h with rfl | h
    · exact Nat.le_max_left _ _
    · exact (ih h).trans (Nat.le_max_right _ _)

theorem depth_le_depthOfMembers {members : List (Text × Json)} {m : Text × Json}
    (h : m ∈ members) : m.2.depth ≤ depthOfMembers members := by
  induction members with
  | nil => simp at h
  | cons w ws ih =>
    rw [depthOfMembers]
    rcases List.mem_cons.1 h with rfl | h
    · exact Nat.le_max_left _ _
    · exact (ih h).trans (Nat.le_max_right _ _)

/-! ## Sequences -/

/-- Nothing but space. -/
def IsBlank (t : Text) : Prop := ∀ c ∈ t, isSpace c

/-- The text begins with a point that is no space and not the mark. -/
def Starts (close : Char) (t : Text) : Prop :=
  ∃ c rest, t = c :: rest ∧ isSpace c = false ∧ c ≠ close

theorem isBlank_newline (level : Nat) : IsBlank (newline level) := by
  intro c hc
  rcases List.mem_cons.1 hc with rfl | hc
  · rfl
  · obtain rfl := List.eq_of_mem_replicate hc
    rfl

theorem skipSpace_append {s t : Text} (hs : IsBlank s) (ht : ∀ c ∈ t.head?, isSpace c = false) :
    skipSpace (s ++ t) = t := by
  rw [skipSpace, List.dropWhile_append_of_pos hs]
  cases t with
  | nil => rfl
  | cons c t => rw [List.dropWhile_cons_of_neg (by simp [ht c rfl])]

theorem Starts.append {close : Char} {t : Text} (h : Starts close t) (rest : Text) :
    Starts close (t ++ rest) := by
  obtain ⟨c, t, rfl, hs, hc⟩ := h
  exact ⟨c, t ++ rest, rfl, hs, hc⟩

theorem Starts.skipSpace_append {close : Char} {s t : Text} (h : Starts close t)
    (hs : IsBlank s) : skipSpace (s ++ t) = t := by
  obtain ⟨c, t, rfl, hc, -⟩ := h
  exact Json.skipSpace_append hs (by rintro _ ⟨⟩; exact hc)

theorem ends_nil : Ends [] := by simp [Ends]

theorem ends_comma (t : Text) : Ends (.scalar ',' :: t) := by
  rintro _ ⟨⟩
  decide

theorem ends_newline (level : Nat) (t : Text) : Ends (newline level ++ t) := by
  rintro _ ⟨⟩
  decide

section Sequence

variable {α : Type} {item : Text → Except ReadError (α × Text)} {close : Char} {w : α → Text}
  {indent : Text}

theorem sequence_last {t t' rest : Text} {a : α} {n : Nat} (ha : item t = .ok (a, t'))
    (hs : skipSpace t' = .scalar close :: rest) :
    sequence item close (n + 1) t = .ok ([a], rest) := by
  rw [sequence, ha]
  simp [bind, Except.bind, hs, pure, Except.pure]

theorem sequence_more {t t' t'' rest : Text} {a : α} {as : List α} {n : Nat} (hclose : close ≠ ',')
    (ha : item t = .ok (a, t')) (hs : skipSpace t' = .scalar ',' :: t'')
    (has : sequence item close n (skipSpace t'') = .ok (as, rest)) :
    sequence item close (n + 1) t = .ok (a :: as, rest) := by
  rw [sequence, ha]
  simp [bind, Except.bind, hs, Ne.symm hclose, has, pure, Except.pure]

/-- Further items, each after a comma. -/
def further (indent : Text) (w : α → Text) (as : List α) : Text :=
  as.flatMap fun a => .scalar ',' :: (indent ++ w a)

theorem sequence_further (hclose : close ≠ ',') (hspace : isSpace close = false)
    (hindent : IsBlank indent) (level : Nat) (rest : Text) {a : α} {as : List α}
    (hitem : ∀ b ∈ a :: as, ∀ rest, Ends rest → item (w b ++ rest) = .ok (b, rest))
    (hstarts : ∀ b ∈ as, Starts close (w b)) {n : Nat} (hn : as.length < n) :
    sequence item close n
        (w a ++ (further indent w as ++ (newline level ++ .scalar close :: rest))) =
      .ok (a :: as, rest) := by
  obtain ⟨n, rfl⟩ : ∃ m, n = m + 1 := ⟨n - 1, by omega⟩
  induction as generalizing a n with
  | nil =>
    refine sequence_last (hitem a List.mem_cons_self _ (ends_newline level _)) ?_
    exact skipSpace_append (isBlank_newline level) (by rintro _ ⟨⟩; exact hspace)
  | cons b bs ih =>
    obtain ⟨m, rfl⟩ : ∃ m, n = m + 1 := ⟨n - 1, by simp at hn; omega⟩
    rw [further, List.flatMap_cons, ← further, List.cons_append, List.cons_append]
    refine sequence_more hclose (hitem a List.mem_cons_self _ (ends_comma _)) rfl ?_
    rw [List.append_assoc, List.append_assoc,
      ((hstarts b List.mem_cons_self).append _).skipSpace_append hindent]
    exact ih (fun c hc => hitem c (List.mem_cons_of_mem _ hc))
      (fun c hc => hstarts c (List.mem_cons_of_mem _ hc)) m (by simpa using hn)

theorem length_le_length_further (indent : Text) (w : α → Text) (as : List α) :
    as.length ≤ (further indent w as).length := by
  induction as with
  | nil => simp
  | cons a as ih =>
    rw [further, List.flatMap_cons, ← further, List.length_append, List.length_cons,
      List.length_cons]
    omega

theorem bracketed_further (hclose : close ≠ ',') (hspace : isSpace close = false)
    (hindent : IsBlank indent) (level : Nat) (rest : Text) {a : α} {as : List α}
    (hitem : ∀ b ∈ a :: as, ∀ rest, Ends rest → item (w b ++ rest) = .ok (b, rest))
    (hstarts : ∀ b ∈ a :: as, Starts close (w b)) :
    bracketed item close
        (indent ++ (w a ++ (further indent w as ++ (newline level ++ .scalar close :: rest)))) =
      .ok (a :: as, rest) := by
  have ha := (hstarts a List.mem_cons_self).append
    (further indent w as ++ (newline level ++ .scalar close :: rest))
  have hseq := fun n => sequence_further hclose hspace hindent level rest hitem
    (fun b hb => hstarts b (List.mem_cons_of_mem _ hb)) (n := n)
  have hlen : as.length < (w a ++ (further indent w as ++
      (newline level ++ .scalar close :: rest))).length := by
    have := length_le_length_further indent w as
    simp only [List.length_append, List.length_cons]
    omega
  rw [bracketed, ha.skipSpace_append hindent]
  obtain ⟨c, t, ht, -, hc⟩ := ha
  rw [ht] at hlen hseq ⊢
  exact (if_neg hc).trans (hseq _ hlen)

end Sequence

/-! ## Values -/

section Value

variable {n : Nat} {rest t : Text}

theorem writeItems_eq_further (level : Nat) (vs : List Json) :
    writeItems level vs = further (newline level) (writeAt level) vs := by
  induction vs with
  | nil => rw [writeItems]; rfl
  | cons v vs ih =>
    rw [writeItems, ih, further, further, List.flatMap_cons]
    simp [Text.ofString]

/-- A member as it is written on its line. -/
def writeMember (level : Nat) (m : Text × Json) : Text :=
  writeString m.1 ++ (": " ++ writeAt level m.2)

theorem writeMembers_eq_further (level : Nat) (ms : List (Text × Json)) :
    writeMembers level ms = further (newline level) (writeMember level) ms := by
  induction ms with
  | nil => rw [writeMembers]; rfl
  | cons m ms ih =>
    obtain ⟨k, v⟩ := m
    rw [writeMembers, ih, further, further, List.flatMap_cons]
    simp [Text.ofString, writeMember]

theorem writeAt_list_append (level : Nat) (v : Json) (vs : List Json) (rest : Text) :
    writeAt level (list (v :: vs)) ++ rest = .scalar '[' :: (newline (level + 1) ++
      (writeAt (level + 1) v ++ (further (newline (level + 1)) (writeAt (level + 1)) vs ++
        (newline level ++ .scalar ']' :: rest)))) := by
  rw [writeAt, writeItems_eq_further]
  simp [Text.ofString]

theorem writeAt_object_append (level : Nat) (m : Text × Json) (ms : Record Json) (rest : Text) :
    writeAt level (object (m :: ms)) ++ rest = .scalar '\x7b' :: (newline (level + 1) ++
      (writeMember (level + 1) m ++ (further (newline (level + 1)) (writeMember (level + 1)) ms ++
        (newline level ++ .scalar '\x7d' :: rest)))) := by
  obtain ⟨k, v⟩ := m
  rw [writeAt, writeMembers_eq_further]
  simp [Text.ofString, writeMember]

theorem starts_of_read? {numeral : Numeral} (h : Numeral.read? t = some (numeral, rest)) :
    Starts ']' t := by
  obtain ⟨c, t', rfl, hc⟩ := Numeral.exists_cons_of_read? h
  refine ⟨.scalar c, t', rfl, ?_, ?_⟩
  · by_contra hs
    simp only [isSpace, CodePoint.scalar.injEq, Bool.not_eq_false, decide_eq_true_eq] at hs
    rcases hs with rfl | rfl | rfl | rfl <;> revert hc <;> decide
  · rintro ⟨⟩
    revert hc
    decide

theorem starts_writeAt {v : Json} (h : v.IsStandard) (level : Nat) :
    Starts ']' (writeAt level v) := by
  cases v with
  | null => exact ⟨_, _, by rw [writeAt]; rfl, rfl, by decide⟩
  | bool b => cases b <;> exact ⟨_, _, by rw [writeAt]; rfl, rfl, by decide⟩
  | int m =>
    obtain ⟨numeral, hread, -⟩ := Numeral.read?_ofInt m ends_nil
    rw [writeAt]
    exact starts_of_read? (List.append_nil (Text.ofInt m) ▸ hread)
  | float x =>
    obtain ⟨numeral, hread, -⟩ := floatStyle.read?_render h ends_nil
    rw [writeAt]
    exact starts_of_read? (List.append_nil (floatStyle.render x) ▸ hread)
  | str s => exact ⟨_, _, by rw [writeAt]; rfl, rfl, by decide⟩
  | list items => cases items <;> exact ⟨_, _, by rw [writeAt]; rfl, rfl, by decide⟩
  | object members => cases members <;> exact ⟨_, _, by rw [writeAt]; rfl, rfl, by decide⟩

theorem value_of_read? {numeral : Numeral} {v : Json}
    (h : Numeral.read? t = some (numeral, rest)) (hv : ofNumeral numeral = .ok v) :
    value .strict (n + 1) t = .ok (v, rest) := by
  obtain ⟨c, t', rfl, hc⟩ := Numeral.exists_cons_of_read? h
  have hne : ∀ d : Char, d.isDigit = false → d ≠ '-' → c ≠ d := by
    rintro d hd hm rfl
    exact hc.elim (fun h => by simp [h] at hd) hm
  have hword : wordValue? .strict (.scalar c :: t') = none := by
    simp [wordValue?, wordValues, Dialect.strict, word?, Ne.symm (hne 'n' rfl (by decide)),
      Ne.symm (hne 't' rfl (by decide)), Ne.symm (hne 'f' rfl (by decide))]
  rw [value]
  simp only [CodePoint.scalar.injEq, hne '"' rfl (by decide), hne '[' rfl (by decide),
    hne '\x7b' rfl (by decide), if_false, scalar, hword, number, h]
  rw [orMalformed]
  change (ofNumeral numeral >>= fun v => _) = _
  rw [hv]
  rfl

/-- A written member is read by reading its value. -/
theorem member_writeMember_append {m : Text × Json} {level : Nat}
    (read : Text → Except ReadError (Json × Text)) (rest : Text)
    (hstarts : Starts ']' (writeAt level m.2)) :
    member read (writeMember level m ++ rest) =
      (do let (v, t) ← read (writeAt level m.2 ++ rest); return ((m.1, v), t)) := by
  obtain ⟨k, v⟩ := m
  obtain ⟨body, hb, hs⟩ := stringRest?_writeString k (": " ++ (writeAt level v ++ rest))
  have hspace : skipSpace (.scalar ' ' :: (writeAt level v ++ rest)) = writeAt level v ++ rest :=
    (hstarts.append rest).skipSpace_append (s := [.scalar ' ']) (by simp [IsBlank, isSpace])
  rw [writeMember, List.append_assoc, List.append_assoc, hb, member, after?, if_pos rfl,
    orMalformed]
  change (orMalformed (stringRest? [] body) >>= _) = _
  rw [hs]
  change read (skipSpace (.scalar ' ' :: (writeAt level v ++ rest))) >>= _ = _
  rw [hspace]

theorem member_writeMember {m : Text × Json} {read : Text → Except ReadError (Json × Text)}
    {level : Nat} (hread : read (writeAt level m.2 ++ rest) = .ok (m.2, rest))
    (hstarts : Starts ']' (writeAt level m.2)) :
    member read (writeMember level m ++ rest) = .ok (m, rest) := by
  rw [member_writeMember_append read rest hstarts, hread]
  rfl

theorem value_list {dialect : Dialect} {items : List Json}
    (h : bracketed (value dialect n) ']' t = .ok (items, rest)) :
    value dialect (n + 1) (.scalar '[' :: t) = .ok (list items, rest) := by
  rw [value, if_neg (by decide), if_pos rfl, h]
  rfl

theorem value_object {dialect : Dialect} {members : Record Json} (hk : members.keys.Nodup)
    (h : bracketed (member (value dialect n)) '\x7d' t = .ok (members, rest)) :
    value dialect (n + 1) (.scalar '\x7b' :: t) = .ok (object members, rest) := by
  rw [value, if_neg (by decide), if_neg (by decide), if_pos rfl, h]
  change Except.ok (object (Record.ofPairs members), rest) = _
  rw [Record.ofPairs_of_nodup hk]

theorem value_writeAt_list {items : List Json} (hs : (list items).Standard) {level : Nat}
    (hitem : ∀ v ∈ items, ∀ rest, Ends rest →
      value .strict n (writeAt (level + 1) v ++ rest) = .ok (v, rest)) :
    value .strict (n + 1) (writeAt level (list items) ++ rest) = .ok (list items, rest) := by
  cases items with
  | nil => rw [writeAt]; rfl
  | cons v vs =>
    have hb := bracketed_further (by decide) rfl (isBlank_newline (level + 1)) level rest hitem
      fun u hu => starts_writeAt (hs.of_mem_items hu).self _
    rw [writeAt_list_append]
    exact value_list hb

theorem value_writeAt_object {members : Record Json} (hs : (object members).Standard) {level : Nat}
    (hitem : ∀ m ∈ members, ∀ rest, Ends rest →
      value .strict n (writeAt (level + 1) m.2 ++ rest) = .ok (m.2, rest)) :
    value .strict (n + 1) (writeAt level (object members) ++ rest) =
      .ok (object members, rest) := by
  cases members with
  | nil => rw [writeAt]; rfl
  | cons m ms =>
    have hmember : ∀ u ∈ m :: ms, ∀ rest, Ends rest →
        member (value .strict n) (writeMember (level + 1) u ++ rest) = .ok (u, rest) :=
      fun u hu rest hr => member_writeMember (hitem u hu rest hr)
        (starts_writeAt (hs.of_mem_members hu).self _)
    have hclose : '\x7d' ≠ ',' := by decide
    have hb := bracketed_further hclose rfl (isBlank_newline (level + 1)) level rest hmember
      fun u hu => ⟨_, _, rfl, rfl, by decide⟩
    rw [writeAt_object_append]
    exact value_object hs.self hb

/-- What is written is read back, whatever follows it unless it goes on with a number. -/
theorem value_writeAt {v : Json} (hv : v.Standard) (level : Nat) (hn : v.depth ≤ n)
    (hr : Ends rest) : value .strict n (writeAt level v ++ rest) = .ok (v, rest) := by
  induction n generalizing v level rest with
  | zero => exact absurd hn (by have := v.depth_pos; omega)
  | succ n ih =>
    cases v with
    | null => rw [writeAt]; rfl
    | bool b => cases b <;> rw [writeAt] <;> rfl
    | int m =>
      obtain ⟨numeral, h, hi, hm, hw⟩ := Numeral.read?_ofInt m hr
      rw [writeAt]
      refine value_of_read? h ?_
      rw [ofNumeral, if_pos hi, hw, if_pos (by exact hv.self), hm]
    | float x =>
      obtain ⟨numeral, h, hi, hx⟩ := floatStyle.read?_render hv.self hr
      rw [writeAt]
      refine value_of_read? h ?_
      rw [ofNumeral, hi, hx]
      rfl
    | str s =>
      obtain ⟨body, hb, hs⟩ := stringRest?_writeString s rest
      rw [writeAt, hb, value, if_pos rfl, hs]
      rfl
    | list items =>
      refine value_writeAt_list hv fun u hu rest hr => ?_
      have := depth_le_depthOfItems hu
      rw [depth] at hn
      exact ih (hv.of_mem_items hu) _ (by omega) hr
    | object members =>
      refine value_writeAt_object hv fun m hm rest hr => ?_
      have := depth_le_depthOfMembers hm
      rw [depth] at hn
      exact ih (hv.of_mem_members hm) _ (by omega) hr

end Value

/-! ## Whole texts -/

theorem length_writeAt_pos {v : Json} (h : v.Standard) (level : Nat) :
    0 < (writeAt level v).length := by
  obtain ⟨c, t, ht, -⟩ := starts_writeAt h.self level
  rw [ht]
  exact Nat.succ_pos _

mutual

/-- What is written is no shorter than the value is deep. -/
theorem depth_le_length_writeAt (level : Nat) :
    ∀ v : Json, v.Standard → v.depth ≤ (writeAt level v).length
  | .list (v :: vs), h => by
    have hv := depth_le_length_writeAt (level + 1) v (h.of_mem_items List.mem_cons_self)
    have hvs := depthOfItems_le_length (level + 1) vs fun u hu =>
      h.of_mem_items (List.mem_cons_of_mem _ hu)
    simp only [writeAt, depth, depthOfItems, newline, List.length_append, List.length_cons]
    omega
  | .object ((k, v) :: ms), h => by
    have hv := depth_le_length_writeAt (level + 1) v (h.of_mem_members List.mem_cons_self)
    have hms := depthOfMembers_le_length (level + 1) ms fun u hu =>
      h.of_mem_members (List.mem_cons_of_mem _ hu)
    simp only [writeAt, depth, depthOfMembers, newline, List.length_append, List.length_cons]
    omega
  | .null, h | .bool _, h | .int _, h | .float _, h | .str _, h | .list [], h | .object [], h =>
    length_writeAt_pos h level

theorem depthOfItems_le_length (level : Nat) :
    ∀ vs : List Json, (∀ v ∈ vs, v.Standard) → depthOfItems vs ≤ (writeItems level vs).length
  | [], _ => Nat.zero_le _
  | v :: vs, h => by
    have hv := depth_le_length_writeAt level v (h v List.mem_cons_self)
    have hvs := depthOfItems_le_length level vs fun u hu => h u (List.mem_cons_of_mem _ hu)
    simp only [writeItems, depthOfItems, List.length_append]
    omega

theorem depthOfMembers_le_length (level : Nat) :
    ∀ ms : List (Text × Json), (∀ m ∈ ms, m.2.Standard) →
      depthOfMembers ms ≤ (writeMembers level ms).length
  | [], _ => Nat.zero_le _
  | (k, v) :: ms, h => by
    have hv := depth_le_length_writeAt level v (h (k, v) List.mem_cons_self)
    have hms := depthOfMembers_le_length level ms fun u hu => h u (List.mem_cons_of_mem _ hu)
    simp only [writeMembers, depthOfMembers, List.length_append]
    omega

end

/-- A value is read back from what is written for it. -/
theorem read_write {v : Json} (h : v.Standard) : read .strict v.write = .ok v := by
  have hspace : skipSpace v.write = v.write :=
    (starts_writeAt h.self 0).skipSpace_append (s := []) (by simp [IsBlank])
  have hn : v.depth ≤ v.write.length + 1 := (depth_le_length_writeAt 0 v h).trans (Nat.le_succ _)
  have hv := value_writeAt (n := v.write.length + 1) h 0 hn ends_nil
  rw [List.append_nil] at hv
  rw [read, hspace]
  change value .strict (v.write.length + 1) (writeAt 0 v) >>= _ = _
  rw [hv]
  rfl

/-! ## Values that were read -/

theorem isStandard_of_ofNumeral {numeral : Numeral} {v : Json} (h : ofNumeral numeral = .ok v)
    (hx : ∀ x, v = float x → x.isInf = false) : v.IsStandard := by
  unfold ofNumeral at h
  split_ifs at h with hi hlength
  · obtain rfl := Except.ok.inj h
    have hvalue : numeral.toInt.natAbs = numeral.whole.digitsValue := by
      unfold Numeral.toInt
      split_ifs <;> simp
    rw [IsStandard, hvalue]
    exact Text.length_ofNat_digitsValue_le hlength (by decide)
  · obtain rfl := Except.ok.inj h
    exact Double.isFinite_of_not numeral.isNaN_toFloat (hx _ rfl)

/-- What is read can be read back, unless a number in it is too large for a double. -/
theorem isStandard_of_read {t : Text} {v : Json} (h : read .strict t = .ok v) :
    v.Everywhere fun w => (∀ x, w = float x → x.isInf = false) → w.IsStandard := by
  refine everywhere_of_read (fun t w rest hw hx => ?_) (fun s _ => trivial)
    (fun items _ => trivial) (fun pairs _ => Record.nodup_keys_ofPairs pairs) h
  obtain ⟨w, hword, rfl⟩ | ⟨numeral, hn⟩ := scalar_cases hw
  · have hwords : ∀ w ∈ wordValues .strict, w.2.IsStandard := by
      simp [wordValues, Dialect.strict, IsStandard]
    exact hwords w hword
  · exact isStandard_of_ofNumeral hn hx

end Json

end QueryDiagram
