import QueryDiagram.Proofs.Json.RoundTrip

/-!
# Values that are not read back

For a number that is too large for a double a word is written, which the grammar does not have. So
of the values that were read exactly those without such a number are read back
(`Json.Readable.exists_read_write_iff`).
-/

namespace QueryDiagram

namespace Json

open Numeral (Ends)

/-- What every value satisfies that was read. -/
def Readable (v : Json) : Prop :=
  v.Everywhere fun w => (∀ x, w = float x → x.isInf = false) → w.IsStandard

/-! ## Sequences -/

section Sequence

variable {α : Type} {item : Text → Except ReadError (α × Text)} {close : Char} {w : α → Text}
  {indent : Text} {p : α → Prop}

theorem sequence_of_error {t t' t'' : Text} {a : α} {n : Nat} {e : ReadError}
    (hclose : close ≠ ',') (ha : item t = .ok (a, t')) (hs : skipSpace t' = .scalar ',' :: t'')
    (has : sequence item close n (skipSpace t'') = .error e) :
    sequence item close (n + 1) t = .error e := by
  rw [sequence, ha]
  simp [bind, Except.bind, hs, Ne.symm hclose, has]

/-- If items are read at all, they are the written ones, and each is as an item must be that is
read. -/
theorem eq_of_sequence_further (hclose : close ≠ ',') (hspace : isSpace close = false)
    (hindent : IsBlank indent) (level : Nat) (rest : Text) {a : α} {as : List α}
    (hitem : ∀ b ∈ a :: as, ∀ rest r, Ends rest → item (w b ++ rest) = .ok r →
      r = (b, rest) ∧ p b)
    (hstarts : ∀ b ∈ as, Starts close (w b)) {n : Nat} {r : List α × Text}
    (h : sequence item close n
      (w a ++ (further indent w as ++ (newline level ++ .scalar close :: rest))) = .ok r) :
    r = (a :: as, rest) ∧ ∀ b ∈ a :: as, p b := by
  induction as generalizing a n r with
  | nil =>
    obtain _ | n := n
    · cases h
    obtain ⟨s, ha, -⟩ := bind_eq_ok_iff.1 h
    obtain ⟨rfl, hp⟩ := hitem a List.mem_cons_self _ _ (ends_newline level _) ha
    have hskip : skipSpace (newline level ++ .scalar close :: rest) = .scalar close :: rest :=
      skipSpace_append (isBlank_newline level) (by rintro _ ⟨⟩; exact hspace)
    refine ⟨(Except.ok.inj ((sequence_last ha hskip).symm.trans h)).symm, ?_⟩
    exact List.forall_mem_singleton.2 hp
  | cons b bs ih =>
    obtain _ | n := n
    · cases h
    have hskip : skipSpace (indent ++ (w b ++ (further indent w bs ++
        (newline level ++ .scalar close :: rest)))) =
          w b ++ (further indent w bs ++ (newline level ++ .scalar close :: rest)) :=
      ((hstarts b List.mem_cons_self).append _).skipSpace_append hindent
    rw [further, List.flatMap_cons, ← further, List.cons_append, List.cons_append,
      List.append_assoc, List.append_assoc] at h
    obtain ⟨s, ha, -⟩ := bind_eq_ok_iff.1 h
    obtain ⟨rfl, hp⟩ := hitem a List.mem_cons_self _ _ (ends_comma _) ha
    cases hmore : sequence item close n (skipSpace (indent ++ (w b ++
        (further indent w bs ++ (newline level ++ .scalar close :: rest))))) with
    | error e =>
      rw [sequence_of_error hclose ha rfl hmore] at h
      cases h
    | ok r' =>
      obtain ⟨rfl, hps⟩ := ih (fun c hc => hitem c (List.mem_cons_of_mem _ hc))
        (fun c hc => hstarts c (List.mem_cons_of_mem _ hc)) (hskip ▸ hmore)
      refine ⟨(Except.ok.inj ((sequence_more hclose ha rfl hmore).symm.trans h)).symm, ?_⟩
      exact List.forall_mem_cons.2 ⟨hp, hps⟩

theorem eq_of_bracketed_further (hclose : close ≠ ',') (hspace : isSpace close = false)
    (hindent : IsBlank indent) (level : Nat) (rest : Text) {a : α} {as : List α}
    (hitem : ∀ b ∈ a :: as, ∀ rest r, Ends rest → item (w b ++ rest) = .ok r →
      r = (b, rest) ∧ p b)
    (hstarts : ∀ b ∈ a :: as, Starts close (w b)) {r : List α × Text}
    (h : bracketed item close
      (indent ++ (w a ++ (further indent w as ++ (newline level ++ .scalar close :: rest)))) =
        .ok r) :
    r = (a :: as, rest) ∧ ∀ b ∈ a :: as, p b := by
  have ha := (hstarts a List.mem_cons_self).append
    (further indent w as ++ (newline level ++ .scalar close :: rest))
  rw [bracketed, ha.skipSpace_append hindent] at h
  have hseq := fun n => eq_of_sequence_further (p := p) hclose hspace hindent level rest hitem
    (fun b hb => hstarts b (List.mem_cons_of_mem _ hb)) (n := n) (r := r)
  obtain ⟨c, t, ht, -, hc⟩ := ha
  rw [ht] at h hseq
  exact hseq _ ((if_neg hc).symm.trans h)

end Sequence

/-! ## Values -/

section Value

variable {n : Nat} {rest : Text}

theorem readable_of_read {t : Text} {v : Json} (h : read .strict t = .ok v) : v.Readable :=
  isStandard_of_read h

theorem Readable.of_mem_items {items : List Json} {v : Json} (h : (list items).Readable)
    (hv : v ∈ items) : v.Readable := Everywhere.of_mem_items h hv

theorem Readable.of_mem_members {members : Record Json} {m : Text × Json}
    (h : (object members).Readable) (hm : m ∈ members) : m.2.Readable :=
  Everywhere.of_mem_members h hm

/-- A readable value begins with no space, whether or not it is read back. -/
theorem starts_writeAt_of_readable {v : Json} (h : v.Readable) (level : Nat) :
    Starts ']' (writeAt level v) := by
  by_cases hx : ∃ x, v = float x ∧ x.isInf
  · obtain ⟨x, rfl, hx⟩ := hx
    rw [writeAt]
    rcases floatStyle.render_of_isInf hx with hr | hr
    · exact ⟨_, _, hr, rfl, by decide⟩
    · exact ⟨_, _, hr, rfl, by decide⟩
  · refine starts_writeAt (h.self fun x he => ?_) level
    rw [Bool.eq_false_iff]
    exact fun hinf => hx ⟨x, he, hinf⟩

/-- The words for numbers that are too large are not in the grammar. -/
theorem value_infinity {x : Float} (hx : x.isInf) (level : Nat) :
    value .strict n (writeAt level (float x) ++ rest) = .error .malformed := by
  cases n with
  | zero => rfl
  | succ n =>
    rw [writeAt]
    rcases floatStyle.render_of_isInf hx with hr | hr
    · rw [hr]
      rfl
    · rw [hr]
      rfl

theorem exists_of_value_list {t : Text} {r : Json × Text}
    (h : value .strict (n + 1) (.scalar '[' :: t) = .ok r) :
    ∃ items, bracketed (value .strict n) ']' t = .ok (items, r.2) ∧ r.1 = list items := by
  rw [value, if_neg (by decide), if_pos rfl] at h
  obtain ⟨⟨items, t'⟩, hb, h⟩ := bind_eq_ok_iff.1 h
  obtain rfl := Except.ok.inj h
  exact ⟨items, hb, rfl⟩

theorem exists_of_value_object {t : Text} {r : Json × Text}
    (h : value .strict (n + 1) (.scalar '\x7b' :: t) = .ok r) :
    ∃ members, bracketed (member (value .strict n)) '\x7d' t = .ok (members, r.2) ∧
      r.1 = object (Record.ofPairs members) := by
  rw [value, if_neg (by decide), if_neg (by decide), if_pos rfl] at h
  obtain ⟨⟨members, t'⟩, hb, h⟩ := bind_eq_ok_iff.1 h
  obtain rfl := Except.ok.inj h
  exact ⟨members, hb, rfl⟩

theorem eq_of_member_writeMember {m : Text × Json} {level : Nat} {p : Json → Prop}
    {read : Text → Except ReadError (Json × Text)} {r : (Text × Json) × Text}
    (hstarts : Starts ']' (writeAt level m.2))
    (hread : ∀ s, read (writeAt level m.2 ++ rest) = .ok s → s = (m.2, rest) ∧ p m.2)
    (h : member read (writeMember level m ++ rest) = .ok r) : r = (m, rest) ∧ p m.2 := by
  rw [member_writeMember_append read rest hstarts] at h
  obtain ⟨s, hs, h⟩ := bind_eq_ok_iff.1 h
  obtain ⟨rfl, hp⟩ := hread s hs
  exact ⟨(Except.ok.inj h).symm, hp⟩

theorem eq_of_value_writeAt_of_standard {v : Json} {r : Json × Text} (hs : v.Standard) {level : Nat}
    (hn : v.depth ≤ n) (hr : Ends rest)
    (h : value .strict n (writeAt level v ++ rest) = .ok r) : r = (v, rest) ∧ v.Standard :=
  ⟨(Except.ok.inj ((value_writeAt hs level hn hr).symm.trans h)).symm, hs⟩

/-- If a written value is read at all, it is read as itself, and is standard. -/
theorem eq_of_value_writeAt {v : Json} (hv : v.Readable) {level : Nat} (hr : Ends rest)
    {r : Json × Text} (h : value .strict n (writeAt level v ++ rest) = .ok r) :
    r = (v, rest) ∧ v.Standard := by
  induction n generalizing v level rest r with
  | zero => cases h
  | succ n ih =>
    have hatom : v.isAtom → (∀ x, v = float x → x.isInf = false) → r = (v, rest) ∧ v.Standard := by
      intro ha hx
      refine eq_of_value_writeAt_of_standard (everywhere_of_isAtom ha (hv.self hx)) ?_ hr h
      cases v <;> simp_all [depth, isAtom]
    cases v with
    | null => exact hatom rfl (by simp)
    | bool b => exact hatom rfl (by simp)
    | int m => exact hatom rfl (by simp)
    | str s => exact hatom rfl (by simp)
    | float x =>
      refine hatom rfl ?_
      rintro _ ⟨⟩
      rw [Bool.eq_false_iff]
      intro hx
      rw [value_infinity hx] at h
      cases h
    | list items =>
      cases items with
      | nil =>
        have hs : (list []).Standard := everywhere_list trivial (by simp)
        exact eq_of_value_writeAt_of_standard hs (Nat.succ_le_succ (Nat.zero_le n)) hr h
      | cons u us =>
        rw [writeAt_list_append] at h
        obtain ⟨items, hb, hitems⟩ := exists_of_value_list h
        obtain ⟨he, hall⟩ := eq_of_bracketed_further (p := Standard) (by decide) rfl
          (isBlank_newline (level + 1)) level rest
          (fun w hw rest r hr h => ih (hv.of_mem_items hw) hr h)
          (fun w hw => starts_writeAt_of_readable (hv.of_mem_items hw) _) hb
        obtain ⟨rfl, hrest⟩ := Prod.mk.inj he
        exact ⟨Prod.ext hitems hrest, everywhere_list trivial hall⟩
    | object members =>
      have hkeys : Record.keys members |>.Nodup := hv.self (by simp)
      cases members with
      | nil =>
        have hs : (object []).Standard := everywhere_object hkeys (by simp)
        exact eq_of_value_writeAt_of_standard hs (Nat.succ_le_succ (Nat.zero_le n)) hr h
      | cons m ms =>
        rw [writeAt_object_append] at h
        obtain ⟨members, hb, hmembers⟩ := exists_of_value_object h
        obtain ⟨he, hall⟩ := eq_of_bracketed_further (p := fun m : Text × Json => m.2.Standard)
          (by decide) rfl (isBlank_newline (level + 1)) level rest
          (fun u hu rest r hr h => eq_of_member_writeMember
            (starts_writeAt_of_readable (hv.of_mem_members hu) _)
            (fun s hs => ih (hv.of_mem_members hu) hr hs) h)
          (fun u hu => ⟨_, _, rfl, rfl, by decide⟩) hb
        obtain ⟨rfl, hrest⟩ := Prod.mk.inj he
        rw [Record.ofPairs_of_nodup hkeys] at hmembers
        exact ⟨Prod.ext hmembers hrest, everywhere_object hkeys hall⟩

end Value

/-! ## Whole texts -/

variable {v : Json}

theorem Readable.standard_iff (h : v.Readable) :
    v.Standard ↔ ∀ x, float x ∈ v.subvalues → x.isInf = false := by
  constructor
  · exact fun hs x hx => (Double.hasSign_of_isFinite (hs _ hx)).isInf
  · exact fun hx w hw => h w hw fun x he => hx x (he ▸ hw)

/-- A value that was read is read again from what is written for it if it holds no number that is
too large for a double, and is not read otherwise. -/
theorem Readable.exists_read_write_iff (h : v.Readable) :
    (∃ w, read .strict v.write = .ok w) ↔ v.Standard := by
  constructor
  · rintro ⟨w, hw⟩
    have hspace : skipSpace v.write = v.write :=
      (starts_writeAt_of_readable h 0).skipSpace_append (s := []) (by simp [IsBlank])
    obtain ⟨r, hr, -⟩ := bind_eq_ok_iff.1 hw
    rw [hspace, ← List.append_nil v.write] at hr
    exact (eq_of_value_writeAt h ends_nil hr).2
  · exact fun hs => ⟨v, read_write hs⟩

end Json

end QueryDiagram
