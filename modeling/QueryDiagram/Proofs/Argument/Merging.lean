import QueryDiagram.Proofs.Argument.Shown

/-!
# Arguments with repeated names

Arguments are converted unless an integer in them has too many digits, be it one that is replaced
by a later value of the same name. Every name comes once in their record, and it makes no
difference whether repeated names are merged before the conversion (`record_of_arguments`).
-/

namespace QueryDiagram

open GraphQL

/-! ## Merging -/

namespace GraphQL

mutual

/-- The literal with every name of an object once, where it first stands, and with its last
value. -/
def Literal.merged : Literal → Literal
  | .list items => .list (mergedItems items)
  | .object fields => .object (Record.lastOfEach (mergedFields fields))
  | l => l

/-- The items with their objects merged. -/
def mergedItems : List Literal → List Literal
  | [] => []
  | l :: ls => l.merged :: mergedItems ls

/-- The fields with the objects in them merged. -/
def mergedFields : List (Text × Literal) → List (Text × Literal)
  | [] => []
  | (k, l) :: fs => (k, l.merged) :: mergedFields fs

end

/-- The arguments with every name once, at the top and in all objects in them. -/
def mergedArguments (arguments : List (Text × Literal)) : List (Text × Literal) :=
  Record.lastOfEach (mergedFields arguments)

theorem mergedItems_eq_map (items : List Literal) :
    mergedItems items = items.map Literal.merged := by
  induction items with
  | nil => rfl
  | cons l ls ih => rw [mergedItems, ih, List.map_cons]

theorem mergedFields_eq_map (fields : List (Text × Literal)) :
    mergedFields fields = fields.map (Prod.map id Literal.merged) := by
  induction fields with
  | nil => rfl
  | cons p fs ih => rw [mergedFields, ih, List.map_cons, Prod.map_apply', id]

theorem merged_object (fields : List (Text × Literal)) :
    (Literal.object fields).merged = .object (mergedArguments fields) := by
  rw [Literal.merged, mergedArguments]

/-- Merging adds no integers. -/
theorem mem_integers_of_merged {l : Literal} {s : Text} :
    s ∈ l.merged.integers → s ∈ l.integers := by
  induction l using Literal.induction with
  | list items ih =>
    intro hs
    rw [Literal.merged, Literal.integers, mergedItems_eq_map] at hs
    obtain ⟨_, hm, hs⟩ := mem_integersOfItems.1 hs
    obtain ⟨l, hl, rfl⟩ := List.mem_map.1 hm
    exact mem_integersOfItems.2 ⟨l, hl, ih l hl hs⟩
  | object fields ih =>
    intro hs
    rw [Literal.merged, Literal.integers, mergedFields_eq_map, Record.lastOfEach_eq_ofPairs] at hs
    obtain ⟨_, hm, hs⟩ := mem_integersOfFields.1 hs
    obtain ⟨p, hp, rfl⟩ := List.mem_map.1 (Record.mem_of_mem_ofPairs hm)
    exact mem_integersOfFields.2 ⟨p, hp, ih p hp hs⟩
  | _ => exact id

end GraphQL

/-- A literal shows what it shows when its names are merged. -/
theorem shows_of_merged {l : Literal} : ∀ v, Shows l.merged v → Shows l v := by
  induction l using Literal.induction with
  | list items ih =>
    intro v h
    rw [Literal.merged, mergedItems_eq_map] at h
    cases h with
    | list h => exact .list (forall₂_imp_of_mem (List.forall₂_map_left_iff.1 h) ih)
  | object fields ih =>
    intro v h
    rw [Literal.merged, mergedFields_eq_map] at h
    cases h with
    | object names values =>
      refine .object ?_ fun name => ?_
      · rw [names, ← Record.keys, Record.eraseDups_keys_lastOfEach, Record.keys_map, Record.keys]
      · have hname := values name
        rw [Record.last?_lastOfEach, Record.last?_map] at hname
        exact rel_of_rel_map hname fun l hl => ih _ (Record.mem_of_last?_eq_some hl)
  | _ => exact fun _ => id

/-! ## Records of arguments -/

section Arguments

variable {arguments : List (Text × Literal)}

/-- Arguments without integers that are too long have a record, whatever their names are. -/
theorem exists_argumentRecord
    (h : ∀ s ∈ integersOfFields arguments, digitCount s ≤ integerDigitLimit) :
    ∃ record, argumentRecord arguments = .ok record := by
  cases hrecord : argumentRecord arguments with
  | ok record => exact ⟨record, rfl⟩
  | error e =>
    obtain ⟨s, hs, hlong⟩ := (failsOn_argumentRecord arguments).exists_error_iff.1 ⟨e, hrecord⟩
    exact absurd (h s hs) (Nat.not_le_of_lt hlong)

/-- Arguments whose names are merged have the same record. -/
theorem argumentRecord_merged {record : Record Json}
    (hint : ∀ s ∈ integersOfFields arguments, IsInteger s)
    (h : argumentRecord arguments = .ok record) :
    argumentRecord (mergedArguments arguments) = .ok record := by
  have hfits := failsOn_argumentRecord arguments
  rw [h] at hfits
  have hsub : ∀ s ∈ integersOfFields (mergedArguments arguments),
      s ∈ integersOfFields arguments := by
    intro s hs
    refine mem_integers_of_merged (l := .object arguments) ?_
    rwa [merged_object]
  obtain ⟨record', h'⟩ := exists_argumentRecord fun s hs => hfits s (hsub s hs)
  have hshows := shows_of_argumentRecord (fun s hs => hint s (hsub s hs)) h'
  rw [← merged_object] at hshows
  have heq := Shows.unique _ _ (shows_of_merged _ hshows) (shows_of_argumentRecord hint h)
  rw [h', Json.object.inj heq]

/-- Arguments have no record exactly if an integer anywhere in them has too many digits, and the
error tells how many. Otherwise every name comes once in the record, in the order in which the names
first appear and with what the last argument of that name shows, and merging the names at every
level before gives the same record. -/
theorem record_of_arguments (hint : ∀ s ∈ integersOfFields arguments, IsInteger s) :
    ((∃ e, argumentRecord arguments = .error e) ↔
        ∃ s ∈ integersOfFields arguments, integerDigitLimit < (digitsOf s).length) ∧
      (∀ e, argumentRecord arguments = .error e → ∃ s ∈ integersOfFields arguments,
        integerDigitLimit < (digitsOf s).length ∧ e = .integerTooLong (digitsOf s).length) ∧
      ((∀ s ∈ integersOfFields arguments, (digitsOf s).length ≤ integerDigitLimit) →
        ∃ record, argumentRecord arguments = .ok record ∧
          record.keys = (arguments.map Prod.fst).eraseDups ∧
          (∀ name, Option.Rel Shows (Record.last? arguments name) (record.get? name)) ∧
          argumentRecord (mergedArguments arguments) = .ok record) := by
  have hfails := failsOn_argumentRecord arguments
  refine ⟨hfails.exists_error_iff.trans (exists_congr fun s => and_congr_right fun hs => ?_),
    fun e he => ?_, fun hfits => ?_⟩
  · rw [(hint s hs).digitCount_eq]
  · rw [he] at hfails
    obtain ⟨s, hs, hlong, rfl⟩ := hfails.of_error
    rw [(hint s hs).digitCount_eq] at hlong ⊢
    exact ⟨s, hs, hlong, rfl⟩
  · obtain ⟨record, hrecord⟩ := exists_argumentRecord fun s hs =>
      (hint s hs).digitCount_eq ▸ hfits s hs
    have hshows := shows_of_argumentRecord hint hrecord
    cases hshows with
    | object names values =>
      exact ⟨record, hrecord, names, values, argumentRecord_merged hint hrecord⟩

end Arguments

/-- Names that are repeated among the arguments and in an object, and an integer of so many digits
under one of them. -/
def repeatedNames (digits : Nat) : List (Text × Literal) :=
  [("where", .int (List.replicate digits (.scalar '1'))), ("limit", .int "-7"),
    ("where", .object [("x", .null), ("y", .list [.int "0", .variableRef "v"]), ("x", .enum "E")])]

theorem integers_repeatedNames (digits : Nat) :
    integersOfFields (repeatedNames digits) =
      [List.replicate digits (.scalar '1'), "-7", "0"] := by
  simp [repeatedNames, integersOfFields, integersOfItems, Literal.integers]

theorem digitsOf_ones (digits : Nat) :
    digitsOf (List.replicate digits (.scalar '1')) = List.replicate digits (.scalar '1') := by
  cases digits <;> rfl

theorem isInteger_of_mem_repeatedNames {digits : Nat} (h : 0 < digits) :
    ∀ s ∈ integersOfFields (repeatedNames digits), IsInteger s := by
  have hones : IsInteger (List.replicate digits (.scalar '1')) := by
    refine ⟨?_, ?_, .inr ?_⟩ <;> rw [digitsOf_ones]
    · intro c hc
      rw [List.eq_of_mem_replicate hc]
      rfl
    · simp [h.ne']
    · simp [List.head?_replicate, h.ne']
  rw [integers_repeatedNames]
  simp only [List.forall_mem_cons]
  exact ⟨hones, by decide, by decide, nofun⟩

theorem length_le_of_mem_repeatedNames {digits : Nat} (h : digits ≤ integerDigitLimit) :
    ∀ s ∈ integersOfFields (repeatedNames digits), (digitsOf s).length ≤ integerDigitLimit := by
  rw [integers_repeatedNames, List.forall_mem_cons, digitsOf_ones, List.length_replicate]
  exact ⟨h, by decide⟩

/-- The integer that is replaced may have as many digits as any other, and no more. -/
theorem record_of_arguments_repeatedNames :
    (∀ s ∈ integersOfFields (repeatedNames 4301), IsInteger s) ∧
      (∃ e, argumentRecord (repeatedNames 4301) = .error e) ∧
      (∀ s ∈ integersOfFields (repeatedNames 4300), IsInteger s) ∧
      ∃ record, argumentRecord (repeatedNames 4300) = .ok record ∧
        record.keys = ["where", "limit"] ∧
        argumentRecord (mergedArguments (repeatedNames 4300)) = .ok record := by
  have hlong : ∀ s ∈ integersOfFields (repeatedNames 4301), IsInteger s :=
    isInteger_of_mem_repeatedNames (by decide)
  have hfit : ∀ s ∈ integersOfFields (repeatedNames 4300), IsInteger s :=
    isInteger_of_mem_repeatedNames (by decide)
  refine ⟨hlong, (record_of_arguments hlong).1.2 ?_, hfit, ?_⟩
  · refine ⟨List.replicate 4301 (.scalar '1'), ?_, ?_⟩
    · rw [integers_repeatedNames]
      exact List.mem_cons_self
    · rw [digitsOf_ones, List.length_replicate]
      decide
  · obtain ⟨record, hrecord, hkeys, -, hmerged⟩ :=
      (record_of_arguments hfit).2.2 (length_le_of_mem_repeatedNames le_rfl)
    exact ⟨record, hrecord, hkeys.trans (by decide), hmerged⟩

end QueryDiagram
