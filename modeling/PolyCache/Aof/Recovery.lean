import PolyCache.Aof.Compact

/-!
# Recovery after a torn write

A crash leaves a prefix of the log. The next boot replays it and appends behind it, without ending
the torn line first; this module says what the boot after that replays.
-/

namespace PolyCache

open Lines

namespace Aof

/-- What `parse` makes of a line that a crash has torn, alone or with the next record behind it. -/
structure JsonLib.Torn (lib : JsonLib) : Prop where
  parse_cut : ∀ (r : Record) (t : Bytes), r.InRange → t <+: lib.dump r.json →
    t ≠ lib.dump r.json → lib.parse t = none
  parse_glued : ∀ (r r' : Record) (t : Bytes), r.InRange → r'.InRange → t <+: lib.dump r.json →
    t ≠ [] → lib.parse (t ++ lib.dump r'.json) = none

variable (lib : JsonLib)

/-- The records of a log whose text is complete in a prefix of the log. -/
def complete : List Record → Bytes → List Record
  | [], _ => []
  | r :: records, file =>
    if (lib.dump r.json).length ≤ file.length then
      r :: complete records (file.drop ((lib.dump r.json).length + 1))
    else []

variable {lib} {t : Bytes} {r : Record}

/-! ## The torn line -/

theorem not_mem_torn (hlib : lib.Lawful) (hr : r.InRange) (ht : t <+: lib.dump r.json) : LF ∉ t :=
  fun hmem => hlib.single_line r hr (ht.subset hmem)

theorem replay_dump (hlib : lib.Lawful) (hr : r.InRange) : replay lib (lib.dump r.json) = [r] := by
  rw [replay, getlines_last (hlib.single_line r hr) (dump_ne_nil hlib hr), List.filterMap_cons,
    replayLine_dump hlib hr, List.filterMap_nil]

theorem replay_cut (hlib : lib.Lawful) (htorn : lib.Torn) (hr : r.InRange)
    (ht : t <+: lib.dump r.json) (hne : t ≠ lib.dump r.json) : replay lib t = [] := by
  by_cases hnil : t = []
  · subst hnil
    rfl
  · have hline : replayLine lib t = none := by
      rw [replayLine, if_neg hnil, htorn.parse_cut r t hr ht hne]
    rw [replay, getlines_last (not_mem_torn hlib hr ht) hnil, List.filterMap_cons, hline,
      List.filterMap_nil]

/-- The first record behind a torn line is lost with it. -/
theorem replay_glued (hlib : lib.Lawful) (htorn : lib.Torn) (hr : r.InRange)
    (ht : t <+: lib.dump r.json) (hne : t ≠ []) {r' : Record} {records : List Record}
    (hlater : ∀ r ∈ r' :: records, r.InRange) :
    replay lib (t ++ append lib [] (r' :: records)) = records := by
  rw [List.forall_mem_cons] at hlater
  have hlf : LF ∉ t ++ lib.dump r'.json := by
    rw [List.mem_append, not_or]
    exact ⟨not_mem_torn hlib hr ht, hlib.single_line r' hlater.1⟩
  have hline : replayLine lib (t ++ lib.dump r'.json) = none := by
    rw [replayLine, if_neg (by simp [hne]), htorn.parse_glued r r' t hr hlater.1 ht hne]
  rw [append_cons, ← List.append_assoc, replay, getlines_line hlf, List.filterMap_cons, hline]
  exact replay_log hlib hlater.2

/-! ## Prefixes of a log -/

theorem complete_nil (hlib : lib.Lawful) {records : List Record}
    (hrange : ∀ r ∈ records, r.InRange) : complete lib records [] = [] := by
  cases records with
  | nil => rfl
  | cons r records =>
    have hpos := List.length_pos_iff.mpr (dump_ne_nil hlib (hrange r List.mem_cons_self))
    rw [complete, if_neg (by simpa using hpos.ne')]

/-- A prefix of a log is whole lines and a torn one, and its complete records are those lines and
what is read of the torn one. -/
theorem exists_torn (hlib : lib.Lawful) (htorn : lib.Torn) {records : List Record}
    (hrange : ∀ r ∈ records, r.InRange) {file : Bytes} (hfile : file <+: append lib [] records) :
    ∃ done t r, file = append lib [] done ++ t ∧ (∀ r ∈ done, Record.InRange r) ∧
      Record.InRange r ∧ t <+: lib.dump (Record.json r) ∧
      complete lib records file = done ++ replay lib t := by
  induction records generalizing file with
  | nil =>
    obtain rfl := List.prefix_nil.mp hfile
    exact ⟨[], [], .del [], rfl, by simp, trivial, List.nil_prefix, rfl⟩
  | cons r records ih =>
    have hboth := List.forall_mem_cons.mp hrange
    have hcons :
        append lib [] (r :: records) = (lib.dump r.json ++ [LF]) ++ append lib [] records := by
      rw [append_cons, List.append_assoc, List.singleton_append]
    rw [hcons] at hfile
    by_cases hlen : (lib.dump r.json).length < file.length
    · -- the first line is whole
      obtain ⟨rest, rfl⟩ : lib.dump r.json ++ [LF] <+: file :=
        List.prefix_of_prefix_length_le (List.prefix_append _ _) hfile (by simp; omega)
      obtain ⟨done, t, r', rfl, hdone, hr', ht, hcomplete⟩ :=
        ih hboth.2 ((List.prefix_append_right_inj _).mp hfile)
      refine ⟨r :: done, t, r', ?_, List.forall_mem_cons.mpr ⟨hboth.1, hdone⟩, hr', ht, ?_⟩
      · rw [append_cons]
        simp
      · rw [complete, if_pos (by omega), List.drop_left' (by simp), hcomplete, List.cons_append]
    · -- the file ends in the first line
      have ht : file <+: lib.dump r.json := by
        rw [List.append_assoc] at hfile
        exact List.prefix_of_prefix_length_le hfile (List.prefix_append _ _) (by omega)
      refine ⟨[], file, r, rfl, by simp, hboth.1, ht, ?_⟩
      by_cases hwhole : file = lib.dump r.json
      · subst hwhole
        rw [complete, if_pos le_rfl, List.drop_eq_nil_of_le (by omega),
          complete_nil hlib hboth.2, replay_dump hlib hboth.1, List.nil_append]
      · have hlt : file.length < (lib.dump r.json).length :=
          Nat.lt_of_le_of_ne ht.length_le fun heq => hwhole (ht.eq_of_length heq)
        rw [complete, if_neg (by omega), replay_cut hlib htorn hboth.1 ht hwhole, List.nil_append]

theorem getLast?_append_log {records : List Record} (hne : records ≠ []) (file : Bytes) :
    (append lib file records).getLast? = some LF := by
  obtain ⟨init, r, rfl⟩ := (List.eq_nil_or_concat records).resolve_left hne
  rw [List.concat_eq_append, append_append, append, List.foldl_cons, List.foldl_nil, log_eq,
    List.getLast?_concat]

/-- A prefix of a log stops at the end of a line exactly when its torn line is empty. -/
theorem ended_iff (hlib : lib.Lawful) (done : List Record) (hr : r.InRange)
    (ht : t <+: lib.dump r.json) :
    append lib [] done ++ t = [] ∨ (append lib [] done ++ t).getLast? = some LF ↔ t = [] := by
  constructor
  · intro h
    by_contra hne
    have hlast : (append lib [] done ++ t).getLast? = t.getLast? :=
      List.getLast?_append_of_ne_nil _ hne
    rcases h with hnil | hlf
    · exact hne (List.append_eq_nil_iff.mp hnil).2
    · rw [hlast] at hlf
      exact not_mem_torn hlib hr ht (List.mem_of_getLast? hlf)
  · rintro rfl
    rw [List.append_nil]
    by_cases hdone : done = []
    · subst hdone
      exact Or.inl rfl
    · exact Or.inr (getLast?_append_log hdone [])

/-! ## The second boot -/

/-- The first boot replays the complete records. The boot after it replays them and all that was
logged since, unless something was logged behind a line that had not ended. -/
theorem replay_recovered_iff (hlib : lib.Lawful) (htorn : lib.Torn) {records later : List Record}
    (hrange : ∀ r ∈ records, r.InRange) (hlater : ∀ r ∈ later, r.InRange) {file : Bytes}
    (hfile : file <+: append lib [] records) :
    replay lib file = complete lib records file ∧
      (replay lib (append lib file later) = complete lib records file ++ later ↔
        file = [] ∨ file.getLast? = some LF ∨ later = []) := by
  obtain ⟨done, t, r, rfl, hdone, hr, ht, hcomplete⟩ := exists_torn hlib htorn hrange hfile
  refine ⟨by rw [hcomplete, replay_append hlib hdone], ?_⟩
  rw [← or_assoc, ended_iff hlib done hr ht, hcomplete, append_eq, List.append_assoc,
    replay_append hlib hdone, List.append_assoc, List.append_right_inj]
  cases later with
  | nil => simp [append]
  | cons r' later =>
    by_cases hnil : t = []
    · subst hnil
      rw [List.nil_append, replay_log hlib hlater]
      simp [replay, getlines]
    · rw [replay_glued hlib htorn hr ht hnil hlater]
      refine iff_of_false (fun heq => ?_) (by simp [hnil])
      have hlen := congrArg List.length heq
      rw [List.length_append, List.length_cons] at hlen
      omega

/-! ## A record that was cut before its newline -/

namespace Compact

theorem torn : Compact.lib.Torn where
  parse_cut r t _ ht hne := by
    change t <+: openBrace :: inner r ++ [closeBrace] at ht
    refine Option.eq_none_iff_forall_ne_some.mpr fun j hparse => ?_
    -- a dumped object ends in a brace, and a proper prefix of one has no closing brace
    obtain ⟨r', rfl⟩ := dump_of_parse hparse
    have hshort := (List.prefix_concat_iff.mp ht).resolve_left hne
    have hmem : closeBrace ∈ openBrace :: inner r := hshort.subset (by simp [dump])
    rcases List.mem_cons.mp hmem with h | h
    · exact absurd h (by decide)
    · exact absurd rfl (isInner_inner r _ h).2.1
  parse_glued r r' t _ _ ht hne := by
    refine Option.eq_none_iff_forall_ne_some.mpr fun j hparse => ?_
    -- the brace that opens the second object would be inside the first
    obtain ⟨r'', hdump⟩ := dump_of_parse hparse
    obtain _ | ⟨c, t⟩ := t
    · exact absurd rfl hne
    · have hinner : inner r'' ++ [closeBrace] = t ++ dump r'.json := (List.cons.inj hdump).2
      have hmem : openBrace ∈ inner r'' ++ [closeBrace] := by
        rw [hinner]
        simp [dump]
      rcases List.mem_append.mp hmem with h | h
      · exact absurd rfl (isInner_inner r'' _ h).1
      · exact absurd (List.mem_singleton.mp h) (by decide)

end Compact

/-- The log of one deletion, cut before its newline. -/
def cutFile : Bytes := Compact.lib.dump (Record.del [97]).json

theorem cutFile_prefix : cutFile <+: append Compact.lib [] [.del [97]] := ⟨[LF], rfl⟩

theorem replay_recovered_cutFile :
    replay Compact.lib cutFile = complete Compact.lib [.del [97]] cutFile ∧
      (replay Compact.lib (append Compact.lib cutFile [.del [98]]) =
          complete Compact.lib [.del [97]] cutFile ++ [.del [98]] ↔
        cutFile = [] ∨ cutFile.getLast? = some LF ∨ [Record.del [98]] = []) :=
  replay_recovered_iff Compact.lawful Compact.torn (by simp [Record.InRange])
    (by simp [Record.InRange]) cutFile_prefix

/-- Both the record that the first boot replayed and the one logged after it are lost. -/
theorem cutFile_not_recovered :
    replay Compact.lib (append Compact.lib cutFile [.del [98]]) ≠
      complete Compact.lib [.del [97]] cutFile ++ [.del [98]] := by
  have hlost : replay Compact.lib (append Compact.lib cutFile [.del [98]]) = [] := by
    rw [append_eq]
    exact replay_glued Compact.lawful Compact.torn (r := .del [97]) trivial List.prefix_rfl
      (dump_ne_nil Compact.lawful trivial) (by simp [Record.InRange])
  rw [hlost]
  simp

end Aof

end PolyCache
