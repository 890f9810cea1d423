import PolyCache.Aof.Recovery
import PolyCache.Library.Transition

/-!
# Any number of crashes

The log lives through crashes: the program may stop while a record is being written, a power
failure may take any end of the file away, and each boot appends behind what it finds. A file that
has been through this is made of lines, each of them beginnings of records one behind the other.
Whatever happens, a boot replays records that were logged, unchanged and in order; and a crash of
the program costs two of them at most.
-/

namespace PolyCache

open Lines

namespace Aof

/-! ## Damaged files -/

/-- A line without its end: beginnings of dumped records, one behind the other. -/
inductive Jam (lib : JsonLib) : List Record → Bytes → Prop where
  | nil : Jam lib [] []
  | cons {r : Record} {t : Bytes} {records : List Record} {text : Bytes}
      (range : r.InRange) (cut : t <+: lib.dump r.json) (nonempty : t ≠ [])
      (rest : Jam lib records text) : Jam lib (r :: records) (t ++ text)

/-- A damaged log, with the records that it was made of. -/
inductive Debris (lib : JsonLib) : List Record → Bytes → Prop where
  | tail {records : List Record} {text : Bytes} (jam : Jam lib records text) :
      Debris lib records text
  | line {records later : List Record} {text file : Bytes} (jam : Jam lib records text)
      (rest : Debris lib later file) : Debris lib (records ++ later) (text ++ LF :: file)

/-- `parse` accepts no part of a document, and nothing that starts a document and then another. -/
structure JsonLib.Strict (lib : JsonLib) : Prop where
  parse_cut : ∀ (r : Record) (t : Bytes), r.InRange → t <+: lib.dump r.json →
    t ≠ lib.dump r.json → lib.parse t = none
  parse_jam : ∀ (records : List Record) (text : Bytes), Jam lib records text →
    2 ≤ records.length → lib.parse text = none

variable {lib : JsonLib} {records later : List Record} {text file : Bytes} {r : Record}

namespace Jam

theorem not_mem (hlib : lib.Lawful) (h : Jam lib records text) : LF ∉ text := by
  induction h with
  | nil => exact List.not_mem_nil
  | cons range cut _ _ ih =>
    rw [List.mem_append, not_or]
    exact ⟨not_mem_torn hlib range cut, ih⟩

theorem append (h : Jam lib records text) (hr : r.InRange) {t : Bytes} (cut : t <+: lib.dump r.json)
    (nonempty : t ≠ []) : Jam lib (records ++ [r]) (text ++ t) := by
  induction h with
  | nil =>
    have hlast := Jam.nil.cons hr cut nonempty
    rwa [List.append_nil] at hlast
  | cons range cut' nonempty' _ ih =>
    rw [List.cons_append, List.append_assoc]
    exact ih.cons range cut' nonempty'

/-- A beginning of a jam is a jam of its first records. -/
theorem cut (h : Jam lib records text) (hfile : file <+: text) :
    ∃ first, first <+: records ∧ Jam lib first file := by
  induction h generalizing file with
  | nil => exact ⟨[], List.nil_prefix, List.prefix_nil.mp hfile ▸ .nil⟩
  | @cons r t records text range cut nonempty rest ih =>
    by_cases hnil : file = []
    · exact ⟨[], List.nil_prefix, hnil ▸ .nil⟩
    · rcases List.prefix_or_prefix_of_prefix hfile (List.prefix_append t text) with hin | hout
      · have hlast := Jam.nil.cons range (hin.trans cut) hnil
        rw [List.append_nil] at hlast
        exact ⟨[r], by simp, hlast⟩
      · obtain ⟨file, rfl⟩ := hout
        obtain ⟨first, hfirst, hjam⟩ := ih ((List.prefix_append_right_inj t).mp hfile)
        exact ⟨r :: first, by simpa using hfirst, hjam.cons range cut nonempty⟩

theorem eq_nil (h : Jam lib records text) (hnil : text = []) : records = [] := by
  cases h with
  | nil => rfl
  | cons _ _ nonempty => simp [nonempty] at hnil

/-- At most one record is read of a jam: the only one, if it is whole. -/
theorem replayLine_sublist (hstrict : lib.Strict) (hlib : lib.Lawful) (h : Jam lib records text) :
    (replayLine lib text).toList.Sublist records := by
  cases h with
  | nil => simp [replayLine]
  | @cons r t records text range cut nonempty rest =>
    cases rest with
    | nil =>
      rw [List.append_nil]
      by_cases hwhole : t = lib.dump r.json
      · rw [hwhole, replayLine_dump hlib range]
        exact List.Sublist.refl _
      · rw [replayLine, if_neg nonempty, hstrict.parse_cut r t range cut hwhole]
        exact List.nil_sublist _
    | @cons r' t' records text range' cut' nonempty' rest =>
      have hjam := hstrict.parse_jam _ _
        ((rest.cons range' cut' nonempty').cons range cut nonempty) (by simp)
      rw [replayLine, if_neg (by simp [nonempty]), hjam]
      exact List.nil_sublist _

/-- Nothing is read of a jam that has something behind its first record. -/
theorem replayLine_append (hstrict : lib.Strict) (h : Jam lib records text) (hne : text ≠ [])
    (hr : r.InRange) {t : Bytes} (cut : t <+: lib.dump r.json) (nonempty : t ≠ []) :
    replayLine lib (text ++ t) = none := by
  have hrecords : records ≠ [] := by
    rintro rfl
    cases h
    exact hne rfl
  have hpos := List.length_pos_iff.mpr hrecords
  have hjam := hstrict.parse_jam _ _ (h.append hr cut nonempty)
    (by rw [List.length_append, List.length_singleton]; omega)
  rw [replayLine, if_neg (by simp [hne]), hjam]

/-- What is read of a piece at the end of the file. -/
theorem replay_piece (hstrict : lib.Strict) (hlib : lib.Lawful) (h : Jam lib records text)
    (hr : r.InRange) {t : Bytes} (cut : t <+: lib.dump r.json) (nonempty : t ≠ []) :
    replay lib (text ++ t) = if t = lib.dump r.json ∧ text = [] then [r] else [] := by
  by_cases hnil : text = []
  · subst hnil
    rw [List.nil_append]
    by_cases hwhole : t = lib.dump r.json
    · rw [hwhole, replay_dump hlib hr, if_pos ⟨rfl, rfl⟩]
    · rw [if_neg fun hboth => hwhole hboth.1, replay,
        getlines_last (not_mem_torn hlib hr cut) nonempty, List.filterMap_cons, replayLine,
        if_neg nonempty, hstrict.parse_cut r t hr cut hwhole]
      rfl
  · have hline := h.append hr cut nonempty
    rw [if_neg fun hboth => hnil hboth.2, replay,
      getlines_last (hline.not_mem hlib) (by simp [hnil]), List.filterMap_cons,
      h.replayLine_append hstrict hnil hr cut nonempty]
    rfl

end Jam

namespace Debris

theorem log (hlib : lib.Lawful) (h : Debris lib records file) (hr : r.InRange) :
    Debris lib (records ++ [r]) (r.log lib file) := by
  rw [log_eq]
  induction h with
  | tail jam =>
    have hline := Debris.line (jam.append hr List.prefix_rfl (dump_ne_nil hlib hr)) (.tail .nil)
    rwa [List.append_nil] at hline
  | line jam _ ih =>
    have hline := Debris.line jam ih
    simpa using hline

/-- What a cut leaves is made of the first records. -/
theorem cut (h : Debris lib records file) {file' : Bytes} (hfile : file' <+: file) :
    ∃ first, first <+: records ∧ Debris lib first file' := by
  induction h generalizing file' with
  | tail jam =>
    obtain ⟨first, hfirst, hjam⟩ := jam.cut hfile
    exact ⟨first, hfirst, .tail hjam⟩
  | @line records later text file jam rest ih =>
    rw [List.append_cons] at hfile
    rcases List.prefix_or_prefix_of_prefix hfile (List.prefix_append (text ++ [LF]) file) with
      hin | ⟨file', rfl⟩
    · rcases List.prefix_concat_iff.mp hin with rfl | hin
      · have hline := Debris.line jam (.tail .nil)
        rw [List.append_nil] at hline
        exact ⟨records, List.prefix_append _ _, hline⟩
      · obtain ⟨first, hfirst, hjam⟩ := jam.cut hin
        exact ⟨first, hfirst.trans (List.prefix_append _ _), .tail hjam⟩
    · obtain ⟨first, hfirst, hrest⟩ := ih ((List.prefix_append_right_inj _).mp hfile)
      refine ⟨records ++ first, (List.prefix_append_right_inj _).mpr hfirst, ?_⟩
      rw [← List.append_cons]
      exact .line jam hrest

theorem replay_sublist (hstrict : lib.Strict) (hlib : lib.Lawful) (h : Debris lib records file) :
    (replay lib file).Sublist records := by
  induction h with
  | @tail records text jam =>
    by_cases hnil : text = []
    · subst hnil
      exact List.nil_sublist _
    · rw [replay, getlines_last (jam.not_mem hlib) hnil]
      have hline := jam.replayLine_sublist hstrict hlib
      cases hread : replayLine lib text <;> simp_all
  | @line records later text file jam rest ih =>
    rw [replay, getlines_line (jam.not_mem hlib), ← List.singleton_append, List.filterMap_append]
    refine List.Sublist.append ?_ ih
    have hline := jam.replayLine_sublist hstrict hlib
    cases hread : replayLine lib text <;> simp_all

end Debris

/-! ## A library that is strict -/

namespace Compact

theorem openBrace_of_jam (h : Jam Compact.lib records text) :
    records.length ≤ text.count openBrace := by
  induction h with
  | nil => simp
  | @cons r t records text _ cut nonempty _ ih =>
    obtain ⟨c, t, rfl⟩ := List.exists_cons_of_ne_nil nonempty
    obtain ⟨u, hu⟩ := cut
    have hc : c = openBrace := (List.cons.inj hu).1
    rw [List.length_cons, List.count_append, List.count_cons, if_pos (by simp [hc])]
    omega

theorem strict : Compact.lib.Strict where
  parse_cut := torn.parse_cut
  parse_jam records text hjam htwo := by
    refine Option.eq_none_iff_forall_ne_some.mpr fun j hparse => ?_
    -- a dumped object has one opening brace
    obtain ⟨r, rfl⟩ := dump_of_parse hparse
    have hbraces := openBrace_of_jam hjam
    have hinner : (inner r).count openBrace = 0 :=
      List.count_eq_zero.mpr fun hmem => (isInner_inner r _ hmem).1 rfl
    have hone : (dump r.json).count openBrace = 1 := by
      change (openBrace :: inner r ++ [closeBrace]).count openBrace = 1
      rw [List.count_append, List.count_cons_self, hinner]
      decide
    omega

end Compact

/-! ## The life of a log -/

/-- What happens to the log: a record is logged, or a crash stops its writing after `kept` bytes, or
a failure of the disk leaves `kept` bytes of the file, or the program boots and reads it. -/
inductive LogEvent where
  | log (r : Record)
  | tear (r : Record) (kept : Nat)
  | cut (kept : Nat)
  | boot (replayed : List Record)
  deriving DecidableEq, Repr

inductive LogStep (lib : JsonLib) : Bytes → LogEvent → Bytes → Prop where
  | log (file : Bytes) {r : Record} (range : r.InRange) :
      LogStep lib file (.log r) (r.log lib file)
  | tear (file : Bytes) {r : Record} (range : r.InRange) (kept : Nat) :
      LogStep lib file (.tear r kept) (file ++ (r.log lib []).take kept)
  | cut (file : Bytes) (kept : Nat) : LogStep lib file (.cut kept) (file.take kept)
  | boot (file : Bytes) : LogStep lib file (.boot (replay lib file)) file

/-- The lives of a log that starts as an empty file. -/
def logSystem (lib : JsonLib) : Transition.System Bytes LogEvent where
  init file := file = []
  step := LogStep lib

/-- The records that the program set out to log, newest first. -/
def logged (h : List LogEvent) : List Record :=
  h.filterMap fun e => match e with
    | .log r | .tear r _ => some r
    | .cut _ | .boot _ => none

variable {h : List LogEvent}

theorem prefix_log (file : Bytes) (r : Record) (kept : Nat) :
    file ++ (r.log lib []).take kept <+: r.log lib file := by
  rw [log_eq, log_eq, List.nil_append, List.append_assoc, List.prefix_append_right_inj]
  exact List.take_prefix _ _

theorem debris_of_reaches (hlib : lib.Lawful) (hr : (logSystem lib).Reaches h file) :
    ∃ records, records.Sublist (logged h).reverse ∧ Debris lib records file := by
  refine hr.invariant (P := fun h file =>
      ∃ records, records.Sublist (logged h).reverse ∧ Debris lib records file)
    (fun file hfile => ?_) ?_
  · obtain rfl : file = [] := hfile
    exact ⟨[], List.nil_sublist _, .tail .nil⟩
  · rintro h file e file' - ⟨records, hsub, hdebris⟩ hs
    cases hs with
    | @log r range =>
      have hlogged : (logged (.log r :: h)).reverse = (logged h).reverse ++ [r] := by simp [logged]
      rw [hlogged]
      exact ⟨records ++ [r], hsub.append_right [r], hdebris.log hlib range⟩
    | @tear r range kept =>
      have hlogged : (logged (.tear r kept :: h)).reverse = (logged h).reverse ++ [r] := by
        simp [logged]
      obtain ⟨first, hfirst, hafter⟩ := (hdebris.log hlib range).cut (prefix_log file r kept)
      rw [hlogged]
      exact ⟨first, hfirst.sublist.trans (hsub.append_right [r]), hafter⟩
    | cut kept =>
      obtain ⟨first, hfirst, hafter⟩ := hdebris.cut (List.take_prefix kept file)
      exact ⟨first, hfirst.sublist.trans hsub, hafter⟩
    | boot => exact ⟨records, hsub, hdebris⟩

/-- A deletion is logged, the next one is torn, and a third is logged behind it. -/
def tornFile (lib : JsonLib) : Bytes :=
  (Record.del [99]).log lib
    ((Record.del [97]).log lib [] ++ ((Record.del [98]).log lib []).take 5)

theorem tornFile_reaches (lib : JsonLib) : (logSystem lib).Reaches
    [.log (.del [99]), .tear (.del [98]) 5, .log (.del [97])] (tornFile lib) := by
  have start : (logSystem lib).Reaches [] [] := .start rfl
  have first := start.next (LogStep.log (r := .del [97]) _ trivial)
  have second := first.next (LogStep.tear (r := .del [98]) _ trivial 5)
  exact second.next (LogStep.log (r := .del [99]) _ trivial)

/-- A boot replays records that were logged, unchanged, in order and none twice, however often the
log has been torn before. -/
theorem boot_replays_logged (hlib : lib.Lawful) (hstrict : lib.Strict)
    (hr : (logSystem lib).Reaches h file) :
    ∀ newer replayed older, h = newer ++ .boot replayed :: older →
      replayed.Sublist (logged older).reverse := by
  induction hr with
  | start => simp
  | @next h file file' e hr hs ih =>
    intro newer replayed older heq
    cases newer with
    | cons e newer => exact ih newer replayed older (List.cons.inj heq).2
    | nil =>
      obtain ⟨rfl, rfl⟩ := List.cons.inj heq
      cases hs
      obtain ⟨records, hsub, hdebris⟩ := debris_of_reaches hlib hr
      exact (hdebris.replay_sublist hstrict hlib).trans hsub

theorem tornFile_replays : (replay Compact.lib (tornFile Compact.lib)).Sublist
    [.del [97], .del [98], .del [99]] :=
  boot_replays_logged Compact.lawful Compact.strict
    ((tornFile_reaches Compact.lib).next (.boot _)) [] _ _ rfl

/-! ## What crashes of the program cost -/

/-- The file is empty or ends a line. -/
def Ended (file : Bytes) : Prop := file = [] ∨ file.getLast? = some LF

theorem ended_log (file : Bytes) (r : Record) : Ended (r.log lib file) := by
  right
  rw [log_eq, List.getLast?_concat]

theorem replay_ended (hended : Ended file) (text : Bytes) :
    replay lib (file ++ text) = replay lib file ++ replay lib text := by
  rcases hended with rfl | hlast
  · rfl
  · obtain ⟨init, rfl⟩ := List.getLast?_eq_some_iff.mp hlast
    rw [← List.append_cons, replay, getlines_append, List.filterMap_append]
    rfl

/-- A record behind whole lines is read; behind anything else it is not. -/
theorem replay_log_ended (hstrict : lib.Strict) (hlib : lib.Lawful) (hended : Ended file)
    (hjam : Jam lib records text) (hr : r.InRange) :
    replay lib (r.log lib (file ++ text)) =
      replay lib file ++ if text = [] then [r] else [] := by
  have hlines : replay lib (text ++ lib.dump r.json ++ [LF]) = if text = [] then [r] else [] := by
    rw [replay, getlines_line, List.filterMap_cons]
    · split_ifs with hnil
      · subst hnil
        rw [List.nil_append, replayLine_dump hlib hr]
        rfl
      · rw [hjam.replayLine_append hstrict hnil hr List.prefix_rfl (dump_ne_nil hlib hr)]
        rfl
    · rw [List.mem_append, not_or]
      exact ⟨hjam.not_mem hlib, hlib.single_line r hr⟩
  rw [log_eq, List.append_assoc, List.append_assoc, ← List.append_assoc text, replay_ended hended,
    hlines]

def tears (h : List LogEvent) : Nat :=
  h.countP fun e => match e with
    | .tear _ _ => true
    | .log _ | .cut _ | .boot _ => false

/-- The file ends in a line that has been begun and not ended. -/
def dangling (lib : JsonLib) : List LogEvent → Bool
  | [] | .log _ :: _ => false
  | .tear r kept :: h =>
    if (lib.dump r.json).length < kept then false else 0 < kept || dangling lib h
  | .cut _ :: h | .boot _ :: h => dangling lib h

/-- The records on lines of their own, newest first: all that were logged but those that a crash has
torn, and those that were written behind a piece that a crash had left. -/
def whole (lib : JsonLib) : List LogEvent → List Record
  | [] => []
  | .log r :: h => if dangling lib h then whole lib h else r :: whole lib h
  | .tear r kept :: h =>
    if (lib.dump r.json).length < kept ∧ dangling lib h = false then r :: whole lib h
    else whole lib h
  | .cut _ :: h | .boot _ :: h => whole lib h

/-- The record that a crash has torn off just before the end of its line, as long as nothing is
written behind it. -/
def unended (lib : JsonLib) : List LogEvent → Option Record
  | [] | .log _ :: _ => none
  | .tear r kept :: h =>
    if kept = 0 then unended lib h
    else if kept = (lib.dump r.json).length ∧ dangling lib h = false then some r else none
  | .cut _ :: h | .boot _ :: h => unended lib h

/-- A torn record takes the next one with it. -/
theorem length_logged_le (lib : JsonLib) (h : List LogEvent) :
    (logged h).length + (if dangling lib h then 1 else 0) ≤ (whole lib h).length + 2 * tears h := by
  induction h with
  | nil => simp [logged, dangling]
  | cons e h ih =>
    cases e with
    | log r =>
      have hlogged : (logged (.log r :: h)).length = (logged h).length + 1 := by simp [logged]
      have htears : tears (.log r :: h) = tears h := by simp [tears]
      rw [hlogged, htears, whole, dangling]
      split_ifs at ih ⊢ <;> simp_all; omega
    | tear r kept =>
      have hlogged : (logged (.tear r kept :: h)).length = (logged h).length + 1 := by
        simp [logged]
      have htears : tears (.tear r kept :: h) = tears h + 1 := by simp [tears]
      rw [hlogged, htears, whole, dangling]
      split_ifs at ih ⊢ <;> simp_all <;> omega
    | cut | boot => exact ih

/-- The file is whole lines and a jam behind them. -/
structure Worn (lib : JsonLib) (h : List LogEvent) (file text : Bytes) : Prop where
  ended : Ended file
  jam : ∃ records, Jam lib records text
  dangling : dangling lib h = true ↔ text ≠ []
  whole : replay lib file = (whole lib h).reverse
  unended : replay lib text = (unended lib h).toList

namespace Worn

theorem log (hstrict : lib.Strict) (hlib : lib.Lawful) (hw : Worn lib h file text)
    (hr : r.InRange) : Worn lib (.log r :: h) (r.log lib (file ++ text)) [] := by
  obtain ⟨records, hjam⟩ := hw.jam
  refine ⟨ended_log _ r, ⟨[], .nil⟩, by simp [Aof.dangling], ?_, rfl⟩
  rw [replay_log_ended hstrict hlib hw.ended hjam hr, hw.whole, Aof.whole]
  by_cases hnil : text = []
  · have hend : Aof.dangling lib h = false := by simpa [hnil] using hw.dangling
    simp [hnil, hend]
  · simp [hnil, hw.dangling.mpr hnil]

theorem tear (hstrict : lib.Strict) (hlib : lib.Lawful) (hw : Worn lib h file text)
    (hr : r.InRange) (kept : Nat) : ∃ file' text',
      file ++ text ++ (r.log lib []).take kept = file' ++ text' ∧
        Worn lib (.tear r kept :: h) file' text' := by
  by_cases hall : (lib.dump r.json).length < kept
  · -- the record was written to its end
    have htake : (r.log lib []).take kept = lib.dump r.json ++ [LF] := by
      rw [log_eq, List.nil_append]
      exact List.take_of_length_le (by rw [List.length_append, List.length_singleton]; omega)
    have hlog := hw.log hstrict hlib hr
    refine ⟨r.log lib (file ++ text), [], ?_, hlog.ended, hlog.jam, by simp [Aof.dangling, hall],
      ?_, ?_⟩
    · rw [htake, log_eq, List.append_nil]
      simp
    · rw [hlog.whole, Aof.whole, Aof.whole]
      by_cases hend : Aof.dangling lib h = true <;> simp [hend, hall]
    · have hne : kept ≠ (lib.dump r.json).length := by omega
      simp [Aof.unended, hne, show kept ≠ 0 by omega]
      rfl
  · have htake : (r.log lib []).take kept = (lib.dump r.json).take kept := by
      rw [log_eq, List.nil_append, List.take_append_of_le_length (by omega)]
    have hwhole : Aof.whole lib (.tear r kept :: h) = Aof.whole lib h := by
      rw [Aof.whole, if_neg fun hboth => hall hboth.1]
    obtain ⟨records, hjam⟩ := hw.jam
    refine ⟨file, text ++ (r.log lib []).take kept, List.append_assoc _ _ _, hw.ended, ?_, ?_,
      hwhole ▸ hw.whole, ?_⟩
    all_goals rw [htake]
    · by_cases hnil : (lib.dump r.json).take kept = []
      · rw [hnil, List.append_nil]
        exact ⟨records, hjam⟩
      · exact ⟨_, hjam.append hr (List.take_prefix _ _) hnil⟩
    · have hend := hw.dangling
      have hpos := dump_ne_nil hlib hr
      by_cases hkept : kept = 0
      · simpa [Aof.dangling, hall, hkept] using hend
      · simp [Aof.dangling, hall, hkept, hpos, Nat.pos_of_ne_zero hkept]
    · by_cases hkept : kept = 0
      · simpa [Aof.unended, hkept] using hw.unended
      · have hnil : (lib.dump r.json).take kept ≠ [] := by
          simp [hkept, dump_ne_nil hlib hr]
        rw [hjam.replay_piece hstrict hlib hr (List.take_prefix _ _) hnil, Aof.unended,
          if_neg hkept]
        have hall' : (lib.dump r.json).take kept = lib.dump r.json ↔
            kept = (lib.dump r.json).length := by
          rw [List.take_eq_self_iff]
          omega
        have hend : Aof.dangling lib h = false ↔ text = [] := by
          rw [← Bool.not_eq_true, hw.dangling, not_not]
        simp only [hall', hend]
        split_ifs <;> rfl

end Worn

/-- The lives in which nothing that was written is taken away again. -/
def flushedSystem (lib : JsonLib) : Transition.System Bytes LogEvent :=
  (logSystem lib).restrict fun _ e => ∀ kept, e ≠ .cut kept

theorem worn_of_reaches (hlib : lib.Lawful) (hstrict : lib.Strict)
    (hr : (flushedSystem lib).Reaches h file) :
    ∃ ended text, file = ended ++ text ∧ Worn lib h ended text := by
  refine hr.invariant (P := fun h file => ∃ ended text, file = ended ++ text ∧
    Worn lib h ended text) (fun file hfile => ?_) ?_
  · obtain rfl : file = [] := hfile
    exact ⟨[], [], rfl, Or.inl rfl, ⟨[], .nil⟩, by simp [dangling], rfl, rfl⟩
  · rintro h file e file' - ⟨ended, text, rfl, hw⟩ ⟨hs, hallowed⟩
    cases hs with
    | log range => exact ⟨_, [], (List.append_nil _).symm, hw.log hstrict hlib range⟩
    | tear range kept => exact hw.tear hstrict hlib range kept
    | cut kept => exact absurd rfl (hallowed kept)
    | boot => exact ⟨ended, text, rfl, hw.ended, hw.jam, hw.dangling, hw.whole, hw.unended⟩

/-- A boot reads every record that was logged but the torn ones and those that were written behind a
torn piece, so that each crash of the program costs two records at most. -/
theorem crashes_cost_two (hlib : lib.Lawful) (hstrict : lib.Strict)
    (hr : (flushedSystem lib).Reaches h file) :
    replay lib file = (whole lib h).reverse ++ (unended lib h).toList ∧
      (logged h).length ≤ (replay lib file).length + 2 * tears h := by
  obtain ⟨ended, text, rfl, hw⟩ := worn_of_reaches hlib hstrict hr
  have hreplay : replay lib (ended ++ text) = (whole lib h).reverse ++ (unended lib h).toList := by
    rw [replay_ended hw.ended, hw.whole, hw.unended]
  refine ⟨hreplay, ?_⟩
  have hlogged := length_logged_le lib h
  rw [hreplay, List.length_append, List.length_reverse]
  omega

theorem tornFile_lost : replay Compact.lib (tornFile Compact.lib) = [.del [97]] ∧
    3 ≤ (replay Compact.lib (tornFile Compact.lib)).length + 2 * 1 := by
  have start : (flushedSystem Compact.lib).Reaches [] [] := .start rfl
  have first := start.next ⟨LogStep.log (r := .del [97]) _ trivial, by simp⟩
  have second := first.next ⟨LogStep.tear (r := .del [98]) _ trivial 5, by simp⟩
  have third := second.next ⟨LogStep.log (r := .del [99]) _ trivial, by simp⟩
  exact crashes_cost_two Compact.lawful Compact.strict third

end Aof

end PolyCache
