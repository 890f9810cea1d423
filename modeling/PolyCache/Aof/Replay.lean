import PolyCache.Aof.Log
import PolyCache.Storage.Contents
import PolyCache.Storage.Expiry

/-!
# Replay into a store

A replay is a run of the store in which the client calls are those that `replay` makes, with the
sweeper and the clock going on beside it. A key that is there after the run has the value of the
last `set` of it that was not refused. A run that evicts and expires nothing makes of its calls what
they make of a map.
-/

namespace PolyCache

open Aof

/-! ## The calls of a run -/

namespace History

/-- The calls of `set` and `del`, newest first, each with its answer. -/
def calls : History → List (Record × Bool)
  | [] => []
  | (_, .set r) :: h => (.set r.key r.value r.ttl, r.stored) :: calls h
  | (_, .del key removed) :: h => (.del key, removed) :: calls h
  | _ :: h => calls h

def records (h : History) : List Record := h.calls.map Prod.fst

/-- The run makes the calls that `replay` makes from the file, in the same order. -/
def Replays (lib : JsonLib) (file : Bytes) (h : History) : Prop :=
  h.records.reverse = replay lib file

end History

open History

/-- The calls, newest first, leave the value under the key: one of them is a `set` of it that
returned true, and those after it neither delete the key nor set it with success. -/
def Stands (calls : List (Record × Bool)) (key value : Bytes) : Prop :=
  ∃ newer older ttl, calls = newer ++ (.set key value ttl, true) :: older ∧
    ∀ c ∈ newer, c.1 ≠ .del key ∧ ∀ value' ttl', c.1 = .set key value' ttl' → c.2 = false

theorem Stands.cons {calls : List (Record × Bool)} {key value : Bytes} (h : Stands calls key value)
    {c : Record × Bool} (hdel : c.1 ≠ .del key)
    (hset : ∀ value' ttl', c.1 = .set key value' ttl' → c.2 = false) :
    Stands (c :: calls) key value := by
  obtain ⟨newer, older, ttl, rfl, hnewer⟩ := h
  exact ⟨c :: newer, older, ttl, rfl, List.forall_mem_cons.mpr ⟨⟨hdel, hset⟩, hnewer⟩⟩

namespace World

variable {buckets memoryLimit maxValueSize : Nat} {h : History} {w w' : World} {e : Nat × Event}

theorem stands_step (hs : Step w e w')
    (ih : ∀ k m, w.storage.data.lookup k = some m → Stands h.calls k m.value) :
    ∀ k m, w'.storage.data.lookup k = some m → Stands (calls (e :: h)) k m.value := by
  intro k m hm
  cases hs with
  | set buckets key value ttl =>
    have hstored := w.record_stored buckets key value ttl
    cases hstore : w.storage.canStore key value with
    | false =>
      rw [Storage.set_of_refused _ _ _ hstore] at hm
      exact (ih k m hm).cons (by simp) fun _ _ _ => hstored.trans hstore
    | true =>
      rw [Storage.lookup_set _ _ _ hstore] at hm
      split_ifs at hm with hvictim hk
      · subst hk
        cases hm
        refine ⟨[], calls h, ttl, ?_, by simp⟩
        rw [calls, hstored, hstore]
        rfl
      · refine (ih k m hm).cons (by simp) fun value' ttl' heq => ?_
        cases heq
        exact absurd rfl hk
  | get key => exact ih k m ((Storage.Shrinks.get _ _ _).data k m hm).1
  | del key =>
    have hk : k ≠ key := by
      rintro rfl
      cases hd : w.storage.data.lookup k with
      | none => simp [Storage.del_of_absent hd, hd] at hm
      | some m' => simp [Storage.del_of_present hd, Storage.lookup_removeEntry] at hm
    refine (ih k m ((Storage.Shrinks.del _ _).data k m hm).1).cons ?_ (by simp)
    simpa using Ne.symm hk
  | collect batch => exact ih k m hm
  | expire key => exact ih k m ((Storage.Shrinks.expireKey _ _).data k m hm).1
  | tick => exact ih k m hm

/-- In every run, what is stored is what the calls leave. -/
theorem stands_of_reaches (hr : (system buckets memoryLimit maxValueSize).Reaches h w) :
    ∀ k m, w.storage.data.lookup k = some m → Stands h.calls k m.value := by
  refine hr.invariant (P := fun h w => ∀ k m, w.storage.data.lookup k = some m →
    Stands (calls h) k m.value) (fun w hw k m hm => ?_) fun _ _ _ _ _ ih hs => stands_step hs ih
  rw [hw.1] at hm
  cases hm

/-! ## Runs that lose nothing -/

end World

/-- What a call does to a map. -/
def Aof.Record.apply : Record → Contents → Contents
  | .set key value ttl, c => c.put key value ttl
  | .del key, c => c.remove key

/-- What calls, newest first, make of an empty map. -/
def contents (records : List Record) : Contents := records.foldr Record.apply fun _ => none

/-- Neither the clients' doing nor the clock's. -/
def Event.background : Event → Bool
  | .collect _ | .expire _ | .tick _ => true
  | _ => false

namespace World

/-- No key has been evicted or has expired, and no sweep pass has found one to collect. -/
structure Lossless (h : History) (w : World) : Prop where
  evictions : w.storage.evictions = 0
  expired : w.storage.expiredKeys = 0
  passes : ∀ t batch, (t, .collect batch) ∈ h → batch = []

/-- The sweeper does nothing to a store in which nothing has expired. -/
theorem background_step (hs : Step w e w') (hbackground : e.2.background)
    (hbatch : ∀ batch, e.2 = .collect batch → batch = []) (hidle : w.pending = [])
    {c : Contents} (hc : w.storage.Holds c) :
    w'.pending = [] ∧ w'.storage.Holds c ∧ w'.storage.evictions = w.storage.evictions ∧
      w'.storage.expiredKeys = w.storage.expiredKeys := by
  cases hs with
  | set | get | del => cases hbackground
  | collect batch _ hall =>
    obtain rfl := hbatch batch rfl
    exact ⟨rfl, hc.collectExpired hall.nil_eq.symm, rfl, rfl⟩
  | expire key rest hnext =>
    rw [hidle] at hnext
    cases hnext
  | tick => exact ⟨hidle, hc, rfl, rfl⟩

theorem counters_step (hs : Step w e w') : w.storage.evictions ≤ w'.storage.evictions ∧
    w.storage.expiredKeys ≤ w'.storage.expiredKeys := by
  cases hs with
  | set buckets key value ttl => exact Storage.counters_le_set ..
  | get key => exact Storage.counters_le_get ..
  | del key => exact Storage.counters_le_del ..
  | collect batch => exact ⟨le_rfl, le_rfl⟩
  | expire key rest =>
    cases hm : w.storage.data.lookup key with
    | none => simp [Storage.expireKey_of_absent hm]
    | some m => simp [Storage.expireKey_of_present hm, Storage.removeEntry]
  | tick => exact ⟨le_rfl, le_rfl⟩

theorem Lossless.before (hl : Lossless (e :: h) w') (hs : Step w e w') : Lossless h w := by
  have hcount := counters_step hs
  have hevictions := hl.evictions
  have hexpired := hl.expired
  exact ⟨by omega, by omega, fun t batch hmem => hl.passes t batch (List.mem_cons_of_mem _ hmem)⟩

/-- In a run that loses nothing and refuses nothing, the store holds what its calls make of an empty
map. -/
theorem holds_of_reaches (hr : (system buckets memoryLimit maxValueSize).Reaches h w)
    (hl : Lossless h w) (hstored : ∀ t r, (t, .set r) ∈ h → r.stored = true) :
    w.pending = [] ∧ w.storage.Holds (contents (records h)) := by
  induction hr with
  | start hw =>
    refine ⟨hw.2, ?_⟩
    rw [hw.1]
    exact Storage.Holds.init _ _ _
  | @next h w w' e hr hs ih =>
    obtain ⟨hidle, hc⟩ := ih (hl.before hs)
      fun t r hmem => hstored t r (List.mem_cons_of_mem _ hmem)
    have hevictions := hl.evictions
    have hexpired := hl.expired
    have hbefore := hl.before hs
    cases hs with
    | set buckets key value ttl =>
      have hstore : w.storage.canStore key value = true := by
        rw [← Storage.set_fst w.storage w.now buckets key value ttl]
        exact hstored _ _ List.mem_cons_self
      have hvictims : w.storage.setVictims w.now buckets key value ttl = [] := by
        simpa [Storage.evictions_set, hbefore.evictions] using hevictions
      exact ⟨hidle, hc.set hstore hvictims⟩
    | get key =>
      have hget := (Storage.counters_get w.storage w.now key).2
      have hfresh : (w.storage.ttl.isExpired w.now key).1 = false := by
        rw [Bool.eq_false_iff]
        intro he
        rw [he, hbefore.expired] at hget
        exact absurd (hget.symm.trans hexpired) (by simp)
      exact ⟨hidle, hc.get hfresh⟩
    | del key => exact ⟨hidle, hc.del⟩
    | collect batch hnone hall =>
      obtain ⟨hidle, hc, -, -⟩ := background_step (Step.collect w batch hnone hall) rfl
        (fun batch' heq => hl.passes _ _ (by cases heq; exact List.mem_cons_self)) hidle hc
      exact ⟨hidle, hc⟩
    | expire key rest hnext =>
      rw [hidle] at hnext
      cases hnext
    | tick => exact ⟨hidle, hc⟩

/-- What the calls leave under a key comes from the last `set` of it. -/
theorem lastSet_of_contents (hstored : ∀ t r, (t, .set r) ∈ h → r.stored = true) {k : Bytes}
    {entry : Bytes × Int} (hk : contents (records h) k = some entry) :
    ∃ t r, lastSet k h = some (t, r) ∧ r.value = entry.1 ∧ r.ttl = entry.2 := by
  induction h with
  | nil => cases hk
  | cons e h ih =>
    have hold : ∀ t r, (t, .set r) ∈ h → r.stored = true :=
      fun t r hmem => hstored t r (List.mem_cons_of_mem _ hmem)
    obtain ⟨t, e⟩ := e
    cases e with
    | set r =>
      have hr := hstored t r List.mem_cons_self
      have hput : contents (records ((t, .set r) :: h)) =
        (contents (records h)).put r.key r.value r.ttl := rfl
      rw [hput, Contents.put_apply] at hk
      rw [lastSet_set]
      by_cases hkey : k = r.key
      · rw [if_pos hkey] at hk
        cases hk
        exact ⟨t, r, if_pos ⟨hr, hkey.symm⟩, rfl, rfl⟩
      · rw [if_neg hkey] at hk
        rw [if_neg fun h => hkey h.2.symm]
        exact ih hold hk
    | del key removed =>
      have hremove : contents (records ((t, .del key removed) :: h)) =
        (contents (records h)).remove key := rfl
      rw [hremove, Contents.remove_apply] at hk
      split_ifs at hk
      exact ih hold hk
    | get | collect | expire | tick => exact ih hold hk

end World

end PolyCache
