import PolyCache.Storage.Contents
import PolyCache.Storage.Sweep

/-!
# The metrics

What `metrics` reports, and the balance between its counters and the operations of a run: each key
that was inserted is still stored, or was evicted, expired or deleted, and no deadline outlives its
key.
-/

namespace PolyCache

open AssocMap

/-- The JSON object of `metrics`; the rates are exact, before the code rounds them to a double. -/
structure Metrics where
  totalKeys : Nat
  memoryBytes : Nat
  usedMemory : Nat
  usedMemoryPeak : Nat
  memoryLimit : Nat
  maxValueSize : Nat
  hits : Nat
  misses : Nat
  evictions : Nat
  expiredKeys : Nat
  avgItemBytes : Nat
  largestItemBytes : Nat
  hitRate : Rat
  missRate : Rat

namespace Storage

def metrics (s : Storage) : Metrics :=
  let keys := s.data.keys.length
  let total : Rat := s.hits + s.misses
  { totalKeys := keys
    memoryBytes := s.usedMemory
    usedMemory := s.usedMemory
    usedMemoryPeak := max s.usedMemoryPeak s.usedMemory
    memoryLimit := s.memoryLimit
    maxValueSize := s.maxValueSize
    hits := s.hits
    misses := s.misses
    evictions := s.evictions
    expiredKeys := s.expiredKeys
    avgItemBytes := if keys = 0 then 0 else s.valueBytes.val / keys
    largestItemBytes := s.largestItemBytes
    hitRate := if 0 < total then s.hits / total else 0
    missRate := if 0 < total then s.misses / total else 0 }

/-! ## How many keys a set leaves -/

variable {s : Storage} {key : Bytes}

theorem evictLoop_length (rounds : Nat) (s : Storage) :
    (evictLoop rounds s).storage.data.keys.length + (evictLoop rounds s).victims.length =
      s.data.keys.length := by
  induction rounds generalizing s with
  | zero => simp [evictLoop]
  | succ rounds ih =>
    rw [evictLoop]
    split_ifs
    · cases hm : s.data.lookup s.policy.evict.1 with
      | none => simp
      | some m =>
        have hrest := ih (s.evictEntry s.policy.evict.1 m)
        have hlen := length_keys_erase hm
        rw [evictEntry_data] at hrest
        simp only [List.length_cons]
        omega
    · simp

theorem length_store (now buckets : Nat) (value : Str) (ttl : Int) :
    (s.store now buckets key value ttl).data.keys.length =
      s.data.keys.length + if (s.data.lookup key).isNone then 1 else 0 := by
  have hstore : (s.store now buckets key value ttl).data =
      s.data.insert key ⟨value.bytes, accounted value⟩ := by
    cases hm : s.data.lookup key <;> simp [store, place, hm, countNew, emplace, overwrite]
  rw [hstore, length_keys_insert]

theorem length_set (now buckets : Nat) {value : Str} (ttl : Int)
    (h : s.canStore key value = true) :
    (s.set now buckets key value ttl).2.data.keys.length +
        (s.setVictims now buckets key value ttl).length =
      s.data.keys.length + if (s.data.lookup key).isNone then 1 else 0 := by
  rw [← length_store now buckets value ttl, set, setVictims, if_pos h, if_pos h]
  exact evictLoop_length _ _

theorem lookups_set (s : Storage) (now buckets : Nat) (key : Bytes) (value : Str) (ttl : Int) :
    (s.set now buckets key value ttl).2.hits = s.hits ∧
      (s.set now buckets key value ttl).2.misses = s.misses := by
  have hstore : (s.store now buckets key value ttl).hits = s.hits ∧
      (s.store now buckets key value ttl).misses = s.misses := by
    cases hm : s.data.lookup key <;> simp [store, place, hm, countNew, emplace, overwrite]
  unfold set
  split_ifs
  · obtain ⟨_, _, _, _, _, hframe⟩ := evictLoop_frame
      (s.store now buckets key value ttl).data.keys.length (s.store now buckets key value ttl)
    simp only [evictIfOverLimit, hframe, hstore, and_self]
  · exact ⟨rfl, rfl⟩

end Storage

/-! ## Conservation -/

namespace History

/-- The sets that inserted a key that was not in `data_`. -/
def inserts (h : History) : Nat :=
  h.countP fun e => match e.2 with
    | .set r => r.stored && r.fresh
    | _ => false

def gets (h : History) : Nat :=
  h.countP fun e => match e.2 with
    | .get _ _ => true
    | _ => false

/-- The dels that returned true. -/
def dels (h : History) : Nat :=
  h.countP fun e => match e.2 with
    | .del _ removed => removed
    | _ => false

end History

open History

namespace World

structure Conserved (h : History) (w : World) : Prop where
  keys : inserts h = w.storage.metrics.totalKeys + w.storage.metrics.evictions +
    w.storage.metrics.expiredKeys + dels h
  lookups : w.storage.metrics.hits + w.storage.metrics.misses = gets h
  /-- no deadline without a key -/
  orphans : ∀ k, (w.storage.ttl.expiries.lookup k).isSome → (w.storage.data.lookup k).isSome

/-- The sweeper removes no key that has a deadline again. -/
def Calm (w : World) (e : Nat × Event) : Prop :=
  ∀ key, e.2 = .expire key → w.storage.ttl.expiries.lookup key = none

namespace Conserved

variable {h : History} {w : World}

theorem set (hw : Conserved h w) (buckets : Nat) (key : Bytes) (value : Str) (ttl : Int) :
    Conserved ((w.now, .set (w.record buckets key value ttl)) :: h)
      { w with storage := (w.storage.set w.now buckets key value ttl).2 } := by
  have hstored := w.record_stored buckets key value ttl
  have hlookups := w.storage.lookups_set w.now buckets key value ttl
  cases hstore : w.storage.canStore key value with
  | false =>
    rw [hstore] at hstored
    rw [Storage.set_of_refused _ _ _ hstore]
    refine ⟨?_, hw.lookups, hw.orphans⟩
    simpa [inserts, dels, hstored] using hw.keys
  | true =>
    rw [hstore] at hstored
    have hfresh : (w.record buckets key value ttl).fresh = (w.storage.data.lookup key).isNone := rfl
    constructor
    · have hlen := Storage.length_set w.now buckets ttl hstore
      have hevict := w.storage.evictions_set w.now buckets key value ttl
      have hexpired := w.storage.expiredKeys_set w.now buckets key value ttl
      have hkeys := hw.keys
      simp only [inserts, dels, Storage.metrics, List.countP_cons, hstored, hfresh,
        Bool.true_and, Bool.false_eq_true, if_false] at hkeys ⊢
      omega
    · simpa [gets, Storage.metrics, hlookups] using hw.lookups
    · intro k hk
      have hdata := Storage.lookup_set w.now buckets ttl hstore k
      have httl := Storage.deadline_set w.now buckets ttl hstore k
      simp only [hdata, httl] at hk ⊢
      split_ifs at hk ⊢ <;> simp_all [hw.orphans]

theorem get (hw : Conserved h w) (key : Bytes) :
    Conserved ((w.now, .get key (w.storage.get w.now key).1) :: h)
      { w with storage := (w.storage.get w.now key).2 } := by
  have hkeys := hw.keys
  have hlookups := hw.lookups
  simp only [inserts, dels, gets, Storage.metrics] at hkeys hlookups
  cases he : (w.storage.ttl.isExpired w.now key).1 with
  | true =>
    obtain ⟨d, hd, -⟩ := TTLManager.isExpired_iff.mp he
    obtain ⟨m, hm⟩ := Option.isSome_iff_exists.mp (hw.orphans key (by simp [hd]))
    have hlen := length_keys_erase hm
    rw [Storage.get_of_expired he]
    refine ⟨?_, ?_, fun k hk => ?_⟩
    · simp only [inserts, dels, Storage.metrics, Storage.forget, hm, Storage.removeEntry,
        List.countP_cons_of_neg, Bool.false_eq_true, not_false_iff]
      omega
    · simp [gets, Storage.metrics, Storage.forget, hm, Storage.removeEntry]
      omega
    · have hdata : (w.storage.forget key).data.lookup k =
          if k = key then none else w.storage.data.lookup k := Storage.lookup_forget k
      simp only [TTLManager.lookup_erase] at hk
      simp only [hdata]
      split_ifs at hk ⊢
      · simp at hk
      · exact hw.orphans k hk
  | false =>
    cases hm : w.storage.data.lookup key with
    | none =>
      rw [Storage.get_of_absent he hm]
      refine ⟨?_, ?_, hw.orphans⟩
      · simpa [inserts, dels, Storage.metrics] using hkeys
      · simp [gets, Storage.metrics]
        omega
    | some m =>
      rw [Storage.get_of_present he hm]
      refine ⟨?_, ?_, hw.orphans⟩
      · simpa [inserts, dels, Storage.metrics] using hkeys
      · simp [gets, Storage.metrics]
        omega

theorem del (hw : Conserved h w) (key : Bytes) :
    Conserved ((w.now, .del key (w.storage.del key).1) :: h)
      { w with storage := (w.storage.del key).2 } := by
  have hkeys := hw.keys
  simp only [inserts, dels, Storage.metrics] at hkeys
  cases hm : w.storage.data.lookup key with
  | none =>
    rw [Storage.del_of_absent hm]
    refine ⟨?_, hw.lookups, hw.orphans⟩
    simpa [inserts, dels, Storage.metrics] using hkeys
  | some m =>
    have hlen := length_keys_erase hm
    rw [Storage.del_of_present hm]
    refine ⟨?_, hw.lookups, fun k hk => ?_⟩
    · simp only [inserts, dels, Storage.metrics, Storage.removeEntry, List.countP_cons_of_neg,
        List.countP_cons_of_pos, Bool.false_eq_true, not_false_iff]
      omega
    · simp only [TTLManager.lookup_erase] at hk
      simp only [Storage.lookup_removeEntry]
      split_ifs at hk ⊢
      · simp at hk
      · exact hw.orphans k hk

theorem collect (hw : Conserved h w) (batch : List Bytes) :
    Conserved ((w.now, .collect batch) :: h)
      { w with storage := (w.storage.collectExpired w.now).2, pending := batch } where
  keys := hw.keys
  lookups := hw.lookups
  orphans k hk := by
    have httl : (w.storage.collectExpired w.now).2.ttl.expiries.lookup k =
        (w.storage.ttl.expiries.lookup k).filter fun d => ¬ d ≤ w.now :=
      TTLManager.lookup_expiredKeys
    obtain ⟨d, hd⟩ := Option.isSome_iff_exists.mp hk
    have hd := Option.filter_eq_some_iff.mp (httl.symm.trans hd)
    exact hw.orphans k (by simp [hd.1])

/-- Removing a collected key keeps the balance, and leaves an orphan if the key has a deadline. -/
theorem expire (hw : Conserved h w) (key : Bytes) (pending : List Bytes) :
    Conserved ((w.now, .expire key) :: h)
        { w with storage := w.storage.expireKey key, pending := pending } ↔
      w.storage.ttl.expiries.lookup key = none := by
  have hkeys := hw.keys
  simp only [inserts, dels, Storage.metrics] at hkeys
  cases hm : w.storage.data.lookup key with
  | none =>
    rw [Storage.expireKey_of_absent hm]
    refine ⟨fun _ => ?_, fun _ => ⟨?_, hw.lookups, hw.orphans⟩⟩
    · rw [← Option.not_isSome_iff_eq_none]
      exact fun hk => by simpa [hm] using hw.orphans key hk
    · simpa [inserts, dels, Storage.metrics] using hkeys
  | some m =>
    have hlen := length_keys_erase hm
    rw [Storage.expireKey_of_present hm]
    constructor
    · intro hafter
      rw [← Option.not_isSome_iff_eq_none]
      intro hk
      have hkey := hafter.orphans key hk
      rw [show ({ w.storage.removeEntry key m with expiredKeys := w.storage.expiredKeys + 1 } :
        Storage).data = (w.storage.removeEntry key m).data from rfl, Storage.lookup_removeEntry,
        if_pos rfl] at hkey
      exact nomatch hkey
    · intro hnone
      refine ⟨?_, hw.lookups, fun k hk => ?_⟩
      · simp only [inserts, dels, Storage.metrics, Storage.removeEntry, List.countP_cons_of_neg,
          Bool.false_eq_true, not_false_iff]
        omega
      · simp only [Storage.lookup_removeEntry]
        split_ifs with hself
        · rw [hself] at hk
          exact absurd hk (by simp [Storage.removeEntry, hnone])
        · exact hw.orphans k hk

theorem tick (hw : Conserved h w) (ticks : Nat) :
    Conserved ((w.now, .tick ticks) :: h) { w with now := w.now + ticks } :=
  ⟨hw.keys, hw.lookups, hw.orphans⟩

/-- A step keeps the balance if and only if it is calm. -/
theorem step (hw : Conserved h w) {w' : World} {e : Nat × Event} (hs : Step w e w') :
    Conserved (e :: h) w' ↔ Calm w e := by
  cases hs with
  | set buckets key value ttl => exact ⟨fun _ => nofun, fun _ => hw.set buckets key value ttl⟩
  | get key => exact ⟨fun _ => nofun, fun _ => hw.get key⟩
  | del key => exact ⟨fun _ => nofun, fun _ => hw.del key⟩
  | collect batch => exact ⟨fun _ => nofun, fun _ => hw.collect batch⟩
  | expire key rest hnext =>
    rw [hw.expire key rest]
    exact ⟨fun hnone k heq => by cases heq; exact hnone, fun hcalm => hcalm key rfl⟩
  | tick ticks => exact ⟨fun _ => nofun, fun _ => hw.tick ticks⟩

end Conserved

variable {buckets memoryLimit maxValueSize : Nat} {h : History} {w : World}

/-- The runs whose steps are all calm. -/
def calmSystem (buckets memoryLimit maxValueSize : Nat) : Transition.System World (Nat × Event) :=
  (system buckets memoryLimit maxValueSize).restrict Calm

/-- In a calm run each inserted key is accounted for, each `get` is a hit or a miss and no deadline
outlives its key; a further step keeps all this if and only if it is calm. -/
theorem conserved_of_reaches (hr : (calmSystem buckets memoryLimit maxValueSize).Reaches h w) :
    Conserved h w ∧ ∀ e w', Step w e w' → (Conserved (e :: h) w' ↔ Calm w e) := by
  suffices hw : Conserved h w from ⟨hw, fun _ _ hs => hw.step hs⟩
  refine hr.invariant (P := Conserved) (fun w hw => ?_) fun _ _ _ _ _ hw hs =>
    (hw.step hs.1).mpr hs.2
  have hstorage := hw.1
  refine ⟨?_, ?_, ?_⟩ <;> simp [hstorage, Storage.init, Storage.metrics, inserts, dels, gets]

theorem calm_sweep : Conserved ((ticksPerSecond, .expire [107]) :: sweptHistory)
    { swept with storage := swept.storage.expireKey [107], pending := [] } := by
  have hstart : (calmSystem 1 1024 1024).Reaches [] ⟨Storage.init 1 1024 1024, [], 0⟩ :=
    .start ⟨rfl, rfl⟩
  have hset := hstart.next ⟨Step.set _ 1 [107] ⟨[1], 15, by decide⟩ 1, nofun⟩
  have htick := hset.next ⟨Step.tick _ ticksPerSecond, nofun⟩
  have hcollect := htick.next ⟨Step.collect _ [[107]] rfl (by decide), nofun⟩
  have hnone : ((swept.storage.ttl.expiries.lookup [107]).isNone) = true := by decide
  have hexpire := hcollect.next ⟨Step.expire _ [107] [] rfl, fun k heq => by
    cases heq
    exact Option.isNone_iff_eq_none.mp hnone⟩
  exact (conserved_of_reaches hexpire).1

/-- A `set` with a ttl between the collection of its key and `expire_key` leaves a deadline without
a key, and the `get` that meets it later counts an expired key that no `set` inserted. -/
theorem orphan_deadline : ¬ ∀ (buckets memoryLimit maxValueSize : Nat) (h : History) (w : World),
    (system buckets memoryLimit maxValueSize).Reaches h w → Conserved h w := by
  intro hall
  have hset := swept_reaches.next (Step.set _ 1 [107] ⟨[2], 15, by decide⟩ 1)
  have hexpire := hset.next (Step.expire _ [107] [] rfl)
  have hdue := hexpire.next (Step.tick _ ticksPerSecond)
  have hget := hdue.next (Step.get _ [107])
  exact absurd (hall _ _ _ _ _ hget).keys (by decide)

end World

end PolyCache
