import Mathlib.Logic.Function.Basic
import PolyCache.Storage.Effects

/-!
# What a store is for

A store without limits is a map from keys to values, each with its ttl. `Holds s c` says that the
store `s` represents the map `c`: it has its keys, with their values, and a deadline for those with
a ttl. An operation that evicts and expires nothing does to the store what it should do to the map.
-/

namespace PolyCache

open AssocMap

/-- The value and the ttl of each key. -/
abbrev Contents := Bytes → Option (Bytes × Int)

namespace Contents

def put (c : Contents) (key value : Bytes) (ttl : Int) : Contents :=
  Function.update c key (some (value, ttl))

def remove (c : Contents) (key : Bytes) : Contents := Function.update c key none

theorem put_apply (c : Contents) (key value : Bytes) (ttl : Int) (k : Bytes) :
    c.put key value ttl k = if k = key then some (value, ttl) else c k :=
  Function.update_apply _ _ _ _

theorem remove_apply (c : Contents) (key k : Bytes) :
    c.remove key k = if k = key then none else c k :=
  Function.update_apply _ _ _ _

end Contents

namespace Storage

structure Holds (s : Storage) (c : Contents) : Prop where
  value : ∀ k, (s.data.lookup k).map KeyMeta.value = (c k).map Prod.fst
  armed : ∀ k, (s.ttl.expiries.lookup k).isSome ↔ ∃ e, c k = some e ∧ 0 < e.2

/-! ## Counters -/

variable {s : Storage} {now : Nat} {key : Bytes}

theorem evictions_set (s : Storage) (now buckets : Nat) (key : Bytes) (value : Str) (ttl : Int) :
    (s.set now buckets key value ttl).2.evictions =
      s.evictions + (s.setVictims now buckets key value ttl).length := by
  have hstore : (s.store now buckets key value ttl).evictions = s.evictions := by
    cases hm : s.data.lookup key <;> simp [store, place, hm, countNew, emplace, overwrite]
  unfold set setVictims
  split_ifs
  · rw [evictIfOverLimit, (evictLoop_victims _ _).2.2, hstore]
  · rfl

theorem expiredKeys_set (s : Storage) (now buckets : Nat) (key : Bytes) (value : Str) (ttl : Int) :
    (s.set now buckets key value ttl).2.expiredKeys = s.expiredKeys := by
  have hstore : (s.store now buckets key value ttl).expiredKeys = s.expiredKeys := by
    cases hm : s.data.lookup key <;> simp [store, place, hm, countNew, emplace, overwrite]
  unfold set
  split_ifs
  · obtain ⟨_, _, _, _, _, hframe⟩ := evictLoop_frame
      (s.store now buckets key value ttl).data.keys.length (s.store now buckets key value ttl)
    simp only [evictIfOverLimit, hframe, hstore]
  · rfl

/-- `get` counts an expired key and evicts nothing. -/
theorem counters_get (s : Storage) (now : Nat) (key : Bytes) :
    (s.get now key).2.evictions = s.evictions ∧ (s.get now key).2.expiredKeys =
      s.expiredKeys + if (s.ttl.isExpired now key).1 then 1 else 0 := by
  cases he : (s.ttl.isExpired now key).1 with
  | true =>
    rw [get_of_expired he]
    cases hm : s.data.lookup key <;> simp [forget, hm, removeEntry]
  | false =>
    cases hm : s.data.lookup key with
    | none => simp [get_of_absent he hm]
    | some m => simp [get_of_present he hm]

theorem counters_del (s : Storage) (key : Bytes) :
    (s.del key).2.evictions = s.evictions ∧ (s.del key).2.expiredKeys = s.expiredKeys := by
  cases hm : s.data.lookup key with
  | none => simp [del_of_absent hm]
  | some m => simp [del_of_present hm, removeEntry]

theorem counters_le_set (s : Storage) (now buckets : Nat) (key : Bytes) (value : Str) (ttl : Int) :
    s.evictions ≤ (s.set now buckets key value ttl).2.evictions ∧
      s.expiredKeys ≤ (s.set now buckets key value ttl).2.expiredKeys := by
  rw [evictions_set, expiredKeys_set]
  exact ⟨Nat.le_add_right _ _, le_rfl⟩

theorem counters_le_get (s : Storage) (now : Nat) (key : Bytes) :
    s.evictions ≤ (s.get now key).2.evictions ∧
      s.expiredKeys ≤ (s.get now key).2.expiredKeys := by
  obtain ⟨hevictions, hexpired⟩ := counters_get s now key
  rw [hevictions, hexpired]
  exact ⟨le_rfl, Nat.le_add_right _ _⟩

theorem counters_le_del (s : Storage) (key : Bytes) :
    s.evictions ≤ (s.del key).2.evictions ∧ s.expiredKeys ≤ (s.del key).2.expiredKeys := by
  obtain ⟨hevictions, hexpired⟩ := counters_del s key
  exact ⟨hevictions.ge, hexpired.ge⟩

/-! ## Operations that lose nothing -/

namespace Holds

variable {c : Contents}

theorem init (buckets memoryLimit maxValueSize : Nat) :
    Holds (Storage.init buckets memoryLimit maxValueSize) fun _ => none where
  value k := rfl
  armed k := by simp [Storage.init, AList.lookup_empty]

theorem of_eq (h : Holds s c) {t : Storage} (hdata : t.data = s.data) (httl : t.ttl = s.ttl) :
    Holds t c where
  value k := by rw [hdata, h.value]
  armed k := by rw [httl, h.armed]

theorem set (h : Holds s c) {buckets : Nat} {value : Str} {ttl : Int}
    (hstore : s.canStore key value = true)
    (hvictims : s.setVictims now buckets key value ttl = []) :
    Holds (s.set now buckets key value ttl).2 (c.put key value.bytes ttl) where
  value k := by
    rw [lookup_set now buckets ttl hstore, hvictims, Contents.put_apply]
    by_cases hk : k = key
    · simp [hk]
    · simp [hk, h.value]
  armed k := by
    rw [deadline_set now buckets ttl hstore, hvictims, Contents.put_apply]
    by_cases hk : k = key
    · by_cases hpos : 0 < ttl <;> simp [hk, hpos]
    · simp [hk, h.armed]

theorem get (h : Holds s c) (hfresh : (s.ttl.isExpired now key).1 = false) :
    Holds (s.get now key).2 c := by
  cases hm : s.data.lookup key with
  | none =>
    rw [get_of_absent hfresh hm]
    exact h.of_eq rfl rfl
  | some m =>
    rw [get_of_present hfresh hm]
    exact h.of_eq rfl rfl

theorem remove_of_absent (h : Holds s c) (hm : s.data.lookup key = none) : c.remove key = c := by
  have hkey : c key = none := by
    have hvalue := h.value key
    rw [hm] at hvalue
    exact Option.map_eq_none_iff.mp hvalue.symm
  rw [Contents.remove, ← hkey, Function.update_eq_self]

theorem del (h : Holds s c) : Holds (s.del key).2 (c.remove key) := by
  cases hm : s.data.lookup key with
  | none =>
    rw [del_of_absent hm, h.remove_of_absent hm]
    exact h
  | some m =>
    rw [del_of_present hm]
    constructor
    · intro k
      rw [lookup_removeEntry, Contents.remove_apply]
      by_cases hk : k = key
      · simp [hk]
      · simp [hk, h.value]
    · intro k
      rw [TTLManager.lookup_erase, Contents.remove_apply]
      by_cases hk : k = key
      · simp [hk]
      · simp [hk, h.armed]

/-- A sweep pass that finds nothing. -/
theorem collectExpired (h : Holds s c) (hnone : (s.collectExpired now).1 = []) :
    Holds (s.collectExpired now).2 c where
  value := h.value
  armed k := by
    rw [← h.armed]
    have hk : k ∉ (s.collectExpired now).1 := by simp [hnone]
    have hlookup : (s.collectExpired now).2.ttl.expiries.lookup k =
        (s.ttl.expiries.lookup k).filter fun d => ¬ d ≤ now := TTLManager.lookup_expiredKeys
    have hlate : ¬ ∃ d, s.ttl.expiries.lookup k = some d ∧ d ≤ now :=
      fun h => hk (TTLManager.mem_expiredKeys.mpr h)
    rw [hlookup]
    cases hd : s.ttl.expiries.lookup k with
    | none => simp
    | some d =>
      have hlt : now < d := by
        by_contra hle
        exact hlate ⟨d, hd, Nat.not_lt.mp hle⟩
      simp [Option.filter, hlt]

end Holds

end Storage

end PolyCache
