import PolyCache.Storage.Sweep

/-!
# Admission and eviction

`can_store` compares a value with the memory limit without the bucket array, and the eviction that
ends `set` counts it. This module says which values that `can_store` admits are still there after
the `set` that stored them.
-/

namespace PolyCache

open AssocMap

namespace Storage

variable {s : Storage} {r : Recency Bytes} {key : Bytes}

theorem Books.lookup_isSome (h : s.Books r) :
    (s.data.lookup key).isSome ↔ key ∈ r.entries.map Prod.fst := by
  rw [AList.lookup_isSome, AList.mem_keys, h.keys_perm.mem_iff]

/-- The loop evicts the most recently used key if and only if the limit has no room for it by
itself. -/
theorem evictLoop_front {size : Nat} {rest : List (Bytes × Nat)} {rounds : Nat}
    (h : s.Books r) (hrounds : s.data.keys.length ≤ rounds)
    (hfront : r.entries = (key, size) :: rest) :
    key ∈ (evictLoop rounds s).victims ↔
      s.memoryLimit < key.length + size + s.bucketBytes := by
  obtain ⟨r', hbooks, hpre, hvictims, -, hend, hlong⟩ := evictLoop_books h hrounds
  obtain ⟨policy, valueBytes, data, ttl, evictions, hframe⟩ := evictLoop_frame rounds s
  have hbuckets : (evictLoop rounds s).storage.bucketBytes = s.bucketBytes := by rw [hframe]; rfl
  have hlimit : (evictLoop rounds s).storage.memoryLimit = s.memoryLimit := by rw [hframe]
  have hnodup := r.nodup
  rw [hvictims] at hnodup
  rw [hfront] at hpre hvictims hlong
  cases hr : r'.entries with
  | nil =>
    rw [hr, List.map_nil, List.nil_append, List.map_cons] at hvictims
    refine iff_of_true ?_ ?_
    · rw [← List.mem_reverse, ← hvictims]
      exact List.mem_cons_self
    · have hone : [(key, size)] <+: (key, size) :: rest := by simp
      simpa using hlong _ hone (by simp [hr])
  | cons b rest' =>
    rw [hr] at hpre hvictims
    obtain ⟨rfl, -⟩ := List.cons_prefix_cons.mp hpre
    refine iff_of_false (fun hmem => ?_) fun hover => hend ⟨fun hnil => ?_, ?_⟩
    · rw [hr, List.map_cons, List.cons_append, List.nodup_cons] at hnodup
      exact hnodup.1 (List.mem_append_right _ (List.mem_reverse.mpr hmem))
    · have hperm := hbooks.keys_perm
      rw [hnil, hr] at hperm
      cases hperm.nil_eq
    · rw [hbooks.usedMemory_entries, hr, hbuckets, hlimit, List.map_cons, List.sum_cons]
      dsimp only
      omega

/-! ## set, then get -/

/-- The bytes of the bucket array that `set` leaves. -/
def bucketBytesAfter (s : Storage) (buckets : Nat) (key : Bytes) : Nat :=
  if (s.data.lookup key).isSome then s.bucketBytes else max s.bucketCount buckets * 8

theorem bucketBytes_store (s : Storage) (now buckets : Nat) (key : Bytes) (value : Str)
    (ttl : Int) :
    (s.store now buckets key value ttl).bucketBytes = s.bucketBytesAfter buckets key := by
  cases hm : s.data.lookup key <;>
    simp [store, place, hm, countNew, emplace, overwrite, bucketBytes, bucketBytesAfter]

theorem memoryLimit_store (s : Storage) (now buckets : Nat) (key : Bytes) (value : Str)
    (ttl : Int) :
    (s.store now buckets key value ttl).memoryLimit = s.memoryLimit := by
  cases hm : s.data.lookup key <;> simp [store, place, hm, countNew, emplace, overwrite]

/-- What a `set` stores is evicted by itself if and only if it does not fit beside the buckets. -/
theorem mem_setVictims_iff (now buckets : Nat) {value : Str} (ttl : Int) (h : s.Books r)
    (hstore : s.canStore key value = true) :
    key ∈ s.setVictims now buckets key value ttl ↔
      s.memoryLimit < key.length + accounted value + s.bucketBytesAfter buckets key := by
  have hbooks := h.store now buckets key value ttl
  have hbuckets := s.bucketBytes_store now buckets key value ttl
  have hlimit := s.memoryLimit_store now buckets key value ttl
  rw [setVictims, if_pos hstore, evictIfOverLimit, ← hbuckets, ← hlimit]
  exact evictLoop_front hbooks le_rfl (Recency.add_entries key (accounted value) r)

/-- A key that is not evicted and whose deadline has not passed is read as it was set. -/
theorem get_set {now buckets later : Nat} {value : Str} {ttl : Int}
    (hstore : s.canStore key value = true)
    (hlive : ttl ≤ 0 ∨ later < TTLManager.deadline now ttl) :
    ((s.set now buckets key value ttl).2.get later key).1 =
      if key ∈ s.setVictims now buckets key value ttl then none else some value.bytes := by
  have hdata := lookup_set now buckets ttl hstore key
  have hdeadline := deadline_set now buckets ttl hstore key
  have hfresh : ((s.set now buckets key value ttl).2.ttl.isExpired later key).1 = false := by
    rw [Bool.eq_false_iff]
    intro hexpired
    obtain ⟨d, hd, hle⟩ := TTLManager.isExpired_iff.mp hexpired
    rw [hdeadline, if_pos rfl] at hd
    split_ifs at hd with hvictim hpos
    obtain rfl := Option.some.inj hd
    omega
  rw [if_pos rfl] at hdata
  split_ifs at hdata ⊢ with hvictim
  · rw [get_of_absent hfresh hdata]
  · rw [get_of_present hfresh hdata]

end Storage

namespace World

variable {buckets' memoryLimit maxValueSize : Nat} {h : History} {w : World}

/-- A value that `set` has acknowledged is read next, before its deadline, if and only if the key,
the value's charge and the bucket array fit together under the limit. -/
theorem get_set_iff (hr : (system buckets' memoryLimit maxValueSize).Reaches h w)
    {buckets later : Nat} {key : Bytes} {value : Str} {ttl : Int}
    (hstored : (w.storage.set w.now buckets key value ttl).1 = true)
    (hlive : ttl ≤ 0 ∨ later < TTLManager.deadline w.now ttl) :
    ((w.storage.set w.now buckets key value ttl).2.get later key).1 = some value.bytes ↔
      key.length + Storage.accounted value + w.storage.bucketBytesAfter buckets key ≤
        w.storage.memoryLimit := by
  obtain ⟨⟨r, hbooks⟩, -⟩ := sound_of_reaches hr
  rw [Storage.set_fst] at hstored
  have hvictims := Storage.mem_setVictims_iff w.now buckets ttl hbooks hstored
  rw [Storage.get_set hstored hlive, ← Nat.not_lt, ← hvictims]
  split_ifs with hvictim <;> simp [hvictim]

theorem get_set_iff_due :
    ((due.storage.set due.now 13 [97] ⟨[1], 15, by decide⟩ 0).2.get due.now [97]).1 = some [1] ↔
      1 + 143 + due.storage.bucketBytesAfter 13 [97] ≤ due.storage.memoryLimit :=
  get_set_iff due_reaches (by decide) (by decide)

/-- A value that takes the whole limit is admitted, and the same `set` evicts it. -/
theorem set_then_miss : ¬ ∀ (buckets' memoryLimit maxValueSize : Nat) (h : History) (w : World)
    (buckets later : Nat) (key : Bytes) (value : Str) (ttl : Int),
    (system buckets' memoryLimit maxValueSize).Reaches h w →
    1 ≤ w.storage.bucketCount → w.storage.data.keys.length + 1 ≤ buckets →
    (w.storage.set w.now buckets key value ttl).1 = true →
    (ttl ≤ 0 ∨ later < TTLManager.deadline w.now ttl) →
    ((w.storage.set w.now buckets key value ttl).2.get later key).1 = some value.bytes := by
  intro hall
  have hget := hall 1 144 1 [] _ 13 0 [107] ⟨[1], 15, by decide⟩ 0 (reaches_init 0) (by decide)
    (by decide) (by decide) (by decide)
  exact absurd hget (by decide)

end World

end PolyCache
