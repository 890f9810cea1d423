import PolyCache.Storage.Effects

/-!
# The books of the store

`data_`, the policy and the counters are three records of the same keys, updated by hand on every
path. `Books s r` says that they agree, the policy holding the recency list `r`. Each operation
keeps it and moves `r` as its name says; the eviction loop takes keys off the end of `r`.
-/

namespace PolyCache

open AssocMap

namespace Storage

def tracked (s : Storage) : List (Bytes × Nat) :=
  (bindings s.data).map fun b => (b.1, b.2.size)

/-- The bytes of the stored values. -/
def payload (s : Storage) : Nat := weigh (fun _ m => m.value.length) s.data

structure Books (s : Storage) (r : Recency Bytes) : Prop where
  policy : s.policy.Models r
  tracked : s.tracked.Perm r.entries
  values : s.valueBytes = .exact s.payload

theorem books_init (buckets memoryLimit maxValueSize : Nat) :
    (init buckets memoryLimit maxValueSize).Books Recency.empty where
  policy := LRU.models_empty
  tracked := List.Perm.refl _
  values := rfl

namespace Books

variable {s : Storage} {r : Recency Bytes} {key : Bytes}

theorem keys_perm (h : s.Books r) : s.data.keys.Perm (r.entries.map Prod.fst) := by
  have hp := h.tracked.map Prod.fst
  rwa [Storage.tracked, List.map_map, show (Prod.fst ∘ fun b : Bytes × KeyMeta => (b.1, b.2.size))
    = Prod.fst from rfl, bindings_keys] at hp

theorem removeEntry (h : s.Books r) {m : KeyMeta} (hm : s.data.lookup key = some m) :
    (s.removeEntry key m).Books (r.remove key) where
  policy := h.policy.remove key
  tracked := by
    have hp := h.tracked.filter fun b => decide (b.1 ≠ key)
    rw [Storage.tracked, List.filter_map] at hp
    rw [Storage.tracked, Storage.removeEntry, bindings_erase]
    exact hp
  values := by
    simp only [Storage.removeEntry, h.values, payload, weigh_of_lookup hm]
    rw [Counter.exact_sub (Nat.le_add_right _ _), Nat.add_sub_cancel_left]

theorem touch (h : s.Books r) (key : Bytes) :
    Books { s with policy := s.policy.touch key } (r.touch key) where
  policy := h.policy.touch key
  tracked := h.tracked.trans (r.touch_perm key).symm
  values := h.values

theorem place (h : s.Books r) (buckets : Nat) (key : Bytes) (value : Str) :
    (s.place buckets key value).Books (r.add key (accounted value)) := by
  have htracked : ((bindings (s.data.insert key ⟨value.bytes, accounted value⟩)).map
      fun b => (b.1, b.2.size)).Perm (r.add key (accounted value)).entries := by
    have hp := h.tracked.filter fun b => decide (b.1 ≠ key)
    rw [Storage.tracked, List.filter_map] at hp
    rw [bindings_insert, Recency.add_entries]
    exact hp.cons _
  cases hm : s.data.lookup key with
  | none =>
    refine ⟨?_, ?_, ?_⟩
    · simpa [Storage.place, hm, countNew, emplace] using h.policy.add key (accounted value)
    · simpa [Storage.place, hm, countNew, emplace, Storage.tracked] using htracked
    · simp [Storage.place, hm, countNew, emplace, h.values, payload, weigh_insert,
        erase_of_lookup_none hm, Str.size, Nat.add_comm]
  | some old =>
    refine ⟨?_, ?_, ?_⟩
    · simpa [Storage.place, hm, overwrite] using h.policy.add key (accounted value)
    · simpa [Storage.place, hm, overwrite, Storage.tracked] using htracked
    · simp only [Storage.place, hm, overwrite, h.values, payload, weigh_of_lookup hm, weigh_insert]
      rw [Counter.exact_sub (Nat.le_add_right _ _), Nat.add_sub_cancel_left, Counter.exact_add,
        Nat.add_comm]

theorem store (h : s.Books r) (now buckets : Nat) (key : Bytes) (value : Str) (ttl : Int) :
    (s.store now buckets key value ttl).Books (r.add key (accounted value)) :=
  let hp := h.place buckets key value
  ⟨hp.policy, hp.tracked, hp.values⟩

/-- The policy names a key of `data_` whenever there is one. -/
theorem evict (h : s.Books r) (hne : s.data.keys ≠ []) :
    ∃ victim m, r.entries.getLast? = some (victim, m.size) ∧ s.policy.evict.1 = victim ∧
      s.data.lookup victim = some m ∧ s.policy.evict.2.Models (r.remove victim) := by
  have hr : r.entries ≠ [] := by
    rintro hnil
    have hperm := h.keys_perm
    rw [hnil] at hperm
    exact hne (List.perm_nil.mp hperm)
  obtain ⟨⟨victim, n⟩, hlast⟩ := Option.ne_none_iff_exists'.mp (mt List.getLast?_eq_none_iff.mp hr)
  obtain ⟨hvictim, hmodels⟩ := h.policy.evict hlast
  obtain ⟨⟨k, m⟩, hkm, heq⟩ :=
    List.mem_map.mp (h.tracked.mem_iff.mpr (List.mem_of_getLast? hlast))
  obtain ⟨rfl, rfl⟩ := Prod.mk.inj heq
  exact ⟨k, m, hlast, hvictim, mem_bindings.mp hkm, hmodels⟩

end Books

/-! ## The eviction loop -/

theorem Books.evictEntry {s : Storage} {r : Recency Bytes} (h : s.Books r) {m : KeyMeta}
    (hm : s.data.lookup s.policy.evict.1 = some m)
    (hp : s.policy.evict.2.Models (r.remove s.policy.evict.1)) :
    (s.evictEntry s.policy.evict.1 m).Books (r.remove s.policy.evict.1) :=
  let hr := h.removeEntry hm
  ⟨hp, hr.tracked, hr.values⟩

theorem Books.usedMemory_entries {s : Storage} {r : Recency Bytes} (h : s.Books r) :
    s.usedMemory = (r.entries.map fun b => b.1.length + b.2).sum + s.bucketBytes := by
  rw [usedMemory, h.policy.memory, Counter.exact_val, h.policy.weight_eq]

/-- With enough rounds the loop only stops when its guard fails, never for want of the victim. It
has taken its victims off the end of the recency list, and any longer part of the list would have
been over the limit. -/
theorem evictLoop_books {rounds : Nat} {s : Storage} {r : Recency Bytes} (h : s.Books r)
    (hrounds : s.data.keys.length ≤ rounds) :
    ∃ r', (evictLoop rounds s).storage.Books r' ∧
      r'.entries <+: r.entries ∧
      r.entries.map Prod.fst = r'.entries.map Prod.fst ++ (evictLoop rounds s).victims.reverse ∧
      (evictLoop rounds s).missing = false ∧ ¬ (evictLoop rounds s).storage.Over ∧
      ∀ pre, pre <+: r.entries → r'.entries.length < pre.length →
        s.memoryLimit < (pre.map fun b => b.1.length + b.2).sum + s.bucketBytes := by
  induction rounds generalizing s r with
  | zero =>
    have hnil : s.data.keys = [] := List.length_eq_zero_iff.mp (Nat.le_zero.mp hrounds)
    refine ⟨r, h, List.prefix_refl _, by simp [evictLoop], rfl, fun hover => hover.1 hnil, ?_⟩
    exact fun pre hpre hlt => absurd hpre.length_le (Nat.not_le.mpr hlt)
  | succ rounds ih =>
    by_cases hover : s.Over
    · obtain ⟨victim, m, hlast, rfl, hm, hp⟩ := h.evict hover.1
      have hround := h.evictEntry hm hp
      have hkeys : (s.evictEntry s.policy.evict.1 m).data.keys.length ≤ rounds := by
        have hlen := length_keys_erase hm
        rw [evictEntry_data]
        omega
      obtain ⟨r', hbooks, hpre, hvictims, hmissing, hend, hlong⟩ := ih hround hkeys
      have hdrop := Recency.remove_last hlast
      obtain ⟨init, hinit⟩ := List.getLast?_eq_some_iff.mp hlast
      rw [hdrop] at hpre hvictims hlong
      refine ⟨r', ?_, hpre.trans (List.dropLast_prefix _), ?_, ?_, ?_, fun pre hpre' hlt => ?_⟩
      · simpa [evictLoop, hover, hm] using hbooks
      · rw [hinit, List.dropLast_concat] at hvictims
        simp [evictLoop, hover, hm, hinit, hvictims]
      · simpa [evictLoop, hover, hm] using hmissing
      · simpa [evictLoop, hover, hm] using hend
      · rw [hinit, List.prefix_concat_iff] at hpre'
        obtain rfl | hpre' := hpre'
        · -- the whole list was over the limit in this round
          rw [← hinit, ← h.usedMemory_entries]
          exact hover.2
        · exact hlong pre (by rwa [hinit, List.dropLast_concat]) hlt
    · refine ⟨r, by simpa [evictLoop, hover] using h, by simp, by simp [evictLoop, hover],
        by simp [evictLoop, hover], by simp [evictLoop, hover], ?_⟩
      exact fun pre hpre hlt => absurd hpre.length_le (Nat.not_le.mpr hlt)

/-! ## What every operation keeps -/

/-- The books agree and the limit holds. -/
def Sound (s : Storage) : Prop := (∃ r, s.Books r) ∧ ¬ s.Over

theorem Books.usedMemory_eq {s : Storage} {r : Recency Bytes} (h : s.Books r) :
    s.usedMemory = weigh (fun key m => key.length + m.size) s.data + s.bucketBytes := by
  have hsum := (h.tracked.map fun b => b.1.length + b.2).sum_eq
  rw [Storage.tracked, List.map_map, ← h.policy.weight_eq] at hsum
  rw [usedMemory, h.policy.memory, Counter.exact_val, ← hsum]
  rfl

namespace Sound

variable {s : Storage}

theorem init (buckets memoryLimit maxValueSize : Nat) :
    (init buckets memoryLimit maxValueSize).Sound :=
  ⟨⟨_, books_init _ _ _⟩, fun hover => hover.1 rfl⟩

theorem evict {r : Recency Bytes} (h : s.Books r) :
    s.evictIfOverLimit.storage.Sound ∧ s.evictIfOverLimit.missing = false := by
  obtain ⟨r', hbooks, -, -, hmissing, hend, -⟩ := evictLoop_books h (Nat.le_refl _)
  exact ⟨⟨⟨r', hbooks⟩, hend⟩, hmissing⟩

theorem set (h : s.Sound) (now buckets : Nat) (key : Bytes) (value : Str) (ttl : Int) :
    (s.set now buckets key value ttl).2.Sound := by
  obtain ⟨r, hbooks⟩ := h.1
  rw [Storage.set]
  split_ifs
  · exact (evict (hbooks.store now buckets key value ttl)).1
  · exact h

/-- Taking a key out only lowers what is used. -/
theorem removeEntry (h : s.Sound) {key : Bytes} {m : KeyMeta}
    (hm : s.data.lookup key = some m) : (s.removeEntry key m).Sound := by
  obtain ⟨⟨r, hbooks⟩, hlimit⟩ := h
  have hafter := hbooks.removeEntry hm
  refine ⟨⟨_, hafter⟩, fun hover => hlimit ⟨fun hnil => ?_, ?_⟩⟩
  · have hlen := length_keys_erase hm
    simp [hnil] at hlen
  · refine hover.2.trans_le ?_
    rw [hafter.usedMemory_eq, hbooks.usedMemory_eq, weigh_of_lookup hm]
    exact Nat.add_le_add_right (Nat.le_add_left _ _) _

theorem forget (h : s.Sound) (key : Bytes) : (s.forget key).Sound := by
  cases hm : s.data.lookup key with
  | none => simpa [Storage.forget, hm] using h
  | some m => simpa [Storage.forget, hm] using h.removeEntry hm

theorem of_eq (h : s.Sound) {t : Storage} (policy : t.policy = s.policy) (data : t.data = s.data)
    (values : t.valueBytes = s.valueBytes) (buckets : t.bucketCount = s.bucketCount)
    (limit : t.memoryLimit = s.memoryLimit) : t.Sound := by
  cases s; cases t
  obtain ⟨⟨r, hbooks⟩, hlimit⟩ := h
  cases policy; cases data; cases values; cases buckets; cases limit
  exact ⟨⟨r, hbooks.policy, hbooks.tracked, hbooks.values⟩, hlimit⟩

theorem get (h : s.Sound) (now : Nat) (key : Bytes) : (s.get now key).2.Sound := by
  cases he : (s.ttl.isExpired now key).1 with
  | true =>
    rw [get_of_expired he]
    exact (h.forget key).of_eq rfl rfl rfl rfl rfl
  | false =>
    cases hm : s.data.lookup key with
    | none =>
      rw [get_of_absent he hm]
      exact h.of_eq rfl rfl rfl rfl rfl
    | some m =>
      rw [get_of_present he hm]
      obtain ⟨⟨r, hbooks⟩, hlimit⟩ := h
      have htouch := hbooks.touch key
      have hused : ∀ hits, usedMemory { s with policy := s.policy.touch key, hits := hits } =
          s.usedMemory := fun _ => htouch.usedMemory_eq.trans hbooks.usedMemory_eq.symm
      refine ⟨⟨_, htouch.policy, htouch.tracked, htouch.values⟩, fun hover => hlimit ⟨hover.1, ?_⟩⟩
      exact hused _ ▸ hover.2

theorem del (h : s.Sound) (key : Bytes) : (s.del key).2.Sound := by
  cases hm : s.data.lookup key with
  | none => rwa [del_of_absent hm]
  | some m =>
    rw [del_of_present hm]
    exact (h.removeEntry hm).of_eq rfl rfl rfl rfl rfl

theorem collectExpired (h : s.Sound) (now : Nat) : (s.collectExpired now).2.Sound :=
  h.of_eq rfl rfl rfl rfl rfl

theorem expireKey (h : s.Sound) (key : Bytes) : (s.expireKey key).Sound := by
  cases hm : s.data.lookup key with
  | none => rwa [expireKey_of_absent hm]
  | some m =>
    rw [expireKey_of_present hm]
    exact (h.removeEntry hm).of_eq rfl rfl rfl rfl rfl

end Sound

/-! ## The accounting invariant -/

/-- The accounting of the store, field by field. A counter that is `exact n` holds `n`, and no
subtraction on it has ever wrapped. -/
structure Accounting (s : Storage) : Prop where
  /-- the policy tracks the keys of `data_`, with the sizes `data_` records -/
  tracked : (s.policy.list.map LRU.Node.entry).Perm s.tracked
  /-- each of them once -/
  once : (s.policy.list.map LRU.Node.key).Nodup
  indexed : ∀ key, (s.policy.index.lookup key).isSome ↔ (s.data.lookup key).isSome
  memory : s.policy.memoryUsed = .exact (weigh (fun key m => key.length + m.size) s.data)
  values : s.valueBytes = .exact (weigh (fun _ m => m.value.length) s.data)
  limit : s.data.keys = [] ∨ s.usedMemory ≤ s.memoryLimit
  /-- a `set` that evicts never fails to find its victim -/
  victims : ∀ now buckets key value ttl, s.canStore key value = true →
    (s.store now buckets key value ttl).evictIfOverLimit.missing = false

theorem Sound.accounting {s : Storage} (h : s.Sound) : s.Accounting := by
  obtain ⟨⟨r, hbooks⟩, hlimit⟩ := h
  have hsum := (hbooks.tracked.map fun b => b.1.length + b.2).sum_eq
  rw [Storage.tracked, List.map_map, ← hbooks.policy.weight_eq] at hsum
  constructor
  · rw [hbooks.policy.entries]
    exact hbooks.tracked.symm
  · rw [hbooks.policy.keys]
    exact r.nodup
  · intro key
    rw [AList.lookup_isSome (s := s.data), AList.mem_keys, hbooks.keys_perm.mem_iff,
      ← not_iff_not, ← hbooks.policy.lookup_eq_none, Option.not_isSome_iff_eq_none]
  · rw [hbooks.policy.memory, ← hsum]
    rfl
  · exact hbooks.values
  · by_cases hnil : s.data.keys = []
    · exact Or.inl hnil
    · exact Or.inr (Nat.le_of_not_lt fun hover => hlimit ⟨hnil, hover⟩)
  · intro now buckets key value ttl _
    exact (Sound.evict (hbooks.store now buckets key value ttl)).2

end Storage

end PolyCache
