import PolyCache.Storage.Model

/-!
# What each operation does to a key

For every method of the store, what it leaves in `data_` and in the deadline table under an
arbitrary key, and which fields it leaves alone.
-/

namespace PolyCache

open AssocMap

namespace Storage

/-! ## Eviction -/

theorem evictEntry_data (s : Storage) (victim : Bytes) (m : KeyMeta) :
    (s.evictEntry victim m).data = s.data.erase victim := rfl

theorem evictEntry_ttl (s : Storage) (victim : Bytes) (m : KeyMeta) :
    (s.evictEntry victim m).ttl = s.ttl.erase victim := rfl

theorem evictEntry_evictions (s : Storage) (victim : Bytes) (m : KeyMeta) :
    (s.evictEntry victim m).evictions = s.evictions + 1 := rfl

/-- The loop touches the policy, the values, the deadlines and their counters, and nothing else. -/
theorem evictLoop_frame (rounds : Nat) (s : Storage) :
    ∃ policy valueBytes data ttl evictions, (evictLoop rounds s).storage =
      { s with
        policy := policy
        valueBytes := valueBytes
        data := data
        ttl := ttl
        evictions := evictions } := by
  induction rounds generalizing s with
  | zero => exact ⟨_, _, _, _, _, rfl⟩
  | succ rounds ih =>
    rw [evictLoop]
    split_ifs
    · cases hm : s.data.lookup s.policy.evict.1 with
      | none => exact ⟨_, _, _, _, _, rfl⟩
      | some m =>
        obtain ⟨policy, valueBytes, data, ttl, evictions, heq⟩ :=
          ih (s.evictEntry s.policy.evict.1 m)
        exact ⟨policy, valueBytes, data, ttl, evictions, heq⟩
    · exact ⟨_, _, _, _, _, rfl⟩

/-- The loop takes away its victims and their deadlines, counts them, and leaves all other keys. -/
theorem evictLoop_victims (rounds : Nat) (s : Storage) :
    (∀ k, (evictLoop rounds s).storage.data.lookup k =
      if k ∈ (evictLoop rounds s).victims then none else s.data.lookup k) ∧
    (∀ k, (evictLoop rounds s).storage.ttl.expiries.lookup k =
      if k ∈ (evictLoop rounds s).victims then none else s.ttl.expiries.lookup k) ∧
    (evictLoop rounds s).storage.evictions =
      s.evictions + (evictLoop rounds s).victims.length := by
  induction rounds generalizing s with
  | zero => simp [evictLoop]
  | succ rounds ih =>
    rw [evictLoop]
    split_ifs
    · cases hm : s.data.lookup s.policy.evict.1 with
      | none => simp
      | some m =>
        obtain ⟨hdata, httl, hcount⟩ := ih (s.evictEntry s.policy.evict.1 m)
        refine ⟨fun k => ?_, fun k => ?_, ?_⟩
        · rw [hdata k, evictEntry_data, lookup_erase_eq_ite]
          by_cases hk : k = s.policy.evict.1 <;> simp [hk]
        · rw [httl k, evictEntry_ttl, TTLManager.lookup_erase]
          by_cases hk : k = s.policy.evict.1 <;> simp [hk]
        · rw [hcount, evictEntry_evictions, List.length_cons]
          omega
    · simp

/-! ## set -/

section Set

variable (s : Storage) (now buckets : Nat) (key : Bytes) (value : Str) (ttl : Int)

theorem place_data :
    (s.place buckets key value).data = s.data.insert key ⟨value.bytes, accounted value⟩ := by
  cases hm : s.data.lookup key <;> simp [place, hm, countNew, emplace, overwrite]

theorem place_ttl : (s.place buckets key value).ttl = s.ttl := by
  cases hm : s.data.lookup key <;> simp [place, hm, countNew, emplace, overwrite]

theorem lookup_store (k : Bytes) : (s.store now buckets key value ttl).data.lookup k =
    if k = key then some ⟨value.bytes, accounted value⟩ else s.data.lookup k := by
  have hdata : (s.store now buckets key value ttl).data = (s.place buckets key value).data := rfl
  rw [hdata, place_data, lookup_insert_eq_ite]

theorem deadline_store (k : Bytes) : (s.store now buckets key value ttl).ttl.expiries.lookup k =
    if k = key then (if 0 < ttl then some (TTLManager.deadline now ttl) else none)
    else s.ttl.expiries.lookup k := by
  by_cases hpos : 0 < ttl
  · simp [store, place_ttl, hpos, TTLManager.lookup_setTtl]
  · simp [store, place_ttl, hpos, TTLManager.lookup_erase]

theorem set_fst : (s.set now buckets key value ttl).1 = s.canStore key value := by
  rw [set]
  split_ifs with h <;> simp [h]

variable {s key value}

theorem canStore_iff : s.canStore key value = true ↔ key.length ≤ kMaxKeySize ∧
    value.size ≤ s.maxValueSize ∧ accounted value + key.length ≤ s.memoryLimit := by
  rw [canStore]
  split_ifs with h
  · simp only [false_iff]
    omega
  · rw [decide_eq_true_iff]
    omega

theorem set_of_refused (h : s.canStore key value = false) :
    (s.set now buckets key value ttl).2 = s := by
  simp [set, h]

theorem lookup_set (h : s.canStore key value = true) (k : Bytes) :
    (s.set now buckets key value ttl).2.data.lookup k =
      if k ∈ s.setVictims now buckets key value ttl then none
      else if k = key then some ⟨value.bytes, accounted value⟩ else s.data.lookup k := by
  simp only [set, setVictims, h, if_true, evictIfOverLimit]
  rw [(evictLoop_victims _ _).1 k, lookup_store]

theorem deadline_set (h : s.canStore key value = true) (k : Bytes) :
    (s.set now buckets key value ttl).2.ttl.expiries.lookup k =
      if k ∈ s.setVictims now buckets key value ttl then none
      else if k = key then (if 0 < ttl then some (TTLManager.deadline now ttl) else none)
      else s.ttl.expiries.lookup k := by
  simp only [set, setVictims, h, if_true, evictIfOverLimit]
  rw [(evictLoop_victims _ _).2.1 k, deadline_store]

end Set

/-! ## get, del and expire_key -/

variable {s : Storage} {now : Nat} {key : Bytes}

theorem lookup_removeEntry (m : KeyMeta) (k : Bytes) :
    (s.removeEntry key m).data.lookup k = if k = key then none else s.data.lookup k :=
  lookup_erase_eq_ite _ _ _

/-- The store without the key, which it need not hold. -/
def forget (s : Storage) (key : Bytes) : Storage :=
  match s.data.lookup key with
  | none => s
  | some m => s.removeEntry key m

theorem lookup_forget (k : Bytes) :
    (s.forget key).data.lookup k = if k = key then none else s.data.lookup k := by
  cases hm : s.data.lookup key with
  | none =>
    simp only [forget, hm]
    split_ifs with hk
    · rw [hk, hm]
    · rfl
  | some m => simp only [forget, hm, lookup_removeEntry]

theorem get_of_expired (h : (s.ttl.isExpired now key).1 = true) :
    s.get now key = (none, { s.forget key with
      ttl := s.ttl.erase key, expiredKeys := s.expiredKeys + 1, misses := s.misses + 1 }) := by
  cases hm : s.data.lookup key <;>
    simp [get, forget, h, TTLManager.isExpired_true h, hm, removeEntry]

theorem get_of_absent (h : (s.ttl.isExpired now key).1 = false)
    (hm : s.data.lookup key = none) :
    s.get now key = (none, { s with misses := s.misses + 1 }) := by
  simp [get, h, TTLManager.isExpired_false h, hm]

theorem get_of_present (h : (s.ttl.isExpired now key).1 = false) {m : KeyMeta}
    (hm : s.data.lookup key = some m) :
    s.get now key =
      (some m.value, { s with policy := s.policy.touch key, hits := s.hits + 1 }) := by
  simp [get, h, TTLManager.isExpired_false h, hm]

theorem del_of_absent (hm : s.data.lookup key = none) : s.del key = (false, s) := by
  simp [del, hm]

theorem del_of_present {m : KeyMeta} (hm : s.data.lookup key = some m) :
    s.del key = (true, { s.removeEntry key m with ttl := s.ttl.erase key }) := by
  simp [del, hm]

theorem del_fst (s : Storage) (key : Bytes) :
    (s.del key).1 = (s.data.lookup key).isSome := by
  cases hm : s.data.lookup key with
  | none => rw [del_of_absent hm]; rfl
  | some m => rw [del_of_present hm]; rfl

theorem get_isSome (s : Storage) (now : Nat) (key : Bytes) : (s.get now key).1.isSome ↔
    (s.data.lookup key).isSome ∧ (s.ttl.isExpired now key).1 = false := by
  cases he : (s.ttl.isExpired now key).1 with
  | true => simp [get_of_expired he]
  | false =>
    cases hm : s.data.lookup key with
    | none => simp [get_of_absent he hm]
    | some m => simp [get_of_present he hm]

theorem expireKey_of_absent (hm : s.data.lookup key = none) : s.expireKey key = s := by
  simp [expireKey, hm]

theorem expireKey_of_present {m : KeyMeta} (hm : s.data.lookup key = some m) :
    s.expireKey key = { s.removeEntry key m with expiredKeys := s.expiredKeys + 1 } := by
  simp [expireKey, hm]

/-! ## Operations that only take keys away -/

/-- Every key of `t` is a key of `s` with the same value and deadline, and no deadline is new. -/
structure Shrinks (s t : Storage) : Prop where
  data : ∀ k m, t.data.lookup k = some m → s.data.lookup k = some m ∧
    t.ttl.expiries.lookup k = s.ttl.expiries.lookup k
  ttl : ∀ k d, t.ttl.expiries.lookup k = some d → s.ttl.expiries.lookup k = some d

namespace Shrinks

variable {t : Storage}

theorem of_eq (hdata : t.data = s.data) (httl : t.ttl = s.ttl) : Shrinks s t where
  data k m hm := ⟨hdata ▸ hm, by rw [httl]⟩
  ttl k d hd := httl ▸ hd

theorem of_erase
    (hdata : ∀ k, t.data.lookup k = if k = key then none else s.data.lookup k)
    (httl : t.ttl = s.ttl ∨ t.ttl = s.ttl.erase key) : Shrinks s t where
  data k m hm := by
    rw [hdata] at hm
    split_ifs at hm with hk
    rcases httl with httl | httl
    · exact ⟨hm, by rw [httl]⟩
    · exact ⟨hm, by rw [httl, TTLManager.lookup_erase, if_neg hk]⟩
  ttl k d hd := by
    rcases httl with httl | httl
    · exact httl ▸ hd
    · rw [httl, TTLManager.lookup_erase] at hd
      split_ifs at hd
      exact hd

theorem get (s : Storage) (now : Nat) (key : Bytes) : Shrinks s (s.get now key).2 := by
  cases he : (s.ttl.isExpired now key).1 with
  | true =>
    rw [get_of_expired he]
    exact of_erase lookup_forget (Or.inr rfl)
  | false =>
    cases hm : s.data.lookup key with
    | none =>
      rw [get_of_absent he hm]
      exact of_eq rfl rfl
    | some m =>
      rw [get_of_present he hm]
      exact of_eq rfl rfl

theorem del (s : Storage) (key : Bytes) : Shrinks s (s.del key).2 := by
  cases hm : s.data.lookup key with
  | none =>
    rw [del_of_absent hm]
    exact of_eq rfl rfl
  | some m =>
    rw [del_of_present hm]
    exact of_erase (lookup_removeEntry m) (Or.inr rfl)

theorem expireKey (s : Storage) (key : Bytes) : Shrinks s (s.expireKey key) := by
  cases hm : s.data.lookup key with
  | none =>
    rw [expireKey_of_absent hm]
    exact of_eq rfl rfl
  | some m =>
    rw [expireKey_of_present hm]
    exact of_erase (lookup_removeEntry m) (Or.inl rfl)

end Shrinks

end Storage

end PolyCache
