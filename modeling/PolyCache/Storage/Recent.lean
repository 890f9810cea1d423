import PolyCache.Library.Aged
import PolyCache.Storage.Admission
import PolyCache.Storage.Contents

/-!
# Which keys a set evicts

The recency list of the policy is in the order in which the keys were last set or read. A `set` that
runs over the limit drops keys from its end, and no more of them than it has to.
-/

namespace PolyCache

open AssocMap

namespace History

/-- How many events came before the last successful `set` or hit `get` of the key. -/
def usedAt (key : Bytes) : History → Nat
  | [] => 0
  | (_, .set r) :: h => if r.stored ∧ r.key = key then h.length else usedAt key h
  | (_, .get k blob) :: h => if blob.isSome ∧ k = key then h.length else usedAt key h
  | _ :: h => usedAt key h

end History

open History

/-- `kept` is the longest part of the front of `l` that fits, and empty if none does. -/
structure Trimmed {α : Type*} (P : List α → Prop) (l kept : List α) : Prop where
  front : kept <+: l
  fits : kept ≠ [] → P kept
  longest : ∀ pre, pre <+: l → P pre → pre <+: kept

namespace Storage

/-- What a key is charged with once `key` has been set to `value`. -/
def chargeAfter (s : Storage) (key : Bytes) (value : Str) (k : Bytes) : Nat :=
  k.length + if k = key then accounted value else ((s.data.lookup k).map KeyMeta.size).getD 0

/-- The keys and the bucket array are within the limit once `key` has been set to `value`. -/
def FitsAfter (s : Storage) (buckets : Nat) (key : Bytes) (value : Str) (keys : List Bytes) :
    Prop :=
  (keys.map (s.chargeAfter key value)).sum + s.bucketBytesAfter buckets key ≤ s.memoryLimit

variable {s : Storage} {r : Recency Bytes} {key : Bytes} {value : Str}

theorem Books.size_eq (h : s.Books r) {k : Bytes} {n : Nat} (hk : (k, n) ∈ r.entries) :
    ((s.data.lookup k).map KeyMeta.size).getD 0 = n := by
  obtain ⟨⟨k', m⟩, hb, heq⟩ := List.mem_map.mp (h.tracked.mem_iff.mpr hk)
  obtain ⟨rfl, rfl⟩ := Prod.mk.inj heq
  rw [mem_bindings.mp hb]
  rfl

/-- The entries after a `set` have the sizes that their keys are charged with. -/
theorem Books.charge_eq (h : s.Books r) {pre : List (Bytes × Nat)}
    (hpre : pre <+: (r.add key (accounted value)).entries) :
    (pre.map fun b => b.1.length + b.2).sum =
      ((pre.map Prod.fst).map (s.chargeAfter key value)).sum := by
  rw [List.map_map]
  refine congrArg List.sum (List.map_congr_left fun b hb => ?_)
  obtain ⟨k, n⟩ := b
  have hmem := hpre.subset hb
  rw [Recency.add_entries, List.mem_cons, Recency.remove_entries, List.mem_filter] at hmem
  obtain heq | ⟨hk, hne⟩ := hmem
  · obtain ⟨rfl, rfl⟩ := Prod.mk.inj heq
    simp [chargeAfter]
  · have hne : k ≠ key := by simpa using hne
    simp [chargeAfter, hne, h.size_eq hk]

/-- What a `set` leaves of the recency list. -/
theorem Books.set (h : s.Books r) (now buckets : Nat) (ttl : Int)
    (hstore : s.canStore key value = true) :
    ∃ r', (s.set now buckets key value ttl).2.Books r' ∧
      (r.add key (accounted value)).entries.map Prod.fst =
        r'.entries.map Prod.fst ++ (s.setVictims now buckets key value ttl).reverse ∧
      Trimmed (s.FitsAfter buckets key value)
        ((r.add key (accounted value)).entries.map Prod.fst) (r'.entries.map Prod.fst) := by
  have hbooks := h.store now buckets key value ttl
  have hbuckets := s.bucketBytes_store now buckets key value ttl
  have hlimit := s.memoryLimit_store now buckets key value ttl
  obtain ⟨r', hbooks', hpre, hvictims, -, hend, hlong⟩ := evictLoop_books hbooks le_rfl
  obtain ⟨policy, valueBytes, data, ttl', evictions, hframe⟩ := evictLoop_frame
    (s.store now buckets key value ttl).data.keys.length (s.store now buckets key value ttl)
  rw [hbuckets, hlimit] at hlong
  rw [Storage.set, setVictims, if_pos hstore, if_pos hstore]
  refine ⟨r', hbooks', hvictims, hpre.map _, fun hne => ?_, fun pre hpre' hfits => ?_⟩
  · have hkeys : (evictLoop (s.store now buckets key value ttl).data.keys.length
        (s.store now buckets key value ttl)).storage.data.keys ≠ [] := by
      intro hnil
      have hperm := hbooks'.keys_perm
      rw [hnil] at hperm
      exact hne hperm.nil_eq.symm
    have hused := Nat.not_lt.mp fun hlt => hend ⟨hkeys, hlt⟩
    rw [hbooks'.usedMemory_entries, h.charge_eq hpre] at hused
    simp only [hframe, bucketBytes] at hused
    rw [FitsAfter, ← hbuckets, ← hlimit]
    exact hused
  · rw [List.prefix_iff_eq_take] at hpre'
    rw [hpre', ← List.map_take] at hfits ⊢
    have htake := List.take_prefix pre.length (r.add key (accounted value)).entries
    by_contra hnot
    have hlt : r'.entries.length <
        ((r.add key (accounted value)).entries.take pre.length).length := by
      by_contra hle
      exact hnot ((List.prefix_of_prefix_length_le htake hpre (Nat.not_lt.mp hle)).map _)
    have hover := hlong _ htake hlt
    rw [h.charge_eq htake] at hover
    exact absurd hfits (Nat.not_le.mpr hover)

end Storage

namespace World

/-- The books agree, and the recency list is in the order of the last uses. -/
def Ordered (h : History) (w : World) : Prop :=
  ∃ r, w.storage.Books r ∧ Aged (usedAt · h) h.length (r.entries.map Prod.fst)

namespace Ordered

variable {h : History} {w : World}

/-- Steps that leave the recency list alone. -/
theorem of_books (hw : Ordered h w) {e : Nat × Event} {w' : World}
    (hbooks : ∀ r, w.storage.Books r → w'.storage.Books r)
    (htime : ∀ k, usedAt k (e :: h) = usedAt k h) : Ordered (e :: h) w' := by
  obtain ⟨r, hr, haged⟩ := hw
  exact ⟨r, hbooks r hr, haged.congr (Nat.le_succ _) fun k _ => htime k⟩

/-- Steps that take a key out of it. -/
theorem of_remove (hw : Ordered h w) {e : Nat × Event} {w' : World} (key : Bytes)
    (hbooks : ∀ r, w.storage.Books r → w'.storage.Books (r.remove key))
    (htime : ∀ k, usedAt k (e :: h) = usedAt k h) : Ordered (e :: h) w' := by
  obtain ⟨r, hr, haged⟩ := hw
  refine ⟨r.remove key, hbooks r hr, ?_⟩
  rw [Recency.remove_keys]
  exact (haged.sublist List.filter_sublist).congr (Nat.le_succ _) fun k _ => htime k

/-- A key that is used comes to the front. -/
theorem aged_front {r : Recency Bytes} {key : Bytes} {e : Nat × Event}
    (haged : Aged (usedAt · h) h.length (r.entries.map Prod.fst))
    (hkey : usedAt key (e :: h) = h.length)
    (hother : ∀ k, k ≠ key → usedAt k (e :: h) = usedAt k h) :
    Aged (usedAt · (e :: h)) (e :: h).length
      (key :: (r.entries.map Prod.fst).filter (· ≠ key)) := by
  refine Aged.cons ((haged.sublist List.filter_sublist).congr le_rfl fun k hk => ?_) hkey
  exact hother k (by simpa using (List.mem_filter.mp hk).2)

theorem set (hw : Ordered h w) (buckets : Nat) (key : Bytes) (value : Str) (ttl : Int) :
    Ordered ((w.now, .set (w.record buckets key value ttl)) :: h)
      { w with storage := (w.storage.set w.now buckets key value ttl).2 } := by
  have hstored := w.record_stored buckets key value ttl
  have hkey : (w.record buckets key value ttl).key = key := rfl
  cases hstore : w.storage.canStore key value with
  | false =>
    rw [hstore] at hstored
    rw [Storage.set_of_refused _ _ _ hstore]
    exact hw.of_books (fun _ hr => hr) fun k => by simp [usedAt, hstored]
  | true =>
    rw [hstore] at hstored
    obtain ⟨r, hr, haged⟩ := hw
    obtain ⟨r', hr', -, htrim⟩ := hr.set w.now buckets ttl hstore
    refine ⟨r', hr', Aged.sublist ?_ htrim.front.sublist⟩
    rw [Recency.add_entries, List.map_cons, Recency.remove_keys]
    exact aged_front haged (by simp [usedAt, hstored, hkey])
      fun k hk => by simp [usedAt, hkey, Ne.symm hk]

theorem get (hw : Ordered h w) (key : Bytes) :
    Ordered ((w.now, .get key (w.storage.get w.now key).1) :: h)
      { w with storage := (w.storage.get w.now key).2 } := by
  cases he : (w.storage.ttl.isExpired w.now key).1 with
  | true =>
    rw [Storage.get_of_expired he]
    cases hm : w.storage.data.lookup key with
    | none =>
      refine hw.of_books (fun r hr => ?_) fun _ => rfl
      simp only [Storage.forget, hm]
      exact ⟨hr.policy, hr.tracked, hr.values⟩
    | some m =>
      refine hw.of_remove key (fun r hr => ?_) fun _ => rfl
      have hremoved := hr.removeEntry hm
      simp only [Storage.forget, hm]
      exact ⟨hremoved.policy, hremoved.tracked, hremoved.values⟩
  | false =>
    cases hm : w.storage.data.lookup key with
    | none =>
      rw [Storage.get_of_absent he hm]
      exact hw.of_books (fun r hr => ⟨hr.policy, hr.tracked, hr.values⟩) fun _ => rfl
    | some m =>
      rw [Storage.get_of_present he hm]
      obtain ⟨r, hr, haged⟩ := hw
      have htouch := hr.touch key
      refine ⟨r.touch key, ⟨htouch.policy, htouch.tracked, htouch.values⟩, ?_⟩
      rw [Recency.touch_keys (hr.lookup_isSome.mp (by rw [hm]; rfl))]
      exact aged_front haged (by simp [usedAt]) fun k hk => by simp [usedAt, Ne.symm hk]

theorem del (hw : Ordered h w) (key : Bytes) :
    Ordered ((w.now, .del key (w.storage.del key).1) :: h)
      { w with storage := (w.storage.del key).2 } := by
  cases hm : w.storage.data.lookup key with
  | none =>
    rw [Storage.del_of_absent hm]
    exact hw.of_books (fun _ hr => hr) fun _ => rfl
  | some m =>
    rw [Storage.del_of_present hm]
    refine hw.of_remove key (fun r hr => ?_) fun _ => rfl
    have hremoved := hr.removeEntry hm
    exact ⟨hremoved.policy, hremoved.tracked, hremoved.values⟩

theorem expire (hw : Ordered h w) (key : Bytes) (pending : List Bytes) :
    Ordered ((w.now, .expire key) :: h)
      { w with storage := w.storage.expireKey key, pending := pending } := by
  cases hm : w.storage.data.lookup key with
  | none =>
    rw [Storage.expireKey_of_absent hm]
    exact hw.of_books (fun _ hr => hr) fun _ => rfl
  | some m =>
    rw [Storage.expireKey_of_present hm]
    refine hw.of_remove key (fun r hr => ?_) fun _ => rfl
    have hremoved := hr.removeEntry hm
    exact ⟨hremoved.policy, hremoved.tracked, hremoved.values⟩

theorem step (hw : Ordered h w) {w' : World} {e : Nat × Event} (hs : Step w e w') :
    Ordered (e :: h) w' := by
  cases hs with
  | set buckets key value ttl => exact hw.set buckets key value ttl
  | get key => exact hw.get key
  | del key => exact hw.del key
  | collect batch =>
    exact hw.of_books (fun r hr => ⟨hr.policy, hr.tracked, hr.values⟩) fun _ => rfl
  | expire key rest => exact hw.expire key rest
  | tick ticks => exact hw.of_books (fun _ hr => hr) fun _ => rfl

end Ordered

variable {buckets' memoryLimit maxValueSize : Nat} {h : History} {w : World}

theorem ordered_of_reaches (hr : (system buckets' memoryLimit maxValueSize).Reaches h w) :
    Ordered h w := by
  refine hr.invariant (P := Ordered) (fun w hw => ?_) fun _ _ _ _ _ hw hs => hw.step hs
  exact ⟨Recency.empty, hw.1 ▸ Storage.books_init _ _ _, .nil⟩

/-- In the order of their last uses, a `set` keeps the longest part of the front of the keys that
fits under the limit beside the bucket array. It counts the others, and their deadlines go too. -/
theorem set_evicts_excess (hr : (system buckets' memoryLimit maxValueSize).Reaches h w)
    {buckets : Nat} {key : Bytes} {value : Str} {ttl : Int}
    (hstored : (w.storage.set w.now buckets key value ttl).1 = true) :
    let after := (w.storage.set w.now buckets key value ttl).2
    ∃ order : List Bytes, order.Perm w.storage.data.keys ∧
      order.Pairwise (fun a b => usedAt b h < usedAt a h) ∧
      ∃ kept dropped : List Bytes, key :: order.filter (· ≠ key) = kept ++ dropped ∧
        after.data.keys.Perm kept ∧
        Trimmed (w.storage.FitsAfter buckets key value) (key :: order.filter (· ≠ key)) kept ∧
        after.evictions = w.storage.evictions + dropped.length ∧
        ∀ k ∈ dropped, after.ttl.expiries.lookup k = none := by
  intro after
  rw [Storage.set_fst] at hstored
  obtain ⟨r, hbooks, haged⟩ := ordered_of_reaches hr
  obtain ⟨r', hbooks', hvictims, htrim⟩ := hbooks.set w.now buckets ttl hstored
  rw [Recency.add_entries, List.map_cons, Recency.remove_keys] at hvictims htrim
  refine ⟨r.entries.map Prod.fst, hbooks.keys_perm.symm, haged.sorted, _, _, hvictims,
    hbooks'.keys_perm, htrim, ?_, fun k hk => ?_⟩
  · rw [List.length_reverse]
    exact w.storage.evictions_set w.now buckets key value ttl
  · rw [List.mem_reverse] at hk
    rw [Storage.deadline_set _ _ _ hstored, if_pos hk]

/-- `SET a` after `SET k`, in a store that has room for one of them. -/
theorem set_evicts_excess_small :
    let w : World :=
      ⟨((Storage.init 1 160 160).set 0 1 [107] ⟨[1], 15, by decide⟩ 0).2, [], 0⟩
    let h : History := [(0, .set ⟨[107], [1], 0, true, true, []⟩)]
    let after := (w.storage.set w.now 1 [97] ⟨[2], 15, by decide⟩ 0).2
    ∃ order : List Bytes, order.Perm w.storage.data.keys ∧
      order.Pairwise (fun a b => usedAt b h < usedAt a h) ∧
      ∃ kept dropped : List Bytes, [97] :: order.filter (· ≠ [97]) = kept ++ dropped ∧
        after.data.keys.Perm kept ∧
        Trimmed (w.storage.FitsAfter 1 [97] ⟨[2], 15, by decide⟩)
          ([97] :: order.filter (· ≠ [97])) kept ∧
        after.evictions = w.storage.evictions + dropped.length ∧
        ∀ k ∈ dropped, after.ttl.expiries.lookup k = none :=
  set_evicts_excess ((reaches_init 0).next (Step.set _ 1 [107] ⟨[1], 15, by decide⟩ 0)) (by decide)

end World

end PolyCache
