import PolyCache.Storage.Admission

/-!
# What an allocation failure leaves of a set

`set` updates the counters, `data_`, the policy and the deadlines one after the other, and takes
nothing back when an allocation in between throws. This module says at which of its allocations,
and in which states, the store is nevertheless what it was.
-/

namespace PolyCache

open AssocMap

namespace Storage

/-- The two stores hold the same: values, policy entries from front to back, counters, deadlines. -/
structure Unchanged (s t : Storage) : Prop where
  values : ∀ k, (t.data.lookup k).map KeyMeta.value = (s.data.lookup k).map KeyMeta.value
  policy : t.policy.list.map LRU.Node.entry = s.policy.list.map LRU.Node.entry
  memory : t.policy.memoryUsed = s.policy.memoryUsed
  payload : t.valueBytes = s.valueBytes
  deadlines : ∀ k, t.ttl.expiries.lookup k = s.ttl.expiries.lookup k

/-- The failures that have nothing to take back: of the blob, of the node of an empty value, and of
the deadline of a key that is set to the value it has and was the last one used. -/
def Spared (s : Storage) (key : Bytes) (value : Str) : AllocPoint → Prop
  | .blob => True
  | .emplace => value.bytes = []
  | .listNode | .indexNode => False
  | .ttlNode => (s.data.lookup key).map KeyMeta.value = some value.bytes ∧
      s.policy.list.head?.map LRU.Node.entry = some (key, accounted value)

variable {s : Storage} {r : Recency Bytes} {buckets : Nat} {key : Bytes} {value : Str}

theorem Unchanged.refl (s : Storage) : Unchanged s s := ⟨fun _ => rfl, rfl, rfl, rfl, fun _ => rfl⟩

/-- A store that has gained the key is not the same. -/
theorem Unchanged.isSome {t : Storage} (h : Unchanged s t) :
    (t.data.lookup key).isSome = (s.data.lookup key).isSome := by
  have hkey := congrArg Option.isSome (h.values key)
  rwa [Option.isSome_map, Option.isSome_map] at hkey

theorem lookup_place (k : Bytes) : (s.place buckets key value).data.lookup k =
    if k = key then some ⟨value.bytes, accounted value⟩ else s.data.lookup k := by
  rw [place_data, lookup_insert_eq_ite]

theorem unchanged_countNew : Unchanged s (s.countNew value.size) ↔ value.bytes = [] := by
  constructor
  · intro h
    have hval := congrArg Counter.val h.payload
    simp only [countNew, Counter.add, Str.size] at hval
    exact List.length_eq_zero_iff.mp (by omega)
  · intro hnil
    exact ⟨fun _ => rfl, rfl, rfl, by simp [countNew, Counter.add, Str.size, hnil], fun _ => rfl⟩

/-- Placing a value changes nothing if it is there already, under the key used last. -/
theorem unchanged_place (h : s.Books r) :
    Unchanged s (s.place buckets key value) ↔ Spared s key value .ttlNode := by
  have hafter := h.place buckets key value
  have hentries := hafter.policy.entries
  have hbefore := h.policy.entries
  rw [Recency.add_entries] at hentries
  constructor
  · intro hsame
    refine ⟨?_, ?_⟩
    · rw [← hsame.values key, lookup_place, if_pos rfl]
      rfl
    · rw [← List.head?_map, ← hsame.policy, hentries, List.head?_cons]
  · rintro ⟨hvalue, hfront⟩
    obtain ⟨m, hm, hbytes⟩ := Option.map_eq_some_iff.mp hvalue
    obtain ⟨rest, hrest⟩ : ∃ rest, r.entries = (key, accounted value) :: rest := by
      rw [← List.head?_map, hbefore] at hfront
      exact List.head?_eq_some_iff.mp hfront
    have hsame : (r.add key (accounted value)).entries = r.entries := by
      have hnd := r.nodup
      rw [hrest, List.map_cons, List.nodup_cons] at hnd
      have hkeep : rest.filter (fun b => b.1 ≠ key) = rest :=
        AssocMap.filter_ne_of_notMem (a := (key, 0)) hnd.1
      rw [Recency.add_entries, Recency.remove_entries, hrest, List.filter_cons_of_neg (by simp),
        hkeep]
    constructor
    · intro k
      rw [lookup_place]
      split_ifs with hk
      · rw [hk, hvalue]
        rfl
      · rfl
    · rw [hafter.policy.entries, hsame, hbefore]
    · rw [hafter.policy.memory, h.policy.memory, hafter.policy.weight_eq, h.policy.weight_eq, hsame]
    · rw [hafter.values, h.values]
      have hpayload : s.payload = m.value.length +
          weigh (fun _ m => m.value.length) (s.data.erase key) := weigh_of_lookup hm
      rw [hpayload, payload, place_data, weigh_insert, hbytes]
    · intro k
      rw [place_ttl]

/-- A failure leaves the store unchanged if and only if it is one of those that are spared. -/
theorem unchanged_iff (h : s.Books r) {now : Nat} {ttl : Int} {p : AllocPoint}
    (hstore : s.canStore key value = true) (halloc : s.allocates key ttl p = true) :
    Unchanged s (s.trySet now buckets key value ttl (some p)).2 ↔ Spared s key value p := by
  have hthrow : (s.trySet now buckets key value ttl (some p)).2 =
      s.setThrowing buckets key value p := by rw [trySet, if_pos ⟨hstore, halloc⟩]
  rw [hthrow]
  -- a failing list or index node means that `data_` has just gained the key
  have hfresh : (s.policy.index.lookup key).isNone = true →
      ∀ t : Storage, t.data = (s.place buckets key value).data → ¬ Unchanged s t := by
    intro hnone t ht hsame
    have habsent : ¬ (s.data.lookup key).isSome := fun hsome =>
      h.policy.lookup_eq_none.mp (Option.isNone_iff_eq_none.mp hnone) (h.lookup_isSome.mp hsome)
    refine habsent ?_
    rw [← hsame.isSome, ht, lookup_place, if_pos rfl]
    rfl
  cases p with
  | blob => exact iff_of_true (Unchanged.refl s) trivial
  | emplace => exact unchanged_countNew
  | listNode => exact iff_of_false (hfresh halloc _ rfl) id
  | indexNode => exact iff_of_false (hfresh halloc _ rfl) id
  | ttlNode => exact unchanged_place h

/-- A `set` that comes to no allocation that throws is a `set`. -/
theorem trySet_of_silent {now : Nat} {ttl : Int} {fault : Option AllocPoint}
    (h : ∀ p, fault = some p → s.allocates key ttl p = false) :
    s.trySet now buckets key value ttl fault =
      (some (s.set now buckets key value ttl).1, (s.set now buckets key value ttl).2) := by
  cases fault with
  | none => rfl
  | some p =>
    have halloc := h p rfl
    rw [trySet, if_neg fun hboth => by simp [halloc] at hboth]

theorem blob_unchanged : Unchanged (init 1 1024 1024)
    ((init 1 1024 1024).trySet 0 1 [107] ⟨[1], 15, by decide⟩ 0 (some .blob)).2 :=
  (unchanged_iff (books_init 1 1024 1024) (by decide) rfl).mpr trivial

/-- When the list node of a new key fails, the key is stored and the policy does not know it. -/
theorem failure_changes : ¬ ∀ (s : Storage) (r : Recency Bytes) (now buckets : Nat) (key : Bytes)
    (value : Str) (ttl : Int) (p : AllocPoint), s.Books r → s.canStore key value = true →
    s.allocates key ttl p = true →
    Unchanged s (s.trySet now buckets key value ttl (some p)).2 := by
  intro hall
  have hsame := hall (init 1 1024 1024) _ 0 1 [107] ⟨[1], 15, by decide⟩ 0 .listNode
    (books_init _ _ _) (by decide) rfl
  exact absurd (hsame.values [107]) (by decide)

end Storage

end PolyCache
