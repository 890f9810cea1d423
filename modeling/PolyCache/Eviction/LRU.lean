import PolyCache.Basic
import PolyCache.Library.Recency

/-!
# The LRU policy

`LRU` is `src/eviction/lru.cpp`: a linked list of entries, an index from keys to list iterators
and a byte counter. An iterator is the identity of its node, so that `splice`, `erase` and the
index act on nodes and not on positions. `LRU.Models` connects the three to the recency list
they implement.
-/

namespace PolyCache

open AssocMap

/-- A node of `list_`; `id` is what an iterator to it holds. -/
structure LRU.Node where
  id : Nat
  key : Bytes
  size : Nat
  deriving DecidableEq, Repr

structure LRU where
  /-- front (most recently used) to back -/
  list : List LRU.Node := []
  index : Map Bytes Nat := ∅
  memoryUsed : Counter := {}
  /-- the identity of the next node to be allocated -/
  next : Nat := 0

namespace LRU

def Node.entry (n : Node) : Bytes × Nat := (n.key, n.size)
def Node.weight (n : Node) : Nat := n.key.length + n.size

/-- `it->key.size() + it->size` -/
def weightAt (it : Nat) (l : List Node) : Nat :=
  ((l.find? fun n => n.id = it).map Node.weight).getD 0

/-- `list_.splice(list_.begin(), list_, it)` -/
def splice (it : Nat) (l : List Node) : List Node :=
  l.filter (fun n => n.id = it) ++ l.filter (fun n => n.id ≠ it)

def touch (p : LRU) (key : Bytes) : LRU :=
  match p.index.lookup key with
  | none => p
  | some it => { p with list := splice it p.list }

/-- `list_.push_front(Entry{key, size})` -/
def pushFront (p : LRU) (key : Bytes) (size : Nat) : LRU :=
  { p with list := ⟨p.next, key, size⟩ :: p.list, next := p.next + 1 }

/-- The rest of `add` for a key that has just been pushed: `index_.emplace` and the counter. -/
def indexFront (p : LRU) (key : Bytes) (size : Nat) : LRU :=
  { p with
    index := p.index.insert key (p.next - 1)
    memoryUsed := p.memoryUsed.add (key.length + size) }

def add (p : LRU) (key : Bytes) (size : Nat) : LRU :=
  match p.index.lookup key with
  | some it =>
    let list := splice it p.list
    { p with
      list := list.map fun n => if n.id = it then { n with size := size } else n
      memoryUsed := (p.memoryUsed.sub (weightAt it list)).add (key.length + size) }
  | none => (p.pushFront key size).indexFront key size

def remove (p : LRU) (key : Bytes) : LRU :=
  match p.index.lookup key with
  | none => p
  | some it =>
    { p with
      list := p.list.filter fun n => n.id ≠ it
      index := p.index.erase key
      memoryUsed := p.memoryUsed.sub (weightAt it p.list) }

/-- The evicted key, empty on an empty list. -/
def evict (p : LRU) : Bytes × LRU :=
  match p.list.getLast? with
  | none => ([], p)
  | some n =>
    (n.key, { p with
      list := p.list.dropLast
      index := p.index.erase n.key
      memoryUsed := p.memoryUsed.sub n.weight })

/-! ## The index and the list agree -/

/-- The policy holds the recency list `r`: nodes are distinct, the index maps each key to the
node that holds it and to nothing else, and the counter is the sum of the entries. -/
structure Models (p : LRU) (r : Recency Bytes) : Prop where
  entries : p.list.map Node.entry = r.entries
  ids : (p.list.map Node.id).Nodup
  fresh : ∀ n ∈ p.list, n.id < p.next
  index : ∀ key it, p.index.lookup key = some it ↔ ∃ n ∈ p.list, n.id = it ∧ n.key = key
  memory : p.memoryUsed = .exact (p.list.map Node.weight).sum

theorem models_empty : Models {} Recency.empty where
  entries := rfl
  ids := List.nodup_nil
  fresh := by simp
  index := by simp
  memory := rfl

namespace Models

variable {p : LRU} {r : Recency Bytes}

theorem keys (h : p.Models r) : p.list.map Node.key = r.entries.map Prod.fst := by
  rw [← h.entries, List.map_map]
  rfl

theorem weight_eq (h : p.Models r) :
    (p.list.map Node.weight).sum = (r.entries.map fun b => b.1.length + b.2).sum := by
  rw [← h.entries, List.map_map]
  rfl

theorem eq_of_id (h : p.Models r) {m n : Node} (hm : m ∈ p.list) (hn : n ∈ p.list)
    (hid : m.id = n.id) : m = n :=
  List.inj_on_of_nodup_map h.ids hm hn hid

/-- Under the index entry of a key, comparing identities is comparing keys. -/
theorem id_eq_iff (h : p.Models r) {key : Bytes} {it : Nat} (hk : p.index.lookup key = some it)
    {n : Node} (hn : n ∈ p.list) : n.id = it ↔ n.key = key := by
  obtain ⟨m, hm, rfl, rfl⟩ := (h.index key it).mp hk
  constructor
  · intro hid
    rw [h.eq_of_id hn hm hid]
  · intro hkey
    have hn' := (h.index n.key n.id).mpr ⟨n, hn, rfl, rfl⟩
    rw [hkey, hk] at hn'
    exact (Option.some.inj hn').symm

theorem lookup_eq_none (h : p.Models r) {key : Bytes} :
    p.index.lookup key = none ↔ key ∉ r.entries.map Prod.fst := by
  rw [← h.keys]
  constructor
  · rintro hnone hmem
    obtain ⟨n, hn, rfl⟩ := List.mem_map.mp hmem
    simp [(h.index n.key n.id).mpr ⟨n, hn, rfl, rfl⟩] at hnone
  · intro hmem
    refine Option.eq_none_iff_forall_ne_some.mpr fun it hit => ?_
    obtain ⟨n, hn, -, rfl⟩ := (h.index key it).mp hit
    exact hmem (List.mem_map_of_mem hn)

theorem splice_eq (h : p.Models r) {key : Bytes} {it : Nat} (hk : p.index.lookup key = some it) :
    (splice it p.list).map Node.entry = (r.touch key).entries := by
  have hsame : p.list.filter (fun n => n.id = it) = p.list.filter fun n => n.key = key :=
    List.filter_congr fun n hn => by simp [h.id_eq_iff hk hn]
  have hrest : p.list.filter (fun n => n.id ≠ it) = p.list.filter fun n => n.key ≠ key :=
    List.filter_congr fun n hn => by simp [h.id_eq_iff hk hn]
  rw [splice, hsame, hrest, Recency.touch_entries, Recency.remove_entries, ← h.entries]
  simp only [List.map_append, List.filter_map]
  rfl

theorem splice_perm (it : Nat) (l : List Node) : (splice it l).Perm l := by
  simpa [splice] using List.filter_append_perm (fun n : Node => decide (n.id = it)) l

/-- A permutation of the nodes keeps everything but the order. -/
theorem of_perm (h : p.Models r) {l : List Node} {r' : Recency Bytes} (hl : l.Perm p.list)
    (hr : l.map Node.entry = r'.entries) : Models { p with list := l } r' where
  entries := hr
  ids := (hl.map Node.id).nodup_iff.mpr h.ids
  fresh n hn := h.fresh n (hl.mem_iff.mp hn)
  index key it := by simpa [hl.mem_iff] using h.index key it
  memory := by rw [(hl.map Node.weight).sum_eq]; exact h.memory

theorem touch (h : p.Models r) (key : Bytes) : (p.touch key).Models (r.touch key) := by
  cases hk : p.index.lookup key with
  | none =>
    simpa [LRU.touch, hk, Recency.touch_of_notMem (h.lookup_eq_none.mp hk)] using h
  | some it =>
    simpa [LRU.touch, hk] using h.of_perm (splice_perm it p.list) (h.splice_eq hk)

/-- Through any permutation of the nodes, an iterator finds the node it stands for. -/
theorem weightAt_eq (h : p.Models r) {n : Node} (hn : n ∈ p.list) {l : List Node}
    (hl : l.Perm p.list) : weightAt n.id l = n.weight := by
  cases hf : l.find? (fun m => m.id = n.id) with
  | none => simpa using List.find?_eq_none.mp hf n (hl.mem_iff.mpr hn)
  | some m =>
    have hid : m.id = n.id := by simpa using List.find?_some hf
    have hm : m ∈ p.list := hl.mem_iff.mp (List.mem_of_find?_eq_some hf)
    simp [weightAt, hf, h.eq_of_id hm hn hid]

/-- Taking a node out of the list, the index and the counter. -/
theorem drop (h : p.Models r) {n : Node} (hn : n ∈ p.list) :
    Models { p with
      list := p.list.filter fun m => m.id ≠ n.id
      index := p.index.erase n.key
      memoryUsed := p.memoryUsed.sub n.weight } (r.remove n.key) := by
  have hk : p.index.lookup n.key = some n.id := (h.index _ _).mpr ⟨n, hn, rfl, rfl⟩
  have hsub : (p.list.filter fun m => m.id ≠ n.id).Sublist p.list := List.filter_sublist
  have hperm : p.list.Perm (n :: p.list.filter fun m => m.id ≠ n.id) :=
    perm_cons_filter_ne h.ids hn
  constructor
  · have hrest : p.list.filter (fun m => m.id ≠ n.id) = p.list.filter fun m => m.key ≠ n.key :=
      List.filter_congr fun m hm => by simp [h.id_eq_iff hk hm]
    rw [hrest, Recency.remove_entries, ← h.entries, List.filter_map]
    rfl
  · exact h.ids.sublist (hsub.map _)
  · exact fun m hm => h.fresh m (hsub.subset hm)
  · intro key it
    by_cases hkey : key = n.key
    · subst hkey
      rw [AList.lookup_erase]
      suffices ∀ m ∈ p.list, m.id ≠ n.id → m.id = it → m.key ≠ n.key by simpa using this
      exact fun m hm hid _ hmk => hid ((h.id_eq_iff hk hm).mpr hmk)
    · rw [AList.lookup_erase_ne hkey, h.index]
      constructor
      · rintro ⟨m, hm, hid, rfl⟩
        have hne : m.id ≠ n.id := fun hmn => hkey ((h.id_eq_iff hk hm).mp hmn)
        exact ⟨m, List.mem_filter.mpr ⟨hm, by simpa using hne⟩, hid, rfl⟩
      · rintro ⟨m, hm, hid, hmk⟩
        exact ⟨m, hsub.subset hm, hid, hmk⟩
  · have hsum := (hperm.map Node.weight).sum_eq
    rw [List.map_cons, List.sum_cons] at hsum
    simp only [h.memory]
    rw [Counter.exact_sub (by omega), hsum, Nat.add_sub_cancel_left]

theorem remove (h : p.Models r) (key : Bytes) : (p.remove key).Models (r.remove key) := by
  cases hk : p.index.lookup key with
  | none => simpa [LRU.remove, hk, Recency.remove_of_notMem (h.lookup_eq_none.mp hk)] using h
  | some it =>
    obtain ⟨n, hn, rfl, rfl⟩ := (h.index key it).mp hk
    simpa [LRU.remove, hk, h.weightAt_eq hn (List.Perm.refl _)] using h.drop hn

theorem evict (h : p.Models r) {key : Bytes} {size : Nat}
    (hlast : r.entries.getLast? = some (key, size)) :
    p.evict.1 = key ∧ p.evict.2.Models (r.remove key) := by
  rw [← h.entries, List.getLast?_map] at hlast
  obtain ⟨n, hn, heq⟩ := Option.map_eq_some_iff.mp hlast
  obtain ⟨rfl, rfl⟩ := Prod.mk.inj heq
  refine ⟨by simp [LRU.evict, hn], ?_⟩
  have hdrop := h.drop (List.mem_of_getLast? hn)
  rw [filter_ne_getLast h.ids hn] at hdrop
  simpa [LRU.evict, hn] using hdrop

/-- Putting a node in front for a key that is not tracked. -/
theorem put (h : p.Models r) {n : Node} (hkey : n.key ∉ r.entries.map Prod.fst)
    (hid : ∀ m ∈ p.list, m.id ≠ n.id) {next : Nat} (hle : p.next ≤ next) (hlt : n.id < next) :
    Models {
      list := n :: p.list
      index := p.index.insert n.key n.id
      memoryUsed := p.memoryUsed.add n.weight
      next := next } (r.add n.key n.size) := by
  constructor
  · rw [Recency.add_entries, Recency.remove_of_notMem hkey, ← h.entries]
    rfl
  · refine List.nodup_cons.mpr ⟨fun hmem => ?_, h.ids⟩
    obtain ⟨m, hm, hmn⟩ := List.mem_map.mp hmem
    exact hid m hm hmn
  · intro m hm
    rcases List.mem_cons.mp hm with rfl | hm
    · exact hlt
    · exact (h.fresh m hm).trans_le hle
  · intro key it
    have hnone := h.lookup_eq_none.mpr hkey
    by_cases hk : key = n.key
    · subst hk
      have hno : ∀ m ∈ p.list, m.id = it → m.key ≠ n.key := fun m hm _ hmk => by
        simp [(h.index n.key m.id).mpr ⟨m, hm, rfl, hmk⟩] at hnone
      simpa [AList.lookup_insert] using fun m hm hid hmk => absurd hmk (hno m hm hid)
    · simp [AList.lookup_insert_ne hk, h.index, Ne.symm hk]
  · simp [h.memory, Node.weight, Nat.add_comm]

theorem of_lookup (h : p.Models r) {index : Map Bytes Nat}
    (hl : ∀ key, index.lookup key = p.index.lookup key) : Models { p with index := index } r where
  entries := h.entries
  ids := h.ids
  fresh := h.fresh
  index key it := by simpa [hl] using h.index key it
  memory := h.memory

theorem add (h : p.Models r) (key : Bytes) (size : Nat) :
    (p.add key size).Models (r.add key size) := by
  cases hk : p.index.lookup key with
  | none =>
    have hput := h.put (n := ⟨p.next, key, size⟩) (h.lookup_eq_none.mp hk)
      (fun m hm => (h.fresh m hm).ne) (Nat.le_succ _) (Nat.lt_succ_self _)
    simpa [LRU.add, hk, pushFront, indexFront, Node.weight] using hput
  | some it =>
    -- an overwrite takes the node out and puts it back in front with its new size
    obtain ⟨n, hn, rfl, rfl⟩ := (h.index key it).mp hk
    have hput := (h.drop hn).put (n := ⟨n.id, n.key, size⟩) (Recency.remove_notMem _ _)
      (fun m hm => by simpa using (List.mem_filter.mp hm).2) (Nat.le_refl _) (h.fresh n hn)
    have hindex : ∀ k, p.index.lookup k = ((p.index.erase n.key).insert n.key n.id).lookup k := by
      intro k
      by_cases hkn : k = n.key
      · rw [hkn, AList.lookup_insert, hk]
      · rw [AList.lookup_insert_ne hkn, AList.lookup_erase_ne hkn]
    have hlist : (splice n.id p.list).map
        (fun m => if m.id = n.id then { m with size := size } else m) =
          ⟨n.id, n.key, size⟩ :: p.list.filter fun m => m.id ≠ n.id := by
      have hrest : ∀ m ∈ p.list.filter (fun m => m.id ≠ n.id),
          (if m.id = n.id then { m with size := size } else m) = m := fun m hm => by
        rw [if_neg (by simpa using (List.mem_filter.mp hm).2)]
      rw [splice, filter_eq_singleton h.ids hn, List.map_append, List.map_congr_left hrest]
      simp
    rw [Recency.add_remove] at hput
    simpa [LRU.add, hk, h.weightAt_eq hn (splice_perm n.id p.list), hlist, Node.weight]
      using hput.of_lookup hindex

end Models

end LRU

end PolyCache
