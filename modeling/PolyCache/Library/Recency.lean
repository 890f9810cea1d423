import PolyCache.Library.AssocMap

/-!
# Recency lists

The abstract state of a least-recently-used order: distinct keys with a size each, the most
recently used first. Adding and touching bring a key to the front, and the victim is the last
key. The order is all a cache needs to know; how it is stored is left to the implementation.
-/

structure Recency (K : Type*) where
  entries : List (K × Nat)
  nodup : (entries.map Prod.fst).Nodup

namespace Recency

variable {K : Type*}

@[ext] theorem ext {r s : Recency K} (h : r.entries = s.entries) : r = s := by
  cases r; cases s; cases h; rfl

def empty : Recency K := ⟨[], List.nodup_nil⟩

variable [DecidableEq K]

def remove (k : K) (r : Recency K) : Recency K where
  entries := r.entries.filter fun b => b.1 ≠ k
  nodup := r.nodup.sublist (List.filter_sublist.map _)

/-- Bring `k` to the front with size `n`, whether or not it was tracked. -/
def add (k : K) (n : Nat) (r : Recency K) : Recency K where
  entries := (k, n) :: (r.remove k).entries
  nodup := List.nodup_cons.mpr ⟨by simp [remove], (r.remove k).nodup⟩

/-- Bring `k` to the front if it is tracked. -/
def touch (k : K) (r : Recency K) : Recency K where
  entries := r.entries.filter (fun b => b.1 = k) ++ (r.remove k).entries
  nodup := by
    have hp : (r.entries.filter (fun b => b.1 = k) ++ (r.remove k).entries).Perm r.entries := by
      simpa [remove] using List.filter_append_perm (fun b : K × Nat => decide (b.1 = k)) r.entries
    exact (hp.map Prod.fst).nodup_iff.mpr r.nodup

def victim (r : Recency K) : Option K := r.entries.getLast?.map Prod.fst

@[simp] theorem remove_entries (k : K) (r : Recency K) :
    (r.remove k).entries = r.entries.filter fun b => b.1 ≠ k := rfl

@[simp] theorem add_entries (k : K) (n : Nat) (r : Recency K) :
    (r.add k n).entries = (k, n) :: (r.remove k).entries := rfl

theorem touch_entries (k : K) (r : Recency K) :
    (r.touch k).entries = r.entries.filter (fun b => b.1 = k) ++ (r.remove k).entries := rfl

theorem touch_perm (k : K) (r : Recency K) : (r.touch k).entries.Perm r.entries := by
  simpa [touch, remove] using
    List.filter_append_perm (fun b : K × Nat => decide (b.1 = k)) r.entries

theorem remove_of_notMem {k : K} {r : Recency K} (h : k ∉ r.entries.map Prod.fst) :
    r.remove k = r :=
  ext (AssocMap.filter_ne_of_notMem (a := (k, 0)) h)

theorem remove_keys (k : K) (r : Recency K) :
    (r.remove k).entries.map Prod.fst = (r.entries.map Prod.fst).filter (· ≠ k) := by
  rw [remove_entries, List.filter_map]
  rfl

theorem remove_notMem (k : K) (r : Recency K) : k ∉ (r.remove k).entries.map Prod.fst := by
  simp [remove]

theorem add_remove (k : K) (n : Nat) (r : Recency K) : (r.remove k).add k n = r.add k n := by
  ext1
  rw [add_entries, add_entries, remove_of_notMem (remove_notMem k r)]

theorem touch_of_notMem {k : K} {r : Recency K} (h : k ∉ r.entries.map Prod.fst) :
    r.touch k = r := by
  ext1
  rw [touch_entries, remove_of_notMem h, List.filter_eq_nil_iff.mpr, List.nil_append]
  intro b hb
  have hne : b.1 ≠ k := by
    rintro rfl
    exact h (List.mem_map_of_mem hb)
  simpa using hne

theorem touch_keys {k : K} {r : Recency K} (h : k ∈ r.entries.map Prod.fst) :
    (r.touch k).entries.map Prod.fst = k :: (r.entries.map Prod.fst).filter (· ≠ k) := by
  obtain ⟨b, hb, rfl⟩ := List.mem_map.mp h
  rw [touch_entries, List.map_append, remove_keys, AssocMap.filter_eq_singleton r.nodup hb]
  rfl

/-- Dropping the last entry removes exactly the victim. -/
theorem remove_last {k : K} {n : Nat} {r : Recency K} (h : r.entries.getLast? = some (k, n)) :
    (r.remove k).entries = r.entries.dropLast :=
  AssocMap.filter_ne_getLast r.nodup h

end Recency
