import PolyCache.Eviction.Hand
import PolyCache.Eviction.LFU
import PolyCache.Eviction.LRU

/-!
# The eviction contract

The three policies keep the contract of `Policy`. For LRU the entries are those of the recency
list that its nodes hold.
-/

namespace PolyCache

namespace LRU

/-- The iterator of a key, if it has one, is to a node of the list. -/
def live (p : LRU) (key : Bytes) : Bool :=
  (p.index.lookup key).all fun it => p.list.any fun n => n.id = it

/-- `touch`, `add` and `remove` follow the iterator of the key. -/
def policy : Policy LRU where
  empty := {}
  touch p key := if p.live key then some (p.touch key) else none
  add p key size := if p.live key then some (p.add key size) else none
  remove p key := if p.live key then some (p.remove key) else none
  evict p := some p.evict
  memoryUsed := memoryUsed

def Holds (p : LRU) (l : List (Bytes × Nat)) : Prop :=
  ∃ r : Recency Bytes, p.Models r ∧ r.entries = l

theorem Models.live {p : LRU} {r : Recency Bytes} (h : p.Models r) (key : Bytes) :
    p.live key = true := by
  cases hk : p.index.lookup key with
  | none => simp [LRU.live, hk]
  | some it =>
    obtain ⟨n, hn, rfl, -⟩ := (h.index key it).mp hk
    simp only [LRU.live, hk, Option.all_some, List.any_eq_true, decide_eq_true_eq]
    exact ⟨n, hn, rfl⟩

theorem refines : policy.Refines Holds where
  nodup := by
    rintro p l ⟨r, -, rfl⟩
    exact r.nodup
  memory := by
    rintro p l ⟨r, h, rfl⟩
    rw [← h.weight_eq]
    exact h.memory
  empty := ⟨Recency.empty, models_empty, rfl⟩
  touch := by
    rintro p l ⟨r, h, rfl⟩ key
    exact ⟨_, _, if_pos (h.live key), ⟨_, h.touch key, rfl⟩, r.touch_perm key⟩
  add := by
    rintro p l ⟨r, h, rfl⟩ key size
    exact ⟨_, _, if_pos (h.live key), ⟨_, h.add key size, rfl⟩, .refl _⟩
  remove := by
    rintro p l ⟨r, h, rfl⟩ key
    exact ⟨_, _, if_pos (h.live key), ⟨_, h.remove key, rfl⟩, .refl _⟩
  evict_nil := by
    rintro p ⟨r, h, hnil⟩
    have hlist : p.list = [] := List.map_eq_nil_iff.mp (h.entries.trans hnil)
    simp [policy, LRU.evict, hlist]
  evict := by
    rintro p l ⟨r, h, rfl⟩ hne
    obtain ⟨l, ⟨key, size⟩, hlast⟩ := (List.eq_nil_or_concat' r.entries).resolve_left hne
    obtain ⟨hkey, hrest⟩ := h.evict (by rw [hlast, List.getLast?_concat])
    refine ⟨key, p.evict.2, _, ?_, by simp [hlast], ⟨_, hrest, rfl⟩, .refl _⟩
    rw [← hkey]
    rfl

end LRU

/-- Each policy keeps the contract, with its own account of its index and its links. -/
theorem policies_contract : LRU.policy.Contract LRU.Holds ∧ LFU.policy.Contract LFU.Holds ∧
    SIEVE.policy.Contract SIEVE.Entries :=
  ⟨LRU.refines.contract, LFU.refines.contract, SIEVE.refines.contract⟩

end PolyCache
