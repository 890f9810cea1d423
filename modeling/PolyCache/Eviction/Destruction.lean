import PolyCache.Eviction.Hand

/-!
# The nodes of SIEVE

`SIEVE` allocates its nodes itself and has to delete them itself: `remove` and `evict` delete one
each, and the destructor those that are left. A node is never reached after it was deleted, since
following its address would fail, and none is lost: after any calls the nodes that are live are
those of the tracked keys, and the destructor finds them all.
-/

namespace PolyCache

open Linked

namespace SIEVE

/-- `~SIEVE`: from the head on, each link is read before its node is deleted. -/
def destroy (p : SIEVE) : Option (Heap Nat Entry) := dispose (p.next + 1) p.head p.heap

variable {p : SIEVE} {newer older : List (Nat × Entry)}

theorem Holds.destroy (h : p.Holds newer older) :
    ∃ heap, p.destroy = some heap ∧ ∀ n, heap n = none := by
  have hlength := h.length_le
  obtain ⟨heap, hdispose, hgone, hframe⟩ := h.nodes.dispose h.distinct (Nat.lt_succ_of_le hlength)
  refine ⟨heap, ?_, fun n => ?_⟩
  · rw [SIEVE.destroy, h.head]
    exact hdispose
  · by_cases hn : n ∈ (newer ++ older).map Prod.fst
    · exact hgone n hn
    · rw [hframe n hn]
      exact h.free n hn

/-- A live node is linked. -/
theorem Holds.mem_of_live (h : p.Holds newer older) {n : Nat} {x : Cell Nat Entry}
    (hx : p.heap n = some x) : (n, x.val) ∈ newer ++ older := by
  have hn : n ∈ (newer ++ older).map Prod.fst := by
    by_contra hnot
    rw [h.free n hnot] at hx
    cases hx
  obtain ⟨⟨n, e⟩, hc, rfl⟩ := List.mem_map.mp hn
  obtain ⟨l, m, hsplit⟩ := List.append_of_mem hc
  have hnodes := h.nodes
  rw [hsplit] at hnodes
  have hcell := hnodes.middle
  rw [hx] at hcell
  cases hcell
  exact hc

theorem Holds.live_of_mem (h : p.Holds newer older) {c : Nat × Entry} (hc : c ∈ newer ++ older) :
    ∃ x, p.heap c.1 = some x ∧ x.val = c.2 := by
  obtain ⟨l, m, hsplit⟩ := List.append_of_mem hc
  have hnodes := h.nodes
  rw [hsplit] at hnodes
  exact ⟨_, hnodes.middle, rfl⟩

/-- The live nodes are those of the tracked keys, one for each, and the destructor deletes them all:
it reads no node that was deleted, and leaves none. -/
theorem nodes_deleted {h : List Policy.Event} (hr : policy.system.Reaches h p) :
    (∀ n x, p.heap n = some x → p.index.lookup x.val.key = some n ∧
      Policy.tracked x.val.key h = some x.val.value) ∧
    (∀ key size, Policy.tracked key h = some size → ∃ n x, p.heap n = some x ∧
      x.val.key = key ∧ x.val.value = size) ∧
    ∃ heap, p.destroy = some heap ∧ ∀ n, heap n = none := by
  obtain ⟨l, ⟨newer, older, hholds, rfl⟩, -, htracked, -⟩ := (refines.contract h p hr).entries
  refine ⟨fun n x hx => ?_, fun key size hsize => ?_, hholds.destroy⟩
  · have hmem := hholds.mem_of_live hx
    constructor
    · exact hholds.key_mem hmem
    · apply (htracked _ _).mp
      exact List.mem_map_of_mem (f := fun c => (c.2.key, c.2.value)) hmem
  · have hmem := (htracked key size).mpr hsize
    obtain ⟨c, hc, heq⟩ := List.mem_map.mp hmem
    cases heq
    obtain ⟨x, hx, hval⟩ := hholds.live_of_mem hc
    exact ⟨c.1, x, hx, by rw [hval], by rw [hval]⟩

/-- Two of three keys are left. -/
def twoLeft : List Policy.Event :=
  [.evict [99], .add [99] 3, .touch [98], .touch [97], .add [98] 2, .add [97] 1]

theorem two_deleted : ∃ p : SIEVE, policy.run twoLeft = some p ∧
    (∃ n x, p.heap n = some x ∧ x.val.key = [98] ∧ x.val.value = 2) ∧
    ∃ heap, p.destroy = some heap ∧ ∀ n, heap n = none := by
  have hsome : (policy.run twoLeft).isSome = true := by decide
  obtain ⟨p, hp⟩ := Option.isSome_iff_exists.mp hsome
  obtain ⟨-, hlive, hdestroy⟩ := nodes_deleted (policy.reaches_of_run hp)
  exact ⟨p, hp, hlive [98] 2 rfl, hdestroy⟩

end SIEVE

end PolyCache
