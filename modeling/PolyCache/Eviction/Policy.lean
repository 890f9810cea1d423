import PolyCache.Basic
import PolyCache.Library.Transition

/-!
# Eviction policies

`Policy` is the interface of `src/eviction/policy.h`. An operation is missing a result where the
code would follow a pointer to a node that is gone, or never return. The contract of a policy is
what the store relies on: after any sequence of calls it tracks the keys that were added and
neither removed nor evicted since, with their last sizes, and its links are sound.
-/

namespace PolyCache

structure Policy (σ : Type) where
  empty : σ
  touch : σ → Bytes → Option σ
  add : σ → Bytes → Nat → Option σ
  remove : σ → Bytes → Option σ
  evict : σ → Option (Bytes × σ)
  memoryUsed : σ → Counter

namespace Policy

/-- A call, and for `evict` what it returned. -/
inductive Event where
  | touch (key : Bytes)
  | add (key : Bytes) (size : Nat)
  | remove (key : Bytes)
  | evict (key : Bytes)
  deriving DecidableEq, Repr

variable {σ : Type} (P : Policy σ)

inductive Step : σ → Event → σ → Prop where
  | touch {s s' : σ} {key : Bytes} (returns : P.touch s key = some s') : Step s (.touch key) s'
  | add {s s' : σ} {key : Bytes} {size : Nat} (returns : P.add s key size = some s') :
      Step s (.add key size) s'
  | remove {s s' : σ} {key : Bytes} (returns : P.remove s key = some s') : Step s (.remove key) s'
  | evict {s s' : σ} {key : Bytes} (returns : P.evict s = some (key, s')) : Step s (.evict key) s'

def system : Transition.System σ Event where
  init s := s = P.empty
  step := P.Step

/-- The state after a call, if it returns, and returns the key of the event. -/
def next (s : σ) : Event → Option σ
  | .touch key => P.touch s key
  | .add key size => P.add s key size
  | .remove key => P.remove s key
  | .evict key => (P.evict s).bind fun r => if r.1 = key then some r.2 else none

/-- The state after the calls, newest first. -/
def run : List Event → Option σ
  | [] => some P.empty
  | e :: h => (run h).bind fun s => P.next s e

theorem step_of_next {s s' : σ} {e : Event} (h : P.next s e = some s') : P.Step s e s' := by
  cases e with
  | touch key => exact .touch h
  | add key size => exact .add h
  | remove key => exact .remove h
  | evict key =>
    obtain ⟨⟨k, t⟩, hr, hk⟩ := Option.bind_eq_some_iff.mp h
    dsimp only at hk
    split_ifs at hk with hkey
    cases hk
    exact .evict (hkey ▸ hr)

theorem reaches_of_run {h : List Event} {s : σ} (hrun : P.run h = some s) :
    P.system.Reaches h s := by
  induction h generalizing s with
  | nil => exact .start (Option.some.inj hrun).symm
  | cons e h ih =>
    obtain ⟨t, ht, hnext⟩ := Option.bind_eq_some_iff.mp hrun
    exact .next (ih ht) (P.step_of_next hnext)

/-- The last added size of a key that was not removed or evicted since. An `evict` that finds
nothing returns the empty key, which is not tracked then. -/
def tracked (key : Bytes) : List Event → Option Nat
  | [] => none
  | .add k size :: h => if k = key then some size else tracked key h
  | .remove k :: h | .evict k :: h => if k = key then none else tracked key h
  | .touch _ :: h => tracked key h

/-- What holds after the calls `h`, where `Holds s l` says that the index and the links of `s` agree
on the entries `l`. -/
structure Kept (Holds : σ → List (Bytes × Nat) → Prop) (h : List Event) (s : σ) : Prop where
  entries : ∃ l, Holds s l ∧ (l.map Prod.fst).Nodup ∧
    (∀ key size, (key, size) ∈ l ↔ tracked key h = some size) ∧
    P.memoryUsed s = .exact (l.map fun b => b.1.length + b.2).sum
  evict : ∃ key s', P.evict s = some (key, s') ∧
    ((∀ k, tracked k h = none) → key = [] ∧ s' = s) ∧
    ((∃ k, (tracked k h).isSome) → (tracked key h).isSome)
  returns : ∀ key size,
    (P.touch s key).isSome ∧ (P.add s key size).isSome ∧ (P.remove s key).isSome

/-- The contract: it is kept by every sequence of calls. -/
def Contract (Holds : σ → List (Bytes × Nat) → Prop) : Prop :=
  ∀ h s, P.system.Reaches h s → P.Kept Holds h s

/-- What each operation does to the entries. -/
structure Refines (Holds : σ → List (Bytes × Nat) → Prop) : Prop where
  nodup : ∀ {s l}, Holds s l → (l.map Prod.fst).Nodup
  memory : ∀ {s l}, Holds s l → P.memoryUsed s = .exact (l.map fun b => b.1.length + b.2).sum
  empty : Holds P.empty []
  touch : ∀ {s l}, Holds s l → ∀ key, ∃ s' l', P.touch s key = some s' ∧ Holds s' l' ∧ l'.Perm l
  add : ∀ {s l}, Holds s l → ∀ key size, ∃ s' l', P.add s key size = some s' ∧ Holds s' l' ∧
    l'.Perm ((key, size) :: l.filter fun b => b.1 ≠ key)
  remove : ∀ {s l}, Holds s l → ∀ key, ∃ s' l', P.remove s key = some s' ∧ Holds s' l' ∧
    l'.Perm (l.filter fun b => b.1 ≠ key)
  evict_nil : ∀ {s}, Holds s [] → P.evict s = some ([], s)
  evict : ∀ {s l}, Holds s l → l ≠ [] → ∃ key s' l', P.evict s = some (key, s') ∧
    key ∈ l.map Prod.fst ∧ Holds s' l' ∧ l'.Perm (l.filter fun b => b.1 ≠ key)

namespace Refines

variable {P} {Holds : σ → List (Bytes × Nat) → Prop} {h : List Event} {s s' : σ} {e : Event}

/-- The entries are those the calls account for. -/
def Accounted (h : List Event) (l : List (Bytes × Nat)) : Prop :=
  ∀ key size, (key, size) ∈ l ↔ tracked key h = some size

theorem step (hP : P.Refines Holds) {l : List (Bytes × Nat)} (hl : Holds s l)
    (hh : Accounted h l) (hs : P.Step s e s') : ∃ l', Holds s' l' ∧ Accounted (e :: h) l' := by
  have herase : ∀ k (l' : List (Bytes × Nat)), l'.Perm (l.filter fun b => b.1 ≠ k) → ∀ key size,
      (key, size) ∈ l' ↔ (if k = key then none else tracked key h) = some size := by
    intro k l' hperm key size
    rw [hperm.mem_iff, List.mem_filter, hh]
    by_cases hk : k = key
    · simp [hk]
    · simp [hk, Ne.symm hk]
  cases hs with
  | @touch _ key hreturns =>
    obtain ⟨t, l', ht, hl', hperm⟩ := hP.touch hl key
    rw [hreturns] at ht
    cases ht
    exact ⟨l', hl', fun k size => hperm.mem_iff.trans (hh k size)⟩
  | @add _ key size hreturns =>
    obtain ⟨t, l', ht, hl', hperm⟩ := hP.add hl key size
    rw [hreturns] at ht
    cases ht
    refine ⟨l', hl', fun k n => ?_⟩
    rw [hperm.mem_iff, List.mem_cons, herase key _ (List.Perm.refl _) k n, tracked]
    by_cases hk : key = k
    · simp [hk, eq_comm]
    · simp [hk, Ne.symm hk]
  | @remove _ key hreturns =>
    obtain ⟨t, l', ht, hl', hperm⟩ := hP.remove hl key
    rw [hreturns] at ht
    cases ht
    exact ⟨l', hl', herase key l' hperm⟩
  | @evict _ key hreturns =>
    by_cases hnil : l = []
    · subst hnil
      rw [hP.evict_nil hl] at hreturns
      cases hreturns
      exact ⟨[], hl, herase [] [] (List.Perm.refl _)⟩
    · obtain ⟨k, t, l', ht, -, hl', hperm⟩ := hP.evict hl hnil
      rw [hreturns] at ht
      cases ht
      exact ⟨l', hl', herase key l' hperm⟩

theorem contract (hP : P.Refines Holds) : P.Contract Holds := by
  intro h s hr
  obtain ⟨l, hl, hh⟩ : ∃ l, Holds s l ∧ Accounted h l := by
    refine hr.invariant (P := fun h s => ∃ l, Holds s l ∧ Accounted h l) (fun s hs => ?_) ?_
    · cases hs
      exact ⟨[], hP.empty, fun key size => by simp [tracked]⟩
    · rintro h s e t - ⟨l, hl, hh⟩ hs
      exact hP.step hl hh hs
  refine ⟨⟨l, hl, hP.nodup hl, hh, hP.memory hl⟩, ?_, fun key size => ⟨?_, ?_, ?_⟩⟩
  · by_cases hnil : l = []
    · subst hnil
      refine ⟨[], s, hP.evict_nil hl, fun _ => ⟨rfl, rfl⟩, ?_⟩
      rintro ⟨k, hk⟩
      obtain ⟨size, hsize⟩ := Option.isSome_iff_exists.mp hk
      exact absurd ((hh k size).mpr hsize) (List.not_mem_nil)
    · obtain ⟨key, s', l', hevict, hmem, -, -⟩ := hP.evict hl hnil
      obtain ⟨⟨k, size⟩, hb, rfl⟩ := List.mem_map.mp hmem
      have hsome : (tracked k h).isSome := by rw [(hh k size).mp hb]; rfl
      refine ⟨k, s', hevict, fun hnone => ?_, fun _ => hsome⟩
      simp [hnone k] at hsome
  · obtain ⟨t, -, ht, -⟩ := hP.touch hl key
    simp [ht]
  · obtain ⟨t, -, ht, -⟩ := hP.add hl key size
    simp [ht]
  · obtain ⟨t, -, ht, -⟩ := hP.remove hl key
    simp [ht]

end Refines

end Policy

end PolyCache
