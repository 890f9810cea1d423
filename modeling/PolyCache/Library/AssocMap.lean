import Mathlib.Algebra.Ring.Nat
import Mathlib.Data.List.AList
import Mathlib.Algebra.BigOperators.Group.List.Basic

/-!
# Association maps with weights

`Map K V` is the non-dependent case of Mathlib's `AList`: a list of bindings with distinct keys.
Its bindings can be weighed, and erasing or inserting a key changes the total weight by exactly
the weights of the bindings concerned.
-/

namespace AssocMap

/-! ## Lists with distinct images -/

section Distinct

variable {α K : Type*} [DecidableEq K] {f : α → K} {l : List α} {a : α}

theorem filter_ne_of_notMem (h : f a ∉ l.map f) : l.filter (fun b => f b ≠ f a) = l := by
  refine List.filter_eq_self.mpr fun b hb => ?_
  have hne : f b ≠ f a := fun hba => h (hba ▸ List.mem_map_of_mem hb)
  simpa using hne

/-- Such a list is any one of its elements together with those of another image. -/
theorem perm_cons_filter_ne (nd : (l.map f).Nodup) (h : a ∈ l) :
    l.Perm (a :: l.filter fun b => f b ≠ f a) := by
  induction l with
  | nil => cases h
  | cons b l ih =>
    obtain ⟨hnotin, hnd⟩ := List.nodup_cons.mp nd
    rcases List.mem_cons.mp h with rfl | h
    · rw [List.filter_cons_of_neg (by simp), filter_ne_of_notMem hnotin]
    · have hne : f b ≠ f a := fun hba => hnotin (hba ▸ List.mem_map_of_mem h)
      rw [List.filter_cons_of_pos (by simpa using hne)]
      exact ((ih hnd h).cons b).trans (List.Perm.swap _ _ _)

theorem filter_eq_singleton (nd : (l.map f).Nodup) (h : a ∈ l) :
    l.filter (fun b => f b = f a) = [a] := by
  have hperm := (perm_cons_filter_ne nd h).filter fun b => decide (f b = f a)
  have hnone : (l.filter fun b => f b ≠ f a).filter (fun b => f b = f a) = [] :=
    List.filter_eq_nil_iff.mpr fun b hb => by simpa using (List.mem_filter.mp hb).2
  rw [List.filter_cons_of_pos (by simp), hnone] at hperm
  exact List.perm_singleton.mp hperm

theorem filter_ne_middle {m : List α} (nd : ((l ++ a :: m).map f).Nodup) :
    (l ++ a :: m).filter (fun b => f b ≠ f a) = l ++ m := by
  rw [List.map_append, List.map_cons, List.nodup_middle, List.nodup_cons, List.mem_append,
    not_or] at nd
  rw [List.filter_append, List.filter_cons_of_neg (by simp), filter_ne_of_notMem nd.1.1,
    filter_ne_of_notMem nd.1.2]

theorem filter_ne_getLast (nd : (l.map f).Nodup) (h : l.getLast? = some a) :
    l.filter (fun b => f b ≠ f a) = l.dropLast := by
  obtain ⟨init, rfl⟩ := List.getLast?_eq_some_iff.mp h
  have ha : f a ∉ init.map f := by
    rw [List.map_append] at nd
    exact fun hmem => (List.nodup_append.mp nd).2.2 _ hmem _ (by simp) rfl
  rw [List.filter_append, filter_ne_of_notMem ha, List.dropLast_concat]
  simp

end Distinct

/-! ## Maps -/

/-- A finite map as an association list without repeated keys. -/
abbrev Map (K V : Type*) := AList fun _ : K => V

variable {K V : Type*}

/-- The bindings as pairs. -/
def bindings (m : Map K V) : List (K × V) := m.entries.map fun e => (e.1, e.2)

@[simp] theorem bindings_empty : bindings (∅ : Map K V) = [] := rfl

theorem bindings_keys (m : Map K V) : (bindings m).map Prod.fst = m.keys := by
  simp [bindings, AList.keys, List.keys, Function.comp_def]

theorem bindings_nodup (m : Map K V) : ((bindings m).map Prod.fst).Nodup :=
  bindings_keys m ▸ m.keys_nodup

variable [DecidableEq K]

theorem mem_bindings {m : Map K V} {k : K} {v : V} :
    (k, v) ∈ bindings m ↔ m.lookup k = some v := by
  constructor
  · intro h
    obtain ⟨⟨k', v'⟩, he, heq⟩ := List.mem_map.mp h
    obtain ⟨rfl, rfl⟩ := Prod.mk.inj heq
    exact AList.mem_lookup_iff.mpr he
  · intro h
    exact List.mem_map.mpr ⟨⟨k, v⟩, AList.mem_lookup_iff.mp h, rfl⟩

theorem kerase_eq_filter {l : List (Sigma fun _ : K => V)} (nd : l.NodupKeys) (k : K) :
    l.kerase k = l.filter fun e => e.1 ≠ k := by
  induction l with
  | nil => rfl
  | cons e l ih =>
    obtain ⟨hnotin, hnd⟩ := List.nodupKeys_cons.mp nd
    by_cases h : k = e.1
    · rw [List.kerase_cons_eq h, List.filter_cons_of_neg (by simp [h])]
      refine (List.filter_eq_self.mpr fun x hx => ?_).symm
      have hne : x.1 ≠ e.1 := fun hxe => hnotin (hxe ▸ List.mem_keys_of_mem hx)
      simpa [h] using hne
    · rw [List.kerase_cons_ne h, List.filter_cons_of_pos (by simpa using Ne.symm h), ih hnd]

theorem bindings_erase (m : Map K V) (k : K) :
    bindings (m.erase k) = (bindings m).filter fun b => b.1 ≠ k := by
  have hentries : (m.erase k).entries = m.entries.filter fun e => e.1 ≠ k :=
    kerase_eq_filter m.nodupKeys k
  simp only [bindings, hentries, List.filter_map]
  rfl

theorem bindings_insert (m : Map K V) (k : K) (v : V) :
    bindings (m.insert k v) = (k, v) :: (bindings m).filter fun b => b.1 ≠ k := by
  rw [← bindings_erase]
  rfl

theorem bindings_perm_erase {m : Map K V} {k : K} {v : V} (h : m.lookup k = some v) :
    (bindings m).Perm ((k, v) :: bindings (m.erase k)) :=
  bindings_erase m k ▸ perm_cons_filter_ne (bindings_nodup m) (mem_bindings.mpr h)

theorem bindings_insert_perm (m : Map K V) (k : K) (v : V) :
    (bindings (m.insert k v)).Perm ((k, v) :: bindings (m.erase k)) := by
  rw [bindings_insert, bindings_erase]

theorem lookup_erase_eq_ite (m : Map K V) (a k : K) :
    (m.erase a).lookup k = if k = a then none else m.lookup k := by
  split_ifs with h
  · rw [h, AList.lookup_erase]
  · rw [AList.lookup_erase_ne h]

theorem lookup_insert_eq_ite (m : Map K V) (a k : K) (v : V) :
    (m.insert a v).lookup k = if k = a then some v else m.lookup k := by
  split_ifs with h
  · rw [h, AList.lookup_insert]
  · rw [AList.lookup_insert_ne h]

theorem lookup_erase_eq_some {m : Map K V} {a k : K} {v : V} :
    (m.erase a).lookup k = some v ↔ k ≠ a ∧ m.lookup k = some v := by
  rw [lookup_erase_eq_ite]
  split_ifs with h <;> simp [h]

theorem lookup_insert_eq_some {m : Map K V} {a k : K} {v w : V} :
    (m.insert a v).lookup k = some w ↔ k = a ∧ v = w ∨ k ≠ a ∧ m.lookup k = some w := by
  rw [lookup_insert_eq_ite]
  split_ifs with h <;> simp [h]

theorem erase_of_lookup_none {m : Map K V} {k : K} (h : m.lookup k = none) : m.erase k = m :=
  AList.ext (List.kerase_of_notMem_keys (AList.lookup_eq_none.mp h))

theorem insert_erase (m : Map K V) (k : K) (v : V) : (m.erase k).insert k v = m.insert k v := by
  have hsame : (m.erase k).erase k = m.erase k := erase_of_lookup_none (AList.lookup_erase k m)
  exact AList.ext (congrArg (fun n : Map K V => (⟨k, v⟩ : Sigma fun _ => V) :: n.entries) hsame)

theorem length_keys_erase {m : Map K V} {k : K} {v : V} (h : m.lookup k = some v) :
    m.keys.length = (m.erase k).keys.length + 1 := by
  rw [← bindings_keys m, ← bindings_keys (m.erase k), List.length_map, List.length_map,
    (bindings_perm_erase h).length_eq, List.length_cons]

theorem length_keys_insert (m : Map K V) (k : K) (v : V) :
    (m.insert k v).keys.length = m.keys.length + if (m.lookup k).isNone then 1 else 0 := by
  have hlen : (m.insert k v).keys.length = (m.erase k).keys.length + 1 := by
    rw [← bindings_keys, ← bindings_keys, List.length_map, List.length_map,
      (bindings_insert_perm m k v).length_eq, List.length_cons]
  cases h : m.lookup k with
  | none => rw [hlen, erase_of_lookup_none h]; rfl
  | some w => rw [hlen, ← length_keys_erase h]; rfl

/-- The total weight of the bindings. -/
def weigh (w : K → V → Nat) (m : Map K V) : Nat := ((bindings m).map fun b => w b.1 b.2).sum

variable {w : K → V → Nat}

theorem weigh_of_lookup {m : Map K V} {k : K} {v : V} (h : m.lookup k = some v) :
    weigh w m = w k v + weigh w (m.erase k) :=
  ((bindings_perm_erase h).map fun b : K × V => w b.1 b.2).sum_eq

theorem weigh_insert (m : Map K V) (k : K) (v : V) :
    weigh w (m.insert k v) = w k v + weigh w (m.erase k) :=
  ((bindings_insert_perm m k v).map fun b : K × V => w b.1 b.2).sum_eq

/-- Keep the bindings that satisfy `p`. -/
def filter (p : K → V → Bool) (m : Map K V) : Map K V where
  entries := m.entries.filter fun e => p e.1 e.2
  nodupKeys := List.NodupKeys.sublist List.filter_sublist m.nodupKeys

theorem lookup_filter (p : K → V → Bool) (m : Map K V) (k : K) :
    (filter p m).lookup k = (m.lookup k).filter (p k) := by
  apply Option.ext
  intro v
  simp only [← mem_bindings, bindings, filter, Option.filter_eq_some_iff]
  grind

theorem erase_eq_filter (m : Map K V) (k : K) : m.erase k = filter (fun a _ => a ≠ k) m :=
  AList.ext (kerase_eq_filter m.nodupKeys k)

omit [DecidableEq K] in
theorem filter_filter (p q : K → V → Bool) (m : Map K V) :
    filter p (filter q m) = filter (fun k v => p k v && q k v) m :=
  AList.ext List.filter_filter

theorem filter_congr {p q : K → V → Bool} {m : Map K V}
    (h : ∀ k v, m.lookup k = some v → p k v = q k v) : filter p m = filter q m :=
  AList.ext (List.filter_congr fun e he => h e.1 e.2 (AList.mem_lookup_iff.mpr he))

theorem filter_comm (p q : K → V → Bool) (m : Map K V) :
    filter p (filter q m) = filter q (filter p m) := by
  rw [filter_filter, filter_filter]
  exact filter_congr fun _ _ _ => Bool.and_comm _ _

omit [DecidableEq K] in
theorem keys_filter_sublist (p : K → V → Bool) (m : Map K V) :
    (filter p m).keys.Sublist m.keys := by
  apply List.Sublist.map
  exact List.filter_sublist

omit [DecidableEq K] in
/-- The keys of a part of a map, those that satisfy `q` after the others. -/
theorem keys_filter_perm (p : K → V → Bool) (q : K → Bool) (m : Map K V) :
    (filter p m).keys.Perm
      ((filter p (filter (fun k _ => !q k) m)).keys ++ (filter p m).keys.filter q) := by
  have hrest : (filter p (filter (fun k _ => !q k) m)).keys =
      (filter p m).keys.filter fun k => !q k := by
    simp [AList.keys, List.keys, filter, List.filter_map, List.filter_filter, Function.comp_def,
      Bool.and_comm]
  rw [hrest]
  refine (List.perm_append_comm.trans ?_).symm
  exact List.filter_append_perm q (filter p m).keys

end AssocMap
