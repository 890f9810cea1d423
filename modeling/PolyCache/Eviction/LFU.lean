import PolyCache.Eviction.Policy
import PolyCache.Library.AssocMap

/-!
# The LFU policy

`LFU` is `src/eviction/lfu.cpp`: for each frequency a list of keys, an index from keys to their
size, frequency and list iterator, and a lower bound on the frequencies in use. `LFU.Valid` says
that index and lists agree and that the bound is one, so that the search of `evict` ends.
-/

namespace PolyCache

open AssocMap

/-- A node of a bucket; `id` is what an iterator to it holds. -/
structure LFU.Node where
  id : Nat
  key : Bytes
  deriving DecidableEq, Repr

structure LFU.Entry where
  size : Nat
  freq : Nat
  it : Nat
  deriving DecidableEq, Repr

structure LFU where
  entries : Map Bytes LFU.Entry := ∅
  /-- front (most recently reached the frequency) to back -/
  buckets : Nat → List LFU.Node := fun _ => []
  minFreq : Nat := 0
  memoryUsed : Counter := {}
  /-- the identity of the next node to be allocated -/
  next : Nat := 0

namespace LFU

/-- `buckets_[freq].erase(it)` -/
def erase (p : LFU) (freq it : Nat) : LFU :=
  { p with buckets := Function.update p.buckets freq ((p.buckets freq).filter fun n => n.id ≠ it) }

/-- `buckets_[freq].push_front(key)` -/
def pushFront (p : LFU) (freq : Nat) (key : Bytes) : LFU :=
  { p with
    buckets := Function.update p.buckets freq (⟨p.next, key⟩ :: p.buckets freq)
    next := p.next + 1 }

/-- `++min_freq_` when its bucket has just become empty -/
def raiseMin (p : LFU) (freq : Nat) : LFU :=
  if p.buckets freq = [] ∧ freq = p.minFreq then { p with minFreq := p.minFreq + 1 } else p

def touch (p : LFU) (key : Bytes) : LFU :=
  match p.entries.lookup key with
  | none => p
  | some e =>
    let p := (p.erase e.freq e.it).raiseMin e.freq
    let it := p.next
    let p := p.pushFront (e.freq + 1) key
    { p with entries := p.entries.insert key { e with freq := e.freq + 1, it := it } }

def add (p : LFU) (key : Bytes) (size : Nat) : LFU :=
  match p.entries.lookup key with
  | some e =>
    { p with
      entries := p.entries.insert key { e with size := size }
      memoryUsed := (p.memoryUsed.sub (key.length + e.size)).add (key.length + size) }
  | none =>
    let it := p.next
    let p := p.pushFront 1 key
    { p with
      entries := p.entries.insert key ⟨size, 1, it⟩
      minFreq := 1
      memoryUsed := p.memoryUsed.add (key.length + size) }

def remove (p : LFU) (key : Bytes) : LFU :=
  match p.entries.lookup key with
  | none => p
  | some e =>
    let p := (p.erase e.freq e.it).raiseMin e.freq
    { p with
      entries := p.entries.erase key
      memoryUsed := p.memoryUsed.sub (key.length + e.size) }

/-- The loop of `evict`: the first frequency from `freq` on whose bucket is not empty. -/
def seek (p : LFU) : Nat → Nat → Option Nat
  | 0, _ => none
  | rounds + 1, freq => if p.buckets freq = [] then seek p rounds (freq + 1) else some freq

/-- No frequency is larger. -/
def freqBound (p : LFU) : Nat := weigh (fun _ e => e.freq) p.entries

/-- The evicted key, empty if there are no entries. There is no result if the search for a bucket
runs past every frequency in use. -/
def evict (p : LFU) : Option (Bytes × LFU) :=
  if p.entries.keys = [] then some ([], p)
  else
    match p.seek (p.freqBound + 1) p.minFreq with
    | none => none
    | some freq =>
      match (p.buckets freq).getLast? with
      | none => none
      | some n =>
        let size := ((p.entries.lookup n.key).map Entry.size).getD 0
        some (n.key, { p with
          buckets := Function.update p.buckets freq (p.buckets freq).dropLast
          minFreq := freq
          memoryUsed := p.memoryUsed.sub (n.key.length + size)
          entries := p.entries.erase n.key })

/-- The iterator of a key, if it has one, is to a node of its bucket. -/
def live (p : LFU) (key : Bytes) : Bool :=
  (p.entries.lookup key).all fun e => (p.buckets e.freq).any fun n => n.id = e.it

/-- `touch` and `remove` erase at the iterator of the key. -/
def policy : Policy LFU where
  empty := {}
  touch p key := if p.live key then some (p.touch key) else none
  add p key size := some (p.add key size)
  remove p key := if p.live key then some (p.remove key) else none
  evict := evict
  memoryUsed := memoryUsed

/-! ## Index and buckets agree -/

structure Valid (p : LFU) : Prop where
  /-- an entry refers to a node with its key, in the bucket of its frequency -/
  entry : ∀ key e, p.entries.lookup key = some e → ⟨e.it, key⟩ ∈ p.buckets e.freq
  node : ∀ freq, ∀ n ∈ p.buckets freq,
    ∃ e, p.entries.lookup n.key = some e ∧ e.freq = freq ∧ e.it = n.id
  ids : ∀ freq, ((p.buckets freq).map Node.id).Nodup
  fresh : ∀ freq, ∀ n ∈ p.buckets freq, n.id < p.next
  least : ∀ key e, p.entries.lookup key = some e → p.minFreq ≤ e.freq
  positive : ∀ key e, p.entries.lookup key = some e → 1 ≤ e.freq
  memory : p.memoryUsed = .exact (weigh (fun key e => key.length + e.size) p.entries)

theorem valid_empty : Valid {} where
  entry := by simp
  node := by simp
  ids _ := List.nodup_nil
  fresh := by simp
  least := by simp
  positive := by simp
  memory := rfl

theorem erase_buckets (p : LFU) (freq it : Nat) : (p.erase freq it).buckets =
    Function.update p.buckets freq ((p.buckets freq).filter fun n => n.id ≠ it) := rfl

theorem erase_sublist (p : LFU) (freq it freq' : Nat) :
    ((p.erase freq it).buckets freq').Sublist (p.buckets freq') := by
  by_cases hfreq : freq' = freq
  · subst hfreq
    simp [erase_buckets]
  · simp [erase_buckets, hfreq]

theorem pushFront_buckets (p : LFU) (freq : Nat) (key : Bytes) : (p.pushFront freq key).buckets =
    Function.update p.buckets freq (⟨p.next, key⟩ :: p.buckets freq) := rfl

@[simp] theorem erase_entries (p : LFU) (freq it : Nat) : (p.erase freq it).entries = p.entries :=
  rfl

@[simp] theorem erase_next (p : LFU) (freq it : Nat) : (p.erase freq it).next = p.next := rfl

@[simp] theorem pushFront_entries (p : LFU) (freq : Nat) (key : Bytes) :
    (p.pushFront freq key).entries = p.entries := rfl

@[simp] theorem raiseMin_entries (p : LFU) (freq : Nat) :
    (p.raiseMin freq).entries = p.entries := by
  unfold raiseMin
  split_ifs <;> rfl

@[simp] theorem raiseMin_next (p : LFU) (freq : Nat) : (p.raiseMin freq).next = p.next := by
  unfold raiseMin
  split_ifs <;> rfl

variable {p : LFU} {key : Bytes} {e : Entry}

theorem Valid.live (h : p.Valid) (key : Bytes) : p.live key = true := by
  cases he : p.entries.lookup key with
  | none => simp [LFU.live, he]
  | some e =>
    have hn := h.entry key e he
    simp only [LFU.live, he, Option.all_some, List.any_eq_true, decide_eq_true_eq]
    exact ⟨_, hn, rfl⟩

/-- In the bucket of an entry, comparing identities is comparing keys. -/
theorem Valid.id_eq_iff (h : p.Valid) (he : p.entries.lookup key = some e) {n : Node}
    (hn : n ∈ p.buckets e.freq) : n.id = e.it ↔ n.key = key := by
  constructor
  · intro hid
    have hsame : n = ⟨e.it, key⟩ := List.inj_on_of_nodup_map (h.ids _) hn (h.entry key e he) hid
    rw [hsame]
  · rintro rfl
    obtain ⟨e', he', -, hit⟩ := h.node _ n hn
    rw [he] at he'
    cases he'
    exact hit.symm

/-- Only the bucket of its frequency has the key. -/
theorem Valid.freq_eq (h : p.Valid) (he : p.entries.lookup key = some e) {freq : Nat} {n : Node}
    (hn : n ∈ p.buckets freq) (hkey : n.key = key) : freq = e.freq := by
  obtain ⟨e', he', hfreq, -⟩ := h.node freq n hn
  rw [hkey, he] at he'
  cases he'
  exact hfreq.symm

/-- Erasing at the iterator of a key takes out the key, and nothing else. -/
theorem Valid.mem_erase (h : p.Valid) (he : p.entries.lookup key = some e) {freq : Nat}
    {n : Node} : n ∈ (p.erase e.freq e.it).buckets freq ↔ n ∈ p.buckets freq ∧ n.key ≠ key := by
  by_cases hfreq : freq = e.freq
  · subst hfreq
    rw [erase_buckets, Function.update_self, List.mem_filter]
    refine and_congr_right fun hn => ?_
    rw [decide_eq_true_iff, ne_eq, h.id_eq_iff he hn]
  · rw [erase_buckets, Function.update_of_ne hfreq]
    exact ⟨fun hn => ⟨hn, fun hkey => hfreq (h.freq_eq he hn hkey)⟩, And.left⟩

/-- Taking a key out of its bucket, the index and the counter. -/
theorem Valid.drop (h : p.Valid) (he : p.entries.lookup key = some e) {min : Nat}
    (hmin : ∀ k e', k ≠ key → p.entries.lookup k = some e' → min ≤ e'.freq) :
    Valid { p.erase e.freq e.it with
      entries := p.entries.erase key
      minFreq := min
      memoryUsed := p.memoryUsed.sub (key.length + e.size) } := by
  constructor
  · intro k e' hk
    obtain ⟨hne, hk⟩ := lookup_erase_eq_some.mp hk
    exact (h.mem_erase he).mpr ⟨h.entry k e' hk, hne⟩
  · intro freq n hn
    obtain ⟨hn, hne⟩ := (h.mem_erase he).mp hn
    obtain ⟨e', he', hrest⟩ := h.node freq n hn
    exact ⟨e', lookup_erase_eq_some.mpr ⟨hne, he'⟩, hrest⟩
  · exact fun freq => (h.ids freq).sublist ((p.erase_sublist _ _ freq).map _)
  · exact fun freq n hn => h.fresh freq n ((h.mem_erase he).mp hn).1
  · intro k e' hk
    obtain ⟨hne, hk⟩ := lookup_erase_eq_some.mp hk
    exact hmin k e' hne hk
  · intro k e' hk
    exact h.positive k e' (lookup_erase_eq_some.mp hk).2
  · simp only [h.memory, weigh_of_lookup he]
    rw [Counter.exact_sub (Nat.le_add_right _ _), Nat.add_sub_cancel_left]

/-- Putting a key that is not tracked in front of a bucket. -/
theorem Valid.put (h : p.Valid) (hnone : p.entries.lookup key = none) (size : Nat) {freq min : Nat}
    (hpos : 1 ≤ freq) (hle : min ≤ freq)
    (hmin : ∀ k e, p.entries.lookup k = some e → min ≤ e.freq) :
    Valid { p.pushFront freq key with
      entries := p.entries.insert key ⟨size, freq, p.next⟩
      minFreq := min
      memoryUsed := p.memoryUsed.add (key.length + size) } := by
  have hmem : ∀ freq' n, n ∈ (p.pushFront freq key).buckets freq' ↔
      n = ⟨p.next, key⟩ ∧ freq' = freq ∨ n ∈ p.buckets freq' := by
    intro freq' n
    by_cases hfreq : freq' = freq
    · subst hfreq
      simp [pushFront_buckets]
    · simp [pushFront_buckets, hfreq]
  have hother : ∀ freq', ∀ n ∈ p.buckets freq', n.key ≠ key := by
    rintro freq' n hn rfl
    obtain ⟨e, he, -⟩ := h.node freq' n hn
    simp [hnone] at he
  constructor
  · intro k e hk
    obtain ⟨rfl, rfl⟩ | ⟨-, hk⟩ := lookup_insert_eq_some.mp hk
    · exact (hmem _ _).mpr (Or.inl ⟨rfl, rfl⟩)
    · exact (hmem _ _).mpr (Or.inr (h.entry k e hk))
  · intro freq' n hn
    obtain ⟨rfl, rfl⟩ | hn := (hmem freq' n).mp hn
    · exact ⟨_, lookup_insert_eq_some.mpr (Or.inl ⟨rfl, rfl⟩), rfl, rfl⟩
    · obtain ⟨e, he, hrest⟩ := h.node freq' n hn
      exact ⟨e, lookup_insert_eq_some.mpr (Or.inr ⟨hother freq' n hn, he⟩), hrest⟩
  · intro freq'
    by_cases hfreq : freq' = freq
    · subst hfreq
      have hnew : p.next ∉ (p.buckets freq').map Node.id := by
        intro hid
        obtain ⟨n, hn, hid⟩ := List.mem_map.mp hid
        have hlt := h.fresh freq' n hn
        omega
      simpa [pushFront_buckets, h.ids freq'] using hnew
    · simpa [pushFront_buckets, hfreq] using h.ids freq'
  · intro freq' n hn
    obtain ⟨rfl, -⟩ | hn := (hmem freq' n).mp hn
    · exact Nat.lt_succ_self _
    · exact (h.fresh freq' n hn).trans (Nat.lt_succ_self _)
  · intro k e hk
    obtain ⟨rfl, rfl⟩ | ⟨-, hk⟩ := lookup_insert_eq_some.mp hk
    · exact hle
    · exact hmin k e hk
  · intro k e hk
    obtain ⟨rfl, rfl⟩ | ⟨-, hk⟩ := lookup_insert_eq_some.mp hk
    · exact hpos
    · exact h.positive k e hk
  · simp only [h.memory, weigh_insert, erase_of_lookup_none hnone, Counter.exact_add]
    rw [Nat.add_comm]

/-! ## The operations -/

/-- After a key has left its bucket, `min_freq_` bounds the frequencies of the others. -/
theorem Valid.raiseMin_erase (h : p.Valid) (he : p.entries.lookup key = some e) :
    ∃ min, (p.erase e.freq e.it).raiseMin e.freq = { p.erase e.freq e.it with minFreq := min } ∧
      min ≤ e.freq + 1 ∧ ∀ k e', k ≠ key → p.entries.lookup k = some e' → min ≤ e'.freq := by
  unfold raiseMin
  split_ifs with hraise
  · refine ⟨p.minFreq + 1, rfl, Nat.succ_le_succ (h.least key e he), fun k e' hk hlookup => ?_⟩
    obtain ⟨hempty, hmin⟩ := hraise
    have hne : e'.freq ≠ e.freq := by
      intro hfreq
      have hmem := h.entry k e' hlookup
      rw [hfreq] at hmem
      have hother := mt (h.id_eq_iff he hmem).mp hk
      rw [erase_buckets, Function.update_self, List.filter_eq_nil_iff] at hempty
      exact hempty _ hmem (by simpa using hother)
    have hle := h.least k e' hlookup
    have hmin : e.freq = p.minFreq := hmin
    omega
  · exact ⟨p.minFreq, rfl, (h.least key e he).trans (Nat.le_succ _), fun k e' _ => h.least k e'⟩

theorem Valid.remove (h : p.Valid) (key : Bytes) : (p.remove key).Valid := by
  cases he : p.entries.lookup key with
  | none => simpa [LFU.remove, he] using h
  | some e =>
    obtain ⟨min, heq, -, hmin⟩ := h.raiseMin_erase he
    have hdrop := h.drop he hmin
    simp only [LFU.remove, he, heq]
    exact hdrop

/-- A touched key leaves its bucket and enters the next one. -/
theorem Valid.touch (h : p.Valid) (key : Bytes) : (p.touch key).Valid := by
  cases he : p.entries.lookup key with
  | none => simpa [LFU.touch, he] using h
  | some e =>
    obtain ⟨min, heq, hle, hmin⟩ := h.raiseMin_erase he
    have hput := (h.drop he hmin).put (AList.lookup_erase _ _) e.size (Nat.le_add_left 1 _) hle
      fun k e' hk => hmin k e' (lookup_erase_eq_some.mp hk).1 (lookup_erase_eq_some.mp hk).2
    have hmemory : (p.memoryUsed.sub (key.length + e.size)).add (key.length + e.size) =
        p.memoryUsed := by
      rw [h.memory, weigh_of_lookup he, Counter.exact_sub (Nat.le_add_right _ _),
        Nat.add_sub_cancel_left, Counter.exact_add, Nat.add_comm]
    simp only [hmemory, insert_erase] at hput
    simp only [LFU.touch, he, heq]
    exact hput

theorem Valid.add (h : p.Valid) (key : Bytes) (size : Nat) : (p.add key size).Valid := by
  cases he : p.entries.lookup key with
  | none =>
    have hput := h.put he size (Nat.le_refl 1) (Nat.le_refl 1) h.positive
    simp only [LFU.add, he]
    exact hput
  | some e =>
    have hlookup : ∀ k e', (p.entries.insert key { e with size := size }).lookup k = some e' →
        ∃ e₀, p.entries.lookup k = some e₀ ∧ e'.freq = e₀.freq ∧ e'.it = e₀.it := by
      intro k e' hk
      obtain ⟨rfl, rfl⟩ | ⟨-, hk⟩ := lookup_insert_eq_some.mp hk
      · exact ⟨e, he, rfl, rfl⟩
      · exact ⟨e', hk, rfl, rfl⟩
    simp only [LFU.add, he]
    constructor
    · intro k e' hk
      obtain ⟨e₀, hk, hfreq, hit⟩ := hlookup k e' hk
      rw [hfreq, hit]
      exact h.entry k e₀ hk
    · intro freq n hn
      obtain ⟨e', hk, hfreq, hit⟩ := h.node freq n hn
      by_cases hself : n.key = key
      · rw [hself, he] at hk
        cases hk
        exact ⟨_, lookup_insert_eq_some.mpr (Or.inl ⟨hself, rfl⟩), hfreq, hit⟩
      · exact ⟨e', lookup_insert_eq_some.mpr (Or.inr ⟨hself, hk⟩), hfreq, hit⟩
    · exact h.ids
    · exact h.fresh
    · intro k e' hk
      obtain ⟨e₀, hk, hfreq, -⟩ := hlookup k e' hk
      exact hfreq ▸ h.least k e₀ hk
    · intro k e' hk
      obtain ⟨e₀, hk, hfreq, -⟩ := hlookup k e' hk
      exact hfreq ▸ h.positive k e₀ hk
    · simp only [h.memory, weigh_of_lookup he, weigh_insert]
      rw [Counter.exact_sub (Nat.le_add_right _ _), Nat.add_sub_cancel_left, Counter.exact_add,
        Nat.add_comm]

/-! ## Eviction -/

/-- The search finds the first bucket that is not empty. -/
theorem seek_spec (rounds : Nat) {freq top : Nat} (hle : freq ≤ top) (hlt : top < freq + rounds)
    (htop : p.buckets top ≠ []) : ∃ found, p.seek rounds freq = some found ∧ freq ≤ found ∧
      p.buckets found ≠ [] ∧ ∀ f, freq ≤ f → f < found → p.buckets f = [] := by
  induction rounds generalizing freq with
  | zero => omega
  | succ rounds ih =>
    rw [seek]
    split_ifs with hempty
    · have hne : freq ≠ top := by
        rintro rfl
        exact htop hempty
      obtain ⟨found, hseek, hfrom, hfound, hbelow⟩ := ih (show freq + 1 ≤ top by omega) (by omega)
      refine ⟨found, hseek, by omega, hfound, fun f hf hlt => ?_⟩
      obtain rfl | hf := Nat.eq_or_lt_of_le hf
      · exact hempty
      · exact hbelow f hf hlt
    · exact ⟨freq, rfl, le_rfl, hempty, fun f hf hlt => by omega⟩

/-- A policy that has entries evicts the last key of the first bucket that is not empty. -/
theorem Valid.evict (h : p.Valid) (hne : p.entries.keys ≠ []) :
    ∃ key e, p.entries.lookup key = some e ∧
      (∀ k e', p.entries.lookup k = some e' → e.freq ≤ e'.freq) ∧
      (p.buckets e.freq).getLast? = some ⟨e.it, key⟩ ∧
      ∃ q, p.evict = some (key, q) ∧ q.Valid ∧ q.entries = p.entries.erase key ∧
        q.buckets = Function.update p.buckets e.freq (p.buckets e.freq).dropLast := by
  obtain ⟨k₀, hk₀⟩ := List.exists_mem_of_ne_nil _ hne
  obtain ⟨e₀, he₀⟩ := Option.isSome_iff_exists.mp (AList.lookup_isSome.mpr hk₀)
  have hbound : e₀.freq ≤ p.freqBound := by
    rw [freqBound, weigh_of_lookup he₀]
    exact Nat.le_add_right _ _
  obtain ⟨freq, hseek, -, hfound, hbelow⟩ := seek_spec (p.freqBound + 1) (h.least k₀ e₀ he₀)
    (by omega) (List.ne_nil_of_mem (h.entry k₀ e₀ he₀))
  have hleast : ∀ k e', p.entries.lookup k = some e' → freq ≤ e'.freq := by
    intro k e' hk
    by_contra hlt
    have hempty := hbelow e'.freq (h.least k e' hk) (Nat.not_le.mp hlt)
    exact List.ne_nil_of_mem (h.entry k e' hk) hempty
  obtain ⟨n, hlast⟩ := Option.ne_none_iff_exists'.mp (mt List.getLast?_eq_none_iff.mp hfound)
  obtain ⟨e, he, rfl, hit⟩ := h.node freq n (List.mem_of_getLast? hlast)
  have hdrop := h.drop he fun k e' _ hk => hleast k e' hk
  have hrest : (p.buckets e.freq).filter (fun m => m.id ≠ e.it) = (p.buckets e.freq).dropLast := by
    rw [hit]
    exact filter_ne_getLast (h.ids e.freq) hlast
  rw [erase, hrest] at hdrop
  refine ⟨n.key, e, he, hleast, by rw [hlast, hit], _, ?_, hdrop, rfl, rfl⟩
  rw [LFU.evict, if_neg hne, hseek]
  simp [hlast, he]

/-! ## The contract -/

/-- Index and buckets agree, and the index holds these entries. -/
def Holds (p : LFU) (l : List (Bytes × Nat)) : Prop :=
  p.Valid ∧ l = (bindings p.entries).map fun b => (b.1, b.2.size)

theorem listing_erase (m : Map Bytes Entry) (key : Bytes) :
    (bindings (m.erase key)).map (fun b => (b.1, b.2.size)) =
      ((bindings m).map fun b => (b.1, b.2.size)).filter fun b => b.1 ≠ key := by
  rw [bindings_erase, List.filter_map]
  rfl

theorem listing_insert (m : Map Bytes Entry) (key : Bytes) (e : Entry) :
    (bindings (m.insert key e)).map (fun b => (b.1, b.2.size)) =
      (key, e.size) :: ((bindings m).map fun b => (b.1, b.2.size)).filter fun b => b.1 ≠ key := by
  rw [bindings_insert, List.map_cons, ← bindings_erase, listing_erase]

theorem refines : policy.Refines Holds where
  nodup := by
    rintro p l ⟨-, rfl⟩
    rw [List.map_map]
    exact bindings_nodup p.entries
  memory := by
    rintro p l ⟨h, rfl⟩
    rw [List.map_map]
    exact h.memory
  empty := ⟨valid_empty, rfl⟩
  touch := by
    rintro p l ⟨h, rfl⟩ key
    refine ⟨_, _, if_pos (h.live key), ⟨h.touch key, rfl⟩, ?_⟩
    cases he : p.entries.lookup key with
    | none => simp [LFU.touch, he]
    | some e =>
      have hentries : (p.touch key).entries =
          p.entries.insert key { e with freq := e.freq + 1, it := p.next } := by
        simp [LFU.touch, he]
      have hperm := (bindings_perm_erase he).map fun b => (b.1, b.2.size)
      rw [List.map_cons, listing_erase] at hperm
      rw [hentries, listing_insert]
      exact hperm.symm
  add := by
    rintro p l ⟨h, rfl⟩ key size
    refine ⟨_, _, rfl, ⟨h.add key size, rfl⟩, ?_⟩
    cases he : p.entries.lookup key <;> simp only [LFU.add, he, listing_insert] <;> rfl
  remove := by
    rintro p l ⟨h, rfl⟩ key
    refine ⟨_, _, if_pos (h.live key), ⟨h.remove key, rfl⟩, ?_⟩
    cases he : p.entries.lookup key with
    | none =>
      rw [← listing_erase, erase_of_lookup_none he]
      simp [LFU.remove, he]
    | some e =>
      simp only [LFU.remove, he, listing_erase, raiseMin_entries, erase_entries, List.Perm.refl]
  evict_nil := by
    rintro p ⟨-, hnil⟩
    have hkeys : p.entries.keys = [] := by
      rw [← bindings_keys, List.map_eq_nil_iff.mp hnil.symm, List.map_nil]
    simp [policy, LFU.evict, hkeys]
  evict := by
    rintro p l ⟨h, rfl⟩ hne
    have hkeys : p.entries.keys ≠ [] := by
      rw [← bindings_keys]
      exact fun hnil => hne (by rw [List.map_eq_nil_iff.mp hnil, List.map_nil])
    obtain ⟨key, e, he, -, -, q, hevict, hq, hentries, -⟩ := h.evict hkeys
    refine ⟨key, q, _, hevict, ?_, ⟨hq, rfl⟩, ?_⟩
    · rw [List.map_map]
      exact List.mem_map_of_mem (f := Prod.fst) (mem_bindings.mpr he)
    · rw [hentries, listing_erase]

end LFU

end PolyCache
