import PolyCache.Eviction.Policy
import PolyCache.Library.AssocMap
import PolyCache.Library.Linked
import PolyCache.Library.Sieve

/-!
# The SIEVE policy

`SIEVE` is `src/eviction/sieve.cpp`: nodes on a heap, linked from the head to the tail, an index
from keys to nodes, and the hand at which the next search for a victim starts. A pointer is an
address of the heap; following one to a node that was deleted fails. `SIEVE.Holds` says which nodes
are linked and where the hand is.
-/

namespace PolyCache

open AssocMap Linked

/-- A node without its links. -/
structure SIEVE.Entry where
  key : Bytes
  value : Nat
  visited : Bool
  deriving DecidableEq, Repr

structure SIEVE where
  heap : Heap Nat SIEVE.Entry := fun _ => none
  head : Option Nat := none
  tail : Option Nat := none
  hand : Option Nat := none
  index : Map Bytes Nat := ∅
  memoryUsed : Counter := {}
  /-- the address of the next node to be allocated -/
  next : Nat := 0

namespace SIEVE

def Entry.weight (e : Entry) : Nat := e.key.length + e.value

def touch (p : SIEVE) (key : Bytes) : Option SIEVE :=
  match p.index.lookup key with
  | none => some p
  | some n => do
    let heap ← modify p.heap n fun x => { x with val.visited := true }
    some { p with heap := heap }

def add (p : SIEVE) (key : Bytes) (size : Nat) : Option SIEVE :=
  match p.index.lookup key with
  | some n => do
    let x ← p.heap n
    let heap ← modify p.heap n fun x => { x with val.value := size }
    some { p with
      heap := heap
      memoryUsed := (p.memoryUsed.sub x.val.weight).add (key.length + size) }
  | none => do
    let n := p.next
    let heap := Function.update p.heap n (some ⟨⟨key, size, false⟩, none, p.head⟩)
    let heap ← linkPrev heap p.head (some n)
    some { p with
      heap := heap
      head := some n
      tail := p.tail.or (some n)
      index := p.index.insert key n
      memoryUsed := p.memoryUsed.add (key.length + size)
      next := n + 1 }

/-- The unlinking that `remove` and `evict` share. -/
def unlink (p : SIEVE) (n : Nat) : Option SIEVE := do
  let x ← p.heap n
  let heap ← linkNext p.heap x.prev x.next
  let p := { p with heap := heap, head := if x.prev.isNone then x.next else p.head }
  let x ← p.heap n
  let heap ← linkPrev p.heap x.next x.prev
  some { p with heap := heap, tail := if x.next.isNone then x.prev else p.tail }

/-- `delete n` -/
def free (p : SIEVE) (n : Nat) : SIEVE := { p with heap := Function.update p.heap n none }

def remove (p : SIEVE) (key : Bytes) : Option SIEVE :=
  match p.index.lookup key with
  | none => some p
  | some n => do
    let x ← p.heap n
    let p := { p with
      index := p.index.erase key
      memoryUsed := p.memoryUsed.sub x.val.weight }
    let p ← p.unlink n
    let x ← p.heap n
    let p := { p with hand := if p.hand = some n then x.prev else p.hand }
    some (p.free n)

/-- The loop of `evict`: the first node from `victim` towards the head whose bit is clear. It ends
at the head, so as many rounds as nodes were ever allocated, and one more, are enough. -/
def sweep : Nat → Option Nat → SIEVE → Option (Option Nat × SIEVE)
  | 0, _, _ => none
  | _ + 1, none, p => some (none, p)
  | rounds + 1, some n, p =>
    match p.heap n with
    | none => none
    | some x =>
      if x.val.visited then
        let heap := Function.update p.heap n (some { x with val.visited := false })
        sweep rounds x.prev { p with heap := heap }
      else some (some n, p)

/-- The rest of `evict`, once the victim is known. -/
def evictNode (p : SIEVE) (victim : Nat) : Option (Bytes × SIEVE) := do
  let x ← p.heap victim
  let p := { p with
    hand := x.prev
    memoryUsed := p.memoryUsed.sub x.val.weight
    index := p.index.erase x.val.key }
  let p ← p.unlink victim
  some (x.val.key, p.free victim)

/-- The evicted key, empty on an empty list. -/
def evict (p : SIEVE) : Option (Bytes × SIEVE) :=
  match p.tail with
  | none => some ([], p)
  | some tail => do
    let (victim, p) ← sweep (p.next + 1) (p.hand.or p.tail) p
    p.evictNode (victim.getD tail)

def policy : Policy SIEVE where
  empty := {}
  touch := touch
  add := add
  remove := remove
  evict := evict
  memoryUsed := memoryUsed

/-! ## The linked nodes -/

/-- The nodes from the head to the tail are `newer ++ older`, and the hand is at the last of
`newer`, or null if there is none. Every other address is free. -/
structure Holds (p : SIEVE) (newer older : List (Nat × Entry)) : Prop where
  nodes : Seg p.heap none (newer ++ older) none
  distinct : ((newer ++ older).map Prod.fst).Nodup
  free : ∀ n ∉ (newer ++ older).map Prod.fst, p.heap n = none
  fresh : ∀ n ∈ (newer ++ older).map Prod.fst, n < p.next
  head : p.head = first (newer ++ older) none
  tail : p.tail = last none (newer ++ older)
  hand : p.hand = last none newer
  index : ∀ key n, p.index.lookup key = some n ↔ ∃ e, (n, e) ∈ newer ++ older ∧ e.key = key
  memory : p.memoryUsed = .exact ((newer ++ older).map fun c => c.2.weight).sum

theorem holds_empty : Holds {} [] [] where
  nodes := trivial
  distinct := List.nodup_nil
  free _ _ := rfl
  fresh := by simp
  head := rfl
  tail := rfl
  hand := rfl
  index := by simp
  memory := rfl

variable {p q : SIEVE} {newer older newer' older' l m : List (Nat × Entry)}
  {c : Nat × Entry}

/-- What the bits and the sizes do not change. -/
def label (c : Nat × Entry) : Nat × Bytes := (c.1, c.2.key)

namespace Holds

theorem key_mem (h : p.Holds newer older) (hc : c ∈ newer ++ older) :
    p.index.lookup c.2.key = some c.1 := (h.index _ _).mpr ⟨c.2, hc, rfl⟩

/-- Two nodes with one key are the same node. -/
theorem eq_of_key (h : p.Holds newer older) {d : Nat × Entry} (hc : c ∈ newer ++ older)
    (hd : d ∈ newer ++ older) (hkey : c.2.key = d.2.key) : c = d := by
  have hid := h.key_mem hc
  rw [hkey, h.key_mem hd] at hid
  exact (List.inj_on_of_nodup_map h.distinct hc hd (Option.some.inj hid).symm)

theorem keys_nodup (h : p.Holds newer older) :
    ((newer ++ older).map fun c => c.2.key).Nodup := by
  have hnd : (newer ++ older).Nodup := h.distinct.of_map
  exact (List.nodup_map_iff_inj_on hnd).mpr fun c hc d hd hkey => h.eq_of_key hc hd hkey

theorem lookup_none (h : p.Holds newer older) {key : Bytes} :
    p.index.lookup key = none ↔ ∀ c ∈ newer ++ older, c.2.key ≠ key := by
  constructor
  · rintro hnone c hc rfl
    simp [h.key_mem hc] at hnone
  · intro hnot
    refine Option.eq_none_iff_forall_ne_some.mpr fun n hn => ?_
    obtain ⟨e, he, hkey⟩ := (h.index key n).mp hn
    exact hnot _ he hkey

/-- No other node has the key. -/
theorem key_ne (h : p.Holds newer older) (hsplit : newer ++ older = l ++ c :: m) :
    (∀ d ∈ l, d.2.key ≠ c.2.key) ∧ ∀ d ∈ m, d.2.key ≠ c.2.key := by
  have hkeys := h.keys_nodup
  rw [hsplit, List.map_append, List.map_cons, List.nodup_middle, List.nodup_cons,
    List.mem_append, not_or] at hkeys
  constructor
  · intro d hd heq
    exact hkeys.1.1 (heq ▸ List.mem_map_of_mem hd)
  · intro d hd heq
    exact hkeys.1.2 (heq ▸ List.mem_map_of_mem hd)

/-- New values for the nodes, with the same keys in the same places. -/
theorem relabel (h : p.Holds newer older) (hsame : l.map label = (newer ++ older).map label)
    {heap : Heap Nat Entry} {memory : Counter} (hnodes : Seg heap none l none)
    (hframe : ∀ n ∉ (newer ++ older).map Prod.fst, heap n = p.heap n)
    (hmemory : memory = .exact (l.map fun c => c.2.weight).sum) :
    Holds { p with heap := heap, memoryUsed := memory } (l.take newer.length)
      (l.drop newer.length) := by
  have hids : l.map Prod.fst = (newer ++ older).map Prod.fst := by
    have hfst := congrArg (List.map Prod.fst) hsame
    rwa [List.map_map, List.map_map] at hfst
  have hfirst : first l none = first (newer ++ older) none := by
    rw [first, first, ← List.head?_map, ← List.head?_map, hids]
  have hlast : last none l = last none (newer ++ older) := by
    rw [last, last, ← List.getLast?_map, ← List.getLast?_map, hids]
  have hhand : last none (l.take newer.length) = last none newer := by
    rw [last, last, ← List.getLast?_map, ← List.getLast?_map, List.map_take, hids,
      ← List.map_take, List.take_left]
  constructor
  · rwa [List.take_append_drop]
  · rw [List.take_append_drop, hids]
    exact h.distinct
  · rw [List.take_append_drop, hids]
    exact fun n hn => (hframe n hn).trans (h.free n hn)
  · rw [List.take_append_drop, hids]
    exact h.fresh
  · rw [List.take_append_drop, hfirst]
    exact h.head
  · rw [List.take_append_drop, hlast]
    exact h.tail
  · rw [hhand]
    exact h.hand
  · intro key n
    have hmem : ∀ l : List (Nat × Entry),
        (∃ e, (n, e) ∈ l ∧ e.key = key) ↔ (n, key) ∈ l.map label := by
      intro l
      simp [label]
    rw [List.take_append_drop, hmem, hsame, ← hmem]
    exact h.index key n
  · rwa [List.take_append_drop]

end Holds

/-! ## The index -/

theorem index_insert {index : Map Bytes Nat}
    (h : ∀ key n, index.lookup key = some n ↔ ∃ e, (n, e) ∈ l ∧ e.key = key) {e : Entry}
    (hnew : ∀ c ∈ l, c.2.key ≠ e.key) (n : Nat) (key : Bytes) (m : Nat) :
    (index.insert e.key n).lookup key = some m ↔ ∃ e', (m, e') ∈ (n, e) :: l ∧ e'.key = key := by
  rw [lookup_insert_eq_ite]
  split_ifs with hself
  · subst hself
    constructor
    · intro heq
      exact ⟨e, by rw [← Option.some.inj heq]; exact List.mem_cons_self, rfl⟩
    · rintro ⟨e', he', hkey⟩
      obtain heq | he' := List.mem_cons.mp he'
      · rw [(Prod.mk.inj heq).1]
      · exact absurd hkey (hnew _ he')
  · rw [h]
    refine exists_congr fun e' => and_congr_left fun hkey => ?_
    rw [List.mem_cons, or_iff_right]
    rintro heq
    exact hself (by rw [← hkey, (Prod.mk.inj heq).2])

theorem index_erase {index : Map Bytes Nat}
    (h : ∀ key n, index.lookup key = some n ↔ ∃ e, (n, e) ∈ l ++ c :: m ∧ e.key = key)
    (hold : ∀ d ∈ l ++ m, d.2.key ≠ c.2.key) (key : Bytes) (n : Nat) :
    (index.erase c.2.key).lookup key = some n ↔ ∃ e, (n, e) ∈ l ++ m ∧ e.key = key := by
  rw [lookup_erase_eq_ite]
  split_ifs with hself
  · subst hself
    refine iff_of_false (fun hnone => nomatch hnone) ?_
    rintro ⟨e, he, hkey⟩
    exact hold _ he hkey
  · rw [h]
    refine exists_congr fun e => and_congr_left fun hkey => ?_
    rw [List.mem_append, List.mem_cons, List.mem_append]
    refine or_congr_right (or_iff_right ?_)
    rintro rfl
    exact hself hkey.symm

/-! ## Taking a node out -/

theorem unlink_eq (hnodes : Seg p.heap none (l ++ c :: m) none)
    (hdistinct : ((l ++ c :: m).map Prod.fst).Nodup) (hhead : p.head = first (l ++ c :: m) none)
    (htail : p.tail = last none (l ++ c :: m)) :
    ∃ heap, p.unlink c.1 = some { p with
        heap := heap, head := first (l ++ m) none, tail := last none (l ++ m) } ∧
      Seg heap none (l ++ m) none ∧ ∀ n ∉ (l ++ m).map Prod.fst, heap n = p.heap n := by
  obtain ⟨heap₁, heap₂, hnext, hkept, hprev, hseg, hframe⟩ := hnodes.unlink hdistinct
  have hhead' : (if (last none l).isNone then first m none else p.head) = first (l ++ m) none := by
    cases l with
    | nil => rfl
    | cons d l => rw [if_neg (by simp [last]), hhead]; rfl
  have htail' : (if (first m none).isNone then last none l else p.tail) = last none (l ++ m) := by
    cases m with
    | nil => simp
    | cons d m =>
      rw [if_neg (by simp), htail, last_append, last_append, last_cons, last_cons, last_cons]
  refine ⟨heap₂, ?_, hseg, hframe⟩
  simp only [unlink, hnodes.middle, hkept, hnext, hprev, hhead', htail', Option.bind_eq_bind,
    Option.bind_some]

/-- Deleting a node that has been unlinked. -/
theorem Holds.delete (h : p.Holds newer older) (hsplit : newer ++ older = l ++ c :: m)
    (hrest : newer' ++ older' = l ++ m) {heap : Heap Nat Entry}
    (hnodes : Seg heap none (l ++ m) none)
    (hframe : ∀ n ∉ (l ++ m).map Prod.fst, heap n = p.heap n) :
    Holds { p with
      heap := Function.update heap c.1 none
      head := first (l ++ m) none
      tail := last none (l ++ m)
      hand := last none newer'
      index := p.index.erase c.2.key
      memoryUsed := p.memoryUsed.sub c.2.weight } newer' older' := by
  have hdistinct := h.distinct
  have hmemory := h.memory
  rw [hsplit, List.map_append, List.map_cons, List.nodup_middle, ← List.map_append,
    List.nodup_cons] at hdistinct
  rw [hsplit, List.map_append, List.map_cons, List.sum_append, List.sum_cons] at hmemory
  have hmem : ∀ d, d ∈ newer ++ older ↔ d = c ∨ d ∈ l ++ m := by
    intro d
    simp only [hsplit, List.mem_append, List.mem_cons]
    tauto
  constructor
  · rw [hrest]
    exact hnodes.update hdistinct.1 _
  · rw [hrest]
    exact hdistinct.2
  · intro n hn
    rw [hrest] at hn
    dsimp only
    by_cases hself : n = c.1
    · rw [hself, Function.update_self]
    · rw [Function.update_of_ne hself, hframe n hn]
      refine h.free n fun hn' => ?_
      obtain ⟨d, hd, rfl⟩ := List.mem_map.mp hn'
      obtain rfl | hd := (hmem d).mp hd
      · exact hself rfl
      · exact hn (List.mem_map_of_mem hd)
  · intro n hn
    rw [hrest] at hn
    obtain ⟨d, hd, rfl⟩ := List.mem_map.mp hn
    exact h.fresh _ (List.mem_map_of_mem ((hmem d).mpr (Or.inr hd)))
  · rw [hrest]
  · rw [hrest]
  · rfl
  · rw [hrest]
    refine index_erase (hsplit ▸ h.index) fun d hd => ?_
    obtain ⟨hl, hm⟩ := h.key_ne hsplit
    exact (List.mem_append.mp hd).elim (hl d) (hm d)
  · rw [hrest, List.map_append, List.sum_append]
    simp only [hmemory]
    rw [Counter.exact_sub (by omega)]
    congr 1
    omega

/-! ## touch, add and remove -/

/-- What `f` makes of the node with a key. -/
def amend (key : Bytes) (f : Entry → Entry) (c : Nat × Entry) : Nat × Entry :=
  if c.2.key = key then (c.1, f c.2) else c

theorem amend_of_ne {key : Bytes} (hne : ∀ c ∈ l, c.2.key ≠ key) (f : Entry → Entry) :
    l.map (amend key f) = l := by
  refine (List.map_congr_left fun c hc => ?_).trans (List.map_id l)
  exact if_neg (hne c hc)

theorem filter_of_ne {key : Bytes} (hne : ∀ c ∈ l, c.2.key ≠ key) :
    l.filter (fun c => c.2.key ≠ key) = l :=
  List.filter_eq_self.mpr fun c hc => by simpa using hne c hc

theorem Holds.amend_eq (h : p.Holds newer older) (hsplit : newer ++ older = l ++ c :: m)
    (f : Entry → Entry) :
    (newer ++ older).map (amend c.2.key f) = l ++ (c.1, f c.2) :: m := by
  obtain ⟨hl, hm⟩ := h.key_ne hsplit
  rw [hsplit, List.map_append, List.map_cons, amend_of_ne hl, amend_of_ne hm, amend, if_pos rfl]

theorem Holds.filter_eq (h : p.Holds newer older) (hsplit : newer ++ older = l ++ c :: m) :
    (newer ++ older).filter (fun d => d.2.key ≠ c.2.key) = l ++ m := by
  obtain ⟨hl, hm⟩ := h.key_ne hsplit
  rw [hsplit, List.filter_append, List.filter_cons_of_neg (by simp), filter_of_ne hl,
    filter_of_ne hm]

/-- Writing to a node. -/
theorem Holds.write (h : p.Holds newer older) (hc : c ∈ newer ++ older) {f : Entry → Entry}
    (hkey : (f c.2).key = c.2.key) : ∃ x, p.heap c.1 = some x ∧ x.val = c.2 ∧
      Holds { p with
        heap := Function.update p.heap c.1 (some { x with val := f c.2 })
        memoryUsed := (p.memoryUsed.sub c.2.weight).add (f c.2).weight }
        (newer.map (amend c.2.key f)) (older.map (amend c.2.key f)) := by
  obtain ⟨l, m, hsplit⟩ := List.append_of_mem hc
  have hnodes := h.nodes
  have hdistinct := h.distinct
  have hmemory := h.memory
  rw [hsplit] at hnodes hdistinct hmemory
  rw [List.map_append, List.map_cons, List.sum_append, List.sum_cons] at hmemory
  have hlabel : (l ++ (c.1, f c.2) :: m).map label = (newer ++ older).map label := by
    simp [hsplit, label, hkey]
  have hcells := h.amend_eq hsplit f
  rw [List.map_append] at hcells
  have htake : (l ++ (c.1, f c.2) :: m).take newer.length = newer.map (amend c.2.key f) := by
    rw [← hcells, List.take_left' (List.length_map _)]
  have hdrop : (l ++ (c.1, f c.2) :: m).drop newer.length = older.map (amend c.2.key f) := by
    rw [← hcells, List.drop_left' (List.length_map _)]
  refine ⟨_, hnodes.middle, rfl, ?_⟩
  rw [← htake, ← hdrop]
  refine h.relabel hlabel (hnodes.write hdistinct (f c.2)) (fun n hn => ?_) ?_
  · refine Function.update_of_ne ?_ _ _
    rintro rfl
    exact hn (List.mem_map_of_mem hc)
  · rw [hmemory, List.map_append, List.map_cons, List.sum_append, List.sum_cons,
      Counter.exact_sub (by omega), Counter.exact_add]
    congr 1
    dsimp only
    omega

theorem Holds.touch (h : p.Holds newer older) (key : Bytes) : ∃ q, p.touch key = some q ∧
    q.Holds (newer.map (amend key fun e => { e with visited := true }))
      (older.map (amend key fun e => { e with visited := true })) := by
  cases hk : p.index.lookup key with
  | none =>
    have hne := h.lookup_none.mp hk
    refine ⟨p, by simp [SIEVE.touch, hk], ?_⟩
    rwa [amend_of_ne fun c hc => hne c (List.mem_append_left _ hc),
      amend_of_ne fun c hc => hne c (List.mem_append_right _ hc)]
  | some n =>
    obtain ⟨e, he, rfl⟩ := (h.index key n).mp hk
    obtain ⟨x, hx, hval, hholds⟩ := h.write he (f := fun e => { e with visited := true }) rfl
    have hmemory : (p.memoryUsed.sub e.weight).add e.weight = p.memoryUsed := by
      have hle : e.weight ≤ ((newer ++ older).map fun c => c.2.weight).sum := by
        obtain ⟨l, m, hsplit⟩ := List.append_of_mem he
        rw [hsplit, List.map_append, List.sum_append, List.map_cons, List.sum_cons]
        dsimp only
        omega
      rw [h.memory, Counter.exact_sub hle, Counter.exact_add, Nat.sub_add_cancel hle]
    have hweight : Entry.weight { e with visited := true } = e.weight := rfl
    refine ⟨_, ?_, hholds⟩
    simp only [SIEVE.touch, hk, Linked.modify, hx, Option.map_some, Option.bind_eq_bind,
      Option.bind_some, hweight, hmemory, hval]

/-- A new node goes to the head, and the hand stays where it is. -/
theorem Holds.add_new (h : p.Holds newer older) {key : Bytes} (hk : p.index.lookup key = none)
    (size : Nat) : ∃ q, p.add key size = some q ∧
      q.Holds (if newer = [] then [] else (p.next, ⟨key, size, false⟩) :: newer)
        (if newer = [] then (p.next, ⟨key, size, false⟩) :: older else older) := by
  have hfresh : p.next ∉ (newer ++ older).map Prod.fst := fun hn => (h.fresh _ hn).false
  have hold := h.nodes.update hfresh (some ⟨⟨key, size, false⟩, none, p.head⟩)
  obtain ⟨heap, hprev, hseg, hframe⟩ := hold.linkPrev h.distinct (some p.next)
  rw [← h.head] at hprev
  have hnew : heap p.next = some ⟨⟨key, size, false⟩, none, first (newer ++ older) none⟩ := by
    rw [hframe _ hfresh, Function.update_self, h.head]
  obtain ⟨newer', older', hnewer, holder, hcells, hhand⟩ : ∃ newer' older',
      (if newer = [] then [] else (p.next, ⟨key, size, false⟩) :: newer) = newer' ∧
      (if newer = [] then (p.next, ⟨key, size, false⟩) :: older else older) = older' ∧
      newer' ++ older' = (p.next, (⟨key, size, false⟩ : Entry)) :: (newer ++ older) ∧
        p.hand = last none newer' := by
    refine ⟨_, _, rfl, rfl, ?_⟩
    cases newer with
    | nil => exact ⟨rfl, h.hand⟩
    | cons d newer =>
      refine ⟨rfl, ?_⟩
      rw [h.hand, if_neg (List.cons_ne_nil _ _), last_cons, last_cons, last_cons]
  rw [hnewer, holder]
  refine ⟨{ p with
    heap := heap
    head := some p.next
    tail := p.tail.or (some p.next)
    index := p.index.insert key p.next
    memoryUsed := p.memoryUsed.add (key.length + size)
    next := p.next + 1 }, ?_, ?_⟩
  · simp only [SIEVE.add, hk, hprev, Option.bind_eq_bind, Option.bind_some]
  constructor
  · rw [hcells]
    exact ⟨hnew, hseg⟩
  · rw [hcells, List.map_cons, List.nodup_cons]
    exact ⟨hfresh, h.distinct⟩
  · intro n hn
    rw [hcells, List.map_cons, List.mem_cons, not_or] at hn
    dsimp only
    rw [hframe n hn.2, Function.update_of_ne hn.1, h.free n hn.2]
  · intro n hn
    rw [hcells, List.map_cons, List.mem_cons] at hn
    obtain rfl | hn := hn
    · exact Nat.lt_succ_self _
    · exact (h.fresh n hn).trans (Nat.lt_succ_self _)
  · rw [hcells]
    rfl
  · rw [hcells, last_cons]
    simp [h.tail, last]
  · exact hhand
  · rw [hcells]
    exact index_insert (e := ⟨key, size, false⟩) h.index (h.lookup_none.mp hk) p.next
  · rw [hcells, List.map_cons, List.sum_cons, h.memory, Counter.exact_add, Nat.add_comm]
    rfl

theorem Holds.add_old (h : p.Holds newer older) (hc : c ∈ newer ++ older) (size : Nat) :
    ∃ q, p.add c.2.key size = some q ∧
      q.Holds (newer.map (amend c.2.key fun e => { e with value := size }))
        (older.map (amend c.2.key fun e => { e with value := size })) := by
  obtain ⟨x, hx, hval, hholds⟩ := h.write hc (f := fun e => { e with value := size }) rfl
  have hweight : Entry.weight { c.2 with value := size } = c.2.key.length + size := rfl
  refine ⟨_, ?_, hholds⟩
  simp only [SIEVE.add, h.key_mem hc, Linked.modify, hx, Option.map_some, Option.bind_eq_bind,
    Option.bind_some, hweight, hval]

/-- The hand only moves if it is at the node, and then to the node before. -/
theorem Holds.hand_filter (h : p.Holds newer older) (hc : c ∈ newer ++ older) : ∃ l m,
    newer ++ older = l ++ c :: m ∧ (if p.hand = some c.1 then last none l else p.hand) =
      last none (newer.filter fun d => d.2.key ≠ c.2.key) := by
  have hdistinct := h.distinct
  rw [h.hand]
  obtain hc | hc := List.mem_append.mp hc
  · obtain ⟨a, b, rfl⟩ := List.append_of_mem hc
    have hsplit : a ++ c :: b ++ older = a ++ c :: (b ++ older) := by simp
    obtain ⟨ha, hb⟩ := h.key_ne hsplit
    refine ⟨a, b ++ older, hsplit, ?_⟩
    rw [List.filter_append, List.filter_cons_of_neg (by simp), filter_of_ne ha,
      filter_of_ne fun d hd => hb d (List.mem_append_left _ hd)]
    by_cases hnil : b = []
    · simp [hnil]
    · have hbefore : last none (a ++ c :: b) = last none b := by
        rw [last_append, last_cons, last_of_ne_nil hnil]
      have hafter : last none (a ++ b) = last none b := by rw [last_append, last_of_ne_nil hnil]
      rw [hbefore, hafter, if_neg]
      intro hlast
      have hmem := mem_of_last hlast
      simp only [List.map_append, List.map_cons, List.append_assoc, List.cons_append,
        List.nodup_middle, List.nodup_cons, List.mem_append, not_or] at hdistinct
      exact hdistinct.1.2.1 hmem
  · obtain ⟨a, b, rfl⟩ := List.append_of_mem hc
    have hsplit : newer ++ (a ++ c :: b) = newer ++ a ++ c :: b := by simp
    obtain ⟨ha, -⟩ := h.key_ne hsplit
    refine ⟨newer ++ a, b, hsplit, ?_⟩
    rw [filter_of_ne fun d hd => ha d (List.mem_append_left _ hd)]
    refine if_neg fun hlast => ?_
    have hmem := mem_of_last hlast
    simp only [List.map_append, List.map_cons, ← List.append_assoc, List.nodup_middle,
      List.nodup_cons, List.mem_append, not_or] at hdistinct
    exact hdistinct.1.1.1 hmem

theorem Holds.remove (h : p.Holds newer older) (key : Bytes) : ∃ q, p.remove key = some q ∧
    q.Holds (newer.filter fun c => c.2.key ≠ key) (older.filter fun c => c.2.key ≠ key) := by
  cases hk : p.index.lookup key with
  | none =>
    have hne := h.lookup_none.mp hk
    refine ⟨p, by simp [SIEVE.remove, hk], ?_⟩
    rwa [filter_of_ne fun c hc => hne c (List.mem_append_left _ hc),
      filter_of_ne fun c hc => hne c (List.mem_append_right _ hc)]
  | some n =>
    obtain ⟨e, he, rfl⟩ := (h.index key n).mp hk
    obtain ⟨l, m, hsplit, hhand⟩ := h.hand_filter he
    have hrest := h.filter_eq hsplit
    rw [List.filter_append] at hrest
    have hnodes := h.nodes
    have hdistinct := h.distinct
    have hhead := h.head
    have htail := h.tail
    rw [hsplit] at hnodes hdistinct hhead htail
    obtain ⟨heap, hunlink, hseg, hframe⟩ := unlink_eq (p := { p with
      index := p.index.erase e.key, memoryUsed := p.memoryUsed.sub e.weight })
      hnodes hdistinct hhead htail
    have hgone : n ∉ (l ++ m).map Prod.fst := by
      rw [List.map_append, List.map_cons, List.nodup_middle, ← List.map_append,
        List.nodup_cons] at hdistinct
      exact hdistinct.1
    have hholds := h.delete hsplit hrest hseg hframe
    refine ⟨_, ?_, hholds⟩
    simp only [SIEVE.remove, hk, hnodes.middle, hunlink, hframe n hgone, hhand, SIEVE.free,
      Option.bind_eq_bind, Option.bind_some]

end SIEVE

end PolyCache
