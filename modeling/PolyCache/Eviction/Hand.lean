import PolyCache.Eviction.SIEVE

/-!
# The hand of SIEVE

What `evict` does to the linked nodes, and how it compares with the algorithm. The walk from the
hand to the head is the algorithm's. But when the hand passes the head, `evict` takes the tail
without looking at its bit.
-/

namespace PolyCache

open AssocMap Linked

namespace SIEVE

variable {p q : SIEVE} {newer older passed ahead rest l m : List (Nat × Entry)} {c : Nat × Entry}

def clear (c : Nat × Entry) : Nat × Entry := (c.1, { c.2 with visited := false })

/-! ## The walk -/

/-- The walk passes visited nodes and clears their bits. -/
theorem sweep_pass (hvisited : ∀ c ∈ passed, c.2.visited = true)
    (hnodes : Seg p.heap none ((passed ++ ahead).reverse ++ rest) none)
    (hdistinct : (((passed ++ ahead).reverse ++ rest).map Prod.fst).Nodup) (rounds : Nat) :
    ∃ heap, sweep (rounds + passed.length) (first (passed ++ ahead) none) p =
        sweep rounds (first ahead none) { p with heap := heap } ∧
      Seg heap none (ahead.reverse ++ ((passed.map clear).reverse ++ rest)) none ∧
      ∀ n ∉ ((passed ++ ahead).reverse ++ rest).map Prod.fst, heap n = p.heap n := by
  induction passed generalizing p rest with
  | nil => exact ⟨p.heap, rfl, by simpa using hnodes, fun _ _ => rfl⟩
  | cons c passed ih =>
    have hcells : (c :: passed ++ ahead).reverse ++ rest =
        (passed ++ ahead).reverse ++ c :: rest := by simp
    rw [hcells] at hnodes hdistinct ⊢
    have hids : ((passed ++ ahead).reverse ++ clear c :: rest).map Prod.fst =
        ((passed ++ ahead).reverse ++ c :: rest).map Prod.fst := by simp [clear]
    have hwrite := hnodes.write hdistinct { c.2 with visited := false }
    obtain ⟨heap, hsweep, hseg, hframe⟩ := ih
      (p := { p with heap := Function.update p.heap c.1 (some ⟨{ c.2 with visited := false },
        last none (passed ++ ahead).reverse, first rest none⟩) })
      (fun d hd => hvisited d (List.mem_cons_of_mem c hd)) hwrite (hids ▸ hdistinct)
    refine ⟨heap, ?_, by simpa [clear] using hseg, fun n hn => ?_⟩
    · have hbit : c.2.visited = true := hvisited c List.mem_cons_self
      rw [← hsweep, List.length_cons, ← Nat.add_assoc, List.cons_append, first_cons, sweep,
        hnodes.middle]
      simp only [hbit, if_true, last_reverse]
    · rw [hframe n (hids ▸ hn)]
      refine Function.update_of_ne ?_ _ _
      rintro rfl
      simp at hn

/-- Once the victim is known, it is taken out and the hand goes to the node before it. -/
theorem Holds.evictNode (h : p.Holds newer older) (hsplit : newer ++ older = l ++ c :: m) :
    ∃ q, p.evictNode c.1 = some (c.2.key, q) ∧ q.Holds l m := by
  have hnodes := h.nodes
  have hdistinct := h.distinct
  have hhead := h.head
  have htail := h.tail
  rw [hsplit] at hnodes hdistinct hhead htail
  obtain ⟨heap, hunlink, hseg, hframe⟩ := unlink_eq (p := { p with
    hand := last none l, memoryUsed := p.memoryUsed.sub c.2.weight
    index := p.index.erase c.2.key }) hnodes hdistinct hhead htail
  have hholds := h.delete hsplit rfl hseg hframe
  refine ⟨_, ?_, hholds⟩
  simp only [SIEVE.evictNode, hnodes.middle, hunlink, Option.bind_eq_bind, Option.bind_some]
  rfl

theorem Holds.length_le (h : p.Holds newer older) : (newer ++ older).length ≤ p.next := by
  have hsub : ((newer ++ older).map Prod.fst).Subperm (List.range p.next) :=
    List.subperm_of_subset h.distinct fun n hn => List.mem_range.mpr (h.fresh n hn)
  simpa using hsub.length_le

/-- The walk up to a node that it does not pass. -/
theorem Holds.sweep (h : p.Holds newer older)
    (hcells : newer ++ older = (passed ++ ahead).reverse ++ rest)
    (hvisited : ∀ c ∈ passed, c.2.visited = true) : ∃ heap,
      SIEVE.sweep (p.next + 1) (first (passed ++ ahead) none) p =
        SIEVE.sweep (p.next + 1 - passed.length) (first ahead none) { p with heap := heap } ∧
      let cells := ahead.reverse ++ ((passed.map clear).reverse ++ rest)
      Holds { p with heap := heap } (cells.take newer.length) (cells.drop newer.length) := by
  have hnodes := h.nodes
  have hdistinct := h.distinct
  have hlength := h.length_le
  rw [hcells] at hnodes hdistinct
  obtain ⟨heap, hsweep, hseg, hframe⟩ := sweep_pass hvisited hnodes hdistinct
    (p.next + 1 - passed.length)
  have hrounds : p.next + 1 - passed.length + passed.length = p.next + 1 := by
    have hsize := congrArg List.length hcells
    simp only [List.length_append, List.length_reverse] at hsize hlength
    omega
  rw [hrounds] at hsweep
  have hlabel : (ahead.reverse ++ ((passed.map clear).reverse ++ rest)).map label =
      (newer ++ older).map label := by
    simp [hcells, label, clear, Function.comp_def]
  refine ⟨heap, hsweep, h.relabel hlabel hseg (hcells ▸ hframe) ?_⟩
  simp [h.memory, hcells, ← List.map_reverse, Function.comp_def]
  rfl

/-! ## The victim -/

/-- The entry that `evict` takes, as the walk leaves it. -/
def chosen (p : SIEVE) : Option Entry := do
  let tail ← p.tail
  let (victim, p) ← sweep (p.next + 1) (p.hand.or p.tail) p
  let x ← p.heap (victim.getD tail)
  some x.val

/-- The nodes before the victim, the victim and the nodes behind it, as a walk over `walk` leaves
them. -/
inductive Taken (walk rest : List (Nat × Entry)) :
    List (Nat × Entry) → Nat × Entry → List (Nat × Entry) → Prop where
  | found {passed ahead : List (Nat × Entry)} {c : Nat × Entry}
      (split : walk = passed ++ c :: ahead) (visited : ∀ d ∈ passed, d.2.visited = true)
      (unvisited : c.2.visited = false) :
      Taken walk rest ahead.reverse c ((passed.map clear).reverse ++ rest)
  | tail {l : List (Nat × Entry)} {c : Nat × Entry} (visited : ∀ d ∈ walk, d.2.visited = true)
      (split : (walk.map clear).reverse ++ rest = l ++ [c]) : Taken walk rest l c []

theorem Holds.evict_of_sweep {victim : Option Nat} {swept : SIEVE} {tail : Nat}
    (htail : p.tail = some tail)
    (hsweep : SIEVE.sweep (p.next + 1) (p.hand.or p.tail) p = some (victim, swept))
    (hvictim : victim.getD tail = c.1) (h : swept.Holds newer older)
    (hsplit : newer ++ older = l ++ c :: m) :
    ∃ q, p.chosen = some c.2 ∧ p.evict = some (c.2.key, q) ∧ q.Holds l m := by
  obtain ⟨q, hevict, hholds⟩ := h.evictNode hsplit
  have hnodes := h.nodes
  rw [hsplit] at hnodes
  rw [htail] at hsweep
  refine ⟨q, ?_, ?_, hholds⟩
  · simp only [chosen, htail, hsweep, hvictim, hnodes.middle, Option.bind_eq_bind,
      Option.bind_some]
  · simp only [evict, htail, hsweep, hvictim, hevict, Option.bind_eq_bind, Option.bind_some]

/-- An eviction takes the first node of the walk whose bit is clear, and the tail if there is
none. -/
theorem Holds.evict_walk (h : p.Holds newer older) {walk : List (Nat × Entry)}
    (hcells : newer ++ older = walk.reverse ++ rest)
    (hstart : p.hand.or p.tail = first walk none) (hwalk : walk ≠ []) :
    ∃ l c m q, Taken walk rest l c m ∧ p.chosen = some c.2 ∧ p.evict = some (c.2.key, q) ∧
      q.Holds l m := by
  have hlength := h.length_le
  rw [hcells, List.length_append, List.length_reverse] at hlength
  obtain ⟨tail, htail⟩ : ∃ tail, p.tail = some tail := by
    have hne : newer ++ older ≠ [] := by simp [hcells, hwalk]
    obtain ⟨d, hd⟩ := Option.ne_none_iff_exists'.mp (mt List.getLast?_eq_none_iff.mp hne)
    exact ⟨d.1, by rw [h.tail, last, hd]; rfl⟩
  obtain hall | ⟨passed, c, ahead, rfl, hpassed, hclear⟩ :=
    Sieve.split_clear (fun d : Nat × Entry => d.2.visited) walk
  · have hcells' : newer ++ older = (walk ++ []).reverse ++ rest := by simpa using hcells
    obtain ⟨heap, hsweep, hholds⟩ := h.sweep hcells' hall
    obtain ⟨rounds, hrounds⟩ : ∃ rounds, p.next + 1 - walk.length = rounds + 1 :=
      ⟨p.next - walk.length, by omega⟩
    have hne : (walk.map clear).reverse ++ rest ≠ [] := by simp [hwalk]
    obtain ⟨l, c, hlast⟩ := (List.eq_nil_or_concat' _).resolve_left hne
    have hc : tail = c.1 := by
      have hlast' := hholds.tail
      rw [List.take_append_drop, List.reverse_nil, List.nil_append, hlast, last_concat] at hlast'
      exact Option.some.inj (htail.symm.trans hlast')
    have hwalked : SIEVE.sweep (p.next + 1) (p.hand.or p.tail) p =
        some (none, { p with heap := heap }) := by
      rw [hstart, ← List.append_nil walk, hsweep, hrounds]
      rfl
    obtain ⟨q, hchosen, hevict, hq⟩ := hholds.evict_of_sweep htail hwalked hc
      (by rw [List.take_append_drop]; exact hlast)
    exact ⟨l, c, [], q, .tail hall hlast, hchosen, hevict, hq⟩
  · obtain ⟨heap, hsweep, hholds⟩ := h.sweep hcells hpassed
    rw [List.length_append, List.length_cons] at hlength
    obtain ⟨rounds, hrounds⟩ : ∃ rounds, p.next + 1 - passed.length = rounds + 1 :=
      ⟨p.next - passed.length, by omega⟩
    have hsplit : (c :: ahead).reverse ++ ((passed.map clear).reverse ++ rest) =
        ahead.reverse ++ c :: ((passed.map clear).reverse ++ rest) := by simp
    have hcell := hholds.nodes
    rw [List.take_append_drop, hsplit] at hcell
    have hwalked : SIEVE.sweep (p.next + 1) (p.hand.or p.tail) p =
        some (some c.1, { p with heap := heap }) := by
      rw [hstart, hsweep, hrounds, first_cons, SIEVE.sweep, hcell.middle]
      simp only [hclear, Bool.false_eq_true, if_false]
    obtain ⟨q, hchosen, hevict, hq⟩ := hholds.evict_of_sweep htail hwalked rfl
      (by rw [List.take_append_drop]; exact hsplit)
    exact ⟨_, c, _, q, .found rfl hpassed hclear, hchosen, hevict, hq⟩

/-- The walk starts at the hand, and at the tail if the hand is null. -/
theorem Holds.walk (h : p.Holds newer older) (hne : newer ++ older ≠ []) : ∃ walk rest,
    walk ≠ [] ∧ newer ++ older = walk.reverse ++ rest ∧ p.hand.or p.tail = first walk none ∧
      (newer = [] ∧ walk = older.reverse ∧ rest = [] ∨
        newer ≠ [] ∧ walk = newer.reverse ∧ rest = older) := by
  by_cases hnil : newer = []
  · subst hnil
    refine ⟨older.reverse, [], by simpa using hne, by simp, ?_, Or.inl ⟨rfl, rfl, rfl⟩⟩
    rw [h.hand, h.tail, ← last_reverse, List.reverse_reverse]
    rfl
  · refine ⟨newer.reverse, older, by simpa using hnil, by simp, ?_, Or.inr ⟨hnil, rfl, rfl⟩⟩
    obtain ⟨l, c, rfl⟩ := (List.eq_nil_or_concat' newer).resolve_left hnil
    rw [h.hand, ← last_reverse, List.reverse_reverse, last_concat]
    rfl

/-! ## The entries -/

/-- The entries as the contract counts them. -/
def listing (l : List (Nat × Entry)) : List (Bytes × Nat) := l.map fun c => (c.2.key, c.2.value)

/-- The nodes hold the entries. -/
def Entries (p : SIEVE) (l : List (Bytes × Nat)) : Prop :=
  ∃ newer older, p.Holds newer older ∧ l = listing (newer ++ older)

theorem listing_filter (l : List (Nat × Entry)) (key : Bytes) :
    listing (l.filter fun c => c.2.key ≠ key) = (listing l).filter fun b => b.1 ≠ key := by
  rw [listing, listing, List.filter_map]
  rfl

theorem listing_visited (l : List (Nat × Entry)) (key : Bytes) :
    listing (l.map (amend key fun e => { e with visited := true })) = listing l := by
  rw [listing, listing, List.map_map]
  refine List.map_congr_left fun c _ => ?_
  rw [Function.comp_apply, amend]
  split_ifs <;> rfl

theorem Taken.listing {walk : List (Nat × Entry)} (h : Taken walk rest l c m) :
    listing (l ++ c :: m) = listing (walk.reverse ++ rest) := by
  cases h with
  | found split => simp [split, SIEVE.listing, clear, Function.comp_def]
  | tail _ split => simp [← split, SIEVE.listing, clear, Function.comp_def]

theorem refines : policy.Refines Entries where
  nodup := by
    rintro p l ⟨newer, older, h, rfl⟩
    rw [listing, List.map_map]
    exact h.keys_nodup
  memory := by
    rintro p l ⟨newer, older, h, rfl⟩
    rw [listing, List.map_map]
    exact h.memory
  empty := ⟨[], [], holds_empty, rfl⟩
  touch := by
    rintro p l ⟨newer, older, h, rfl⟩ key
    obtain ⟨q, htouch, hq⟩ := h.touch key
    refine ⟨q, _, htouch, ⟨_, _, hq, rfl⟩, ?_⟩
    rw [← List.map_append, listing_visited]
  add := by
    rintro p l ⟨newer, older, h, rfl⟩ key size
    cases hk : p.index.lookup key with
    | none =>
      obtain ⟨q, hadd, hq⟩ := h.add_new hk size
      refine ⟨q, _, hadd, ⟨_, _, hq, rfl⟩, ?_⟩
      rw [← listing_filter, filter_of_ne (h.lookup_none.mp hk)]
      by_cases hnil : newer = []
      · simp [hnil, listing]
      · simp [hnil, listing]
    | some n =>
      obtain ⟨e, he, rfl⟩ := (h.index key n).mp hk
      obtain ⟨q, hadd, hq⟩ := h.add_old he size
      obtain ⟨l, m, hsplit⟩ := List.append_of_mem he
      refine ⟨q, _, hadd, ⟨_, _, hq, rfl⟩, ?_⟩
      have hcells := h.amend_eq hsplit fun e => { e with value := size }
      have hrest := h.filter_eq hsplit
      rw [← List.map_append, ← listing_filter, hcells, hrest]
      simp only [listing, List.map_append, List.map_cons]
      exact List.perm_middle
  remove := by
    rintro p l ⟨newer, older, h, rfl⟩ key
    obtain ⟨q, hremove, hq⟩ := h.remove key
    refine ⟨q, _, hremove, ⟨_, _, hq, rfl⟩, ?_⟩
    rw [← List.filter_append, listing_filter]
  evict_nil := by
    rintro p ⟨newer, older, h, hnil⟩
    have htail := h.tail
    rw [List.map_eq_nil_iff.mp hnil.symm] at htail
    simp [policy, SIEVE.evict, htail]
  evict := by
    rintro p l ⟨newer, older, h, rfl⟩ hne
    obtain ⟨walk, rest, hwalk, hcells, hstart, -⟩ := h.walk (by simpa [listing] using hne)
    obtain ⟨l, c, m, q, htaken, -, hevict, hq⟩ := h.evict_walk hcells hstart hwalk
    have hlisting : listing (newer ++ older) =
        listing l ++ (c.2.key, c.2.value) :: listing m := by
      rw [hcells, ← htaken.listing, listing, List.map_append, List.map_cons]
      rfl
    have hnodup : ((listing (newer ++ older)).map Prod.fst).Nodup := by
      rw [listing, List.map_map]
      exact h.keys_nodup
    rw [hlisting] at hnodup ⊢
    refine ⟨c.2.key, q, _, hevict, by simp, ⟨l, m, hq, rfl⟩, ?_⟩
    rw [filter_ne_middle hnodup, listing, List.map_append]
    rfl

end SIEVE

end PolyCache
