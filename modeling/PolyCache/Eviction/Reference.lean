import PolyCache.Eviction.Hand

/-!
# SIEVE and the algorithm

The nodes stand for a queue of the algorithm, and every operation but `evict` does to them what the
algorithm does to the queue. An eviction does too, unless the hand passes the head and finds the
tail visited: then the tail is taken, and its bit is not looked at.
-/

namespace PolyCache

open Linked

namespace SIEVE

open Sieve (Queue Evicts)

def view (c : Nat × Entry) : Bytes × Bool := (c.2.key, c.2.visited)

/-- The queue that the nodes stand for. -/
def queue (newer older : List (Nat × Entry)) : Queue Bytes where
  ahead := newer.reverse.map view
  behind := older.reverse.map view

def Represents (p : SIEVE) (Q : Queue Bytes) : Prop :=
  ∃ newer older, p.Holds newer older ∧ Q = queue newer older

/-- The calls, with the algorithm in the place of the code. An `evict` that finds no items returns
the empty key. -/
def reference : Transition.System (Queue Bytes) Policy.Event where
  init Q := Q = ⟨[], []⟩
  step Q e Q' := match e with
    | .touch key => Q' = Q.touch key
    | .add key _ => Q' = Q.add key
    | .remove key => Q' = Q.remove key
    | .evict key => if Q.items = [] then key = [] ∧ Q' = Q else Evicts Q key Q'

/-- The hand is not null, everything from it to the head was visited, and so was the tail behind
it. -/
def Skips (Q : Queue Bytes) : Prop :=
  Q.ahead ≠ [] ∧ (∀ x ∈ Q.ahead, x.2 = true) ∧ ∃ key, Q.behind.head? = some (key, true)

/-- No eviction that skips the tail. -/
def Regular (p : SIEVE) (e : Policy.Event) : Prop :=
  ∀ key, e = .evict key → ∀ Q, p.Represents Q → ¬ Skips Q

variable {p q : SIEVE} {newer older l m : List (Nat × Entry)} {c : Nat × Entry} {key : Bytes}

/-! ## touch, add and remove -/

theorem queue_items : (queue newer older).items = (newer ++ older).reverse.map view := by
  simp [queue, Queue.items]

theorem queue_touch : queue (newer.map (amend key fun e => { e with visited := true }))
    (older.map (amend key fun e => { e with visited := true })) =
      (queue newer older).touch key := by
  have hview : ∀ c, view (amend key (fun e => { e with visited := true }) c) =
      if (view c).1 = key then (key, true) else view c := by
    intro c
    by_cases hc : c.2.key = key
    · simp [view, amend, hc]
    · simp [view, amend, hc]
  simp [queue, Queue.touch, ← List.map_reverse, Function.comp_def, hview]

theorem queue_resize (size : Nat) : queue (newer.map (amend key fun e => { e with value := size }))
    (older.map (amend key fun e => { e with value := size })) = queue newer older := by
  have hview : ∀ c, view (amend key (fun e => { e with value := size }) c) = view c := by
    intro c
    by_cases hc : c.2.key = key
    · simp [view, amend, hc]
    · simp [view, amend, hc]
  simp [queue, ← List.map_reverse, Function.comp_def, hview]

theorem queue_push {e : Entry} {n : Nat} (hnew : ∀ c ∈ newer ++ older, c.2.key ≠ e.key)
    (hbit : e.visited = false) :
    queue (if newer = [] then [] else (n, e) :: newer)
      (if newer = [] then (n, e) :: older else older) = (queue newer older).add e.key := by
  have hnot : e.key ∉ (queue newer older).items.map Prod.fst := by
    rw [queue_items, List.map_map]
    rintro hmem
    obtain ⟨c, hc, hkey⟩ := List.mem_map.mp hmem
    exact hnew c (List.mem_reverse.mp hc) hkey
  rw [Queue.add, if_neg hnot]
  by_cases hnil : newer = []
  · simp [hnil, queue, view, hbit]
  · simp [hnil, queue, view, hbit]

theorem queue_remove : queue (newer.filter fun c => c.2.key ≠ key)
    (older.filter fun c => c.2.key ≠ key) = (queue newer older).remove key := by
  rw [queue, Queue.remove, queue, List.filter_map, List.filter_map, List.filter_reverse,
    List.filter_reverse]
  rfl

/-! ## evict -/

variable {walk rest : List (Nat × Entry)}

/-- An unvisited victim is the one the algorithm takes. -/
theorem Taken.evicts (h : Taken walk rest l c m) (hbit : c.2.visited = false) :
    Evicts ⟨walk.map view, rest.reverse.map view⟩ c.2.key (queue l m) := by
  have hclear : ∀ l : List (Nat × Entry), (l.map clear).map view =
      (l.map view).map Sieve.clear := by
    intro l
    simp [clear, view, Sieve.clear, Function.comp_def]
  have hview : view c = (c.2.key, false) := by rw [view, hbit]
  cases h with
  | @found passed ahead _ split visited =>
    have hpassed : ∀ x ∈ passed.map view, x.2 = true := List.forall_mem_map.mpr visited
    have htake : Evicts ⟨passed.map view ++ (c.2.key, false) :: ahead.map view,
        rest.reverse.map view⟩ _ _ := .pass_take hpassed
    rw [split, List.map_append, List.map_cons, hview]
    simpa [queue, ← hclear] using htake
  | tail visited split =>
    have hwalk : ∀ x ∈ walk.map view, x.2 = true := List.forall_mem_map.mpr visited
    have hitems : rest.reverse.map view ++ (walk.map view).map Sieve.clear =
        (c.2.key, false) :: l.reverse.map view := by
      have hsplit := congrArg (fun l => l.reverse.map view) split
      simpa [← hclear, hview] using hsplit
    refine .pass_wrap hwalk ?_ ?_
    · intro hnil
      obtain ⟨hrest, hwalk⟩ := List.append_eq_nil_iff.mp hnil
      simp [hrest, hwalk] at hitems
    · rw [hitems]
      exact .take

/-- A visited victim is a tail that the hand skipped. -/
theorem Taken.visited_iff (h : Taken walk rest l c m) : c.2.visited = true ↔
    (∀ d ∈ walk, d.2.visited = true) ∧ ∃ t, rest.getLast? = some t ∧ t.2.visited = true := by
  cases h with
  | found split _ hbit =>
    refine iff_of_false (by simp [hbit]) fun h => ?_
    have hc := h.1 c (by simp [split])
    rw [hbit] at hc
    contradiction
  | tail visited split =>
    have hlast := congrArg List.getLast? split
    rw [List.getLast?_append, List.getLast?_concat] at hlast
    cases ht : rest.getLast? with
    | none =>
      rw [ht, Option.none_or, List.getLast?_reverse] at hlast
      obtain ⟨d, -, rfl⟩ := List.mem_map.mp (List.mem_of_head? hlast)
      simp [clear]
    | some t =>
      rw [ht, Option.some_or] at hlast
      obtain rfl := Option.some.inj hlast
      refine ⟨fun hc => ⟨visited, _, rfl, hc⟩, ?_⟩
      rintro ⟨-, d, hd, hbit⟩
      cases hd
      exact hbit

theorem skips_iff (hcase : newer = [] ∧ walk = older.reverse ∧ rest = [] ∨
    newer ≠ [] ∧ walk = newer.reverse ∧ rest = older) : Skips (queue newer older) ↔
    (∀ d ∈ walk, d.2.visited = true) ∧ ∃ t, rest.getLast? = some t ∧ t.2.visited = true := by
  obtain ⟨rfl, -, rfl⟩ | ⟨hne, rfl, rfl⟩ := hcase
  · simp [Skips, queue]
  · have hahead : (∀ x ∈ newer.reverse.map view, x.2 = true) ↔
        ∀ d ∈ newer.reverse, d.2.visited = true := List.forall_mem_map
    have hbehind : (∃ key, (rest.reverse.map view).head? = some (key, true)) ↔
        ∃ t, rest.getLast? = some t ∧ t.2.visited = true := by
      rw [List.head?_map, List.head?_reverse]
      cases rest.getLast? <;> simp [view]
    rw [Skips, queue, hahead, hbehind]
    simp [hne]

/-- In the place of a skipped tail the algorithm takes another key. -/
theorem Taken.not_evicts (h : Taken walk rest l c m) (hbit : c.2.visited = true)
    (hwalk : walk ≠ []) (hkeys : ((walk.reverse ++ rest).map fun d => d.2.key).Nodup)
    {Q : Queue Bytes} : ¬ Evicts ⟨walk.map view, rest.reverse.map view⟩ c.2.key Q := by
  intro hevicts
  obtain ⟨hall, t, ht, -⟩ := h.visited_iff.mp hbit
  obtain ⟨r, rfl⟩ := List.getLast?_eq_some_iff.mp ht
  obtain rfl : t = c := by
    cases h with
    | found _ _ unvisited => simp [hbit] at unvisited
    | tail _ split =>
      rw [← List.append_assoc] at split
      exact List.singleton_inj.mp (List.append_inj' split rfl).2
  rw [← List.append_assoc, List.map_append, List.map_singleton, List.nodup_append] at hkeys
  have hother : ∀ d ∈ walk.reverse ++ r, d.2.key ≠ t.2.key := fun d hd =>
    hkeys.2.2 _ (List.mem_map_of_mem hd) _ List.mem_cons_self
  -- the bits from the hand to the head are clear by the time the algorithm meets the tail
  obtain ⟨a, R, htotal⟩ : ∃ a R,
      Evicts ⟨(r ++ [t]).reverse.map view ++ (walk.map view).map Sieve.clear, []⟩ a R :=
    Evicts.total (by simp [Queue.items])
  have hwrap := Evicts.pass_wrap (List.forall_mem_map.mpr hall) (by simp) htotal
  obtain rfl := (hevicts.unique hwrap).1
  obtain ⟨d, hd⟩ := List.exists_mem_of_ne_nil walk hwalk
  have hmem := htotal.mem_ahead ⟨Sieve.clear (view d), List.mem_append_right _
    (List.mem_map_of_mem (List.mem_map_of_mem hd)), rfl⟩
  obtain hmem | hmem := List.mem_append.mp hmem
  · obtain ⟨d, hd, heq⟩ := List.mem_map.mp hmem
    obtain ⟨hkey, hclear⟩ := Prod.mk.inj heq
    rw [List.reverse_append, List.reverse_singleton, List.singleton_append, List.mem_cons,
      List.mem_reverse] at hd
    obtain rfl | hd := hd
    · rw [hbit] at hclear
      contradiction
    · exact hother d (List.mem_append_right _ hd) hkey
  · rw [List.map_map] at hmem
    obtain ⟨d, hd, heq⟩ := List.mem_map.mp hmem
    exact hother d (List.mem_append_left _ (List.mem_reverse.mpr hd)) (Prod.mk.inj heq).1

/-- What `evict` takes from nodes that are not all gone. -/
theorem Holds.evict_agrees (h : p.Holds newer older) (hne : newer ++ older ≠ []) : ∃ e q,
    p.chosen = some e ∧ p.evict = some (e.key, q) ∧
    ((∃ Q', Evicts (queue newer older) e.key Q' ∧ q.Represents Q') ↔
      ¬ Skips (queue newer older)) ∧
    (e.visited = true ↔ Skips (queue newer older)) := by
  obtain ⟨walk, rest, hwalk, hcells, hstart, hcase⟩ := h.walk hne
  obtain ⟨l, c, m, q, htaken, hchosen, hevict, hq⟩ := h.evict_walk hcells hstart hwalk
  -- with a null hand the algorithm wraps first
  have hwrap : ∀ {a Q'}, Evicts (queue newer older) a Q' ↔
      Evicts ⟨walk.map view, rest.reverse.map view⟩ a Q' := by
    intro a Q'
    obtain ⟨rfl, rfl, rfl⟩ | ⟨-, rfl, rfl⟩ := hcase
    · constructor
      · intro hevicts
        cases hevicts with
        | wrap _ rest => exact rest
      · exact .wrap (by simpa using hwalk)
    · rfl
  have hskips := (skips_iff hcase).trans htaken.visited_iff.symm
  refine ⟨c.2, q, hchosen, hevict, ?_, hskips.symm⟩
  rw [hskips, Bool.not_eq_true]
  constructor
  · rintro ⟨Q', hevicts, -⟩
    by_contra hbit
    rw [Bool.not_eq_false] at hbit
    have hkeys := h.keys_nodup
    rw [hcells] at hkeys
    exact htaken.not_evicts hbit hwalk hkeys (hwrap.mp hevicts)
  · intro hbit
    exact ⟨queue l m, hwrap.mpr (htaken.evicts hbit), l, m, hq, rfl⟩

/-! ## Runs -/

theorem Represents.step {Q : Queue Bytes} {e : Policy.Event} (hp : p.Represents Q)
    (hs : policy.Step p e q) (hregular : Regular p e) :
    ∃ Q', reference.step Q e Q' ∧ q.Represents Q' := by
  obtain ⟨newer, older, h, rfl⟩ := hp
  cases hs with
  | @touch _ key hreturns =>
    obtain ⟨q', htouch, hq⟩ := h.touch key
    obtain rfl := Option.some.inj (htouch.symm.trans hreturns)
    exact ⟨_, rfl, _, _, hq, queue_touch.symm⟩
  | @add _ key size hreturns =>
    cases hk : p.index.lookup key with
    | none =>
      obtain ⟨q', hadd, hq⟩ := h.add_new hk size
      obtain rfl := Option.some.inj (hadd.symm.trans hreturns)
      have hpush := queue_push (e := ⟨key, size, false⟩) (n := p.next) (h.lookup_none.mp hk) rfl
      exact ⟨_, rfl, _, _, hq, hpush.symm⟩
    | some n =>
      obtain ⟨e, he, rfl⟩ := (h.index key n).mp hk
      obtain ⟨q', hadd, hq⟩ := h.add_old he size
      obtain rfl := Option.some.inj (hadd.symm.trans hreturns)
      have hmem : e.key ∈ (queue newer older).items.map Prod.fst := by
        rw [queue_items, List.map_map]
        exact List.mem_map.mpr ⟨(n, e), List.mem_reverse.mpr he, rfl⟩
      exact ⟨_, (if_pos hmem).symm, _, _, hq, (queue_resize size).symm⟩
  | @remove _ key hreturns =>
    obtain ⟨q', hremove, hq⟩ := h.remove key
    obtain rfl := Option.some.inj (hremove.symm.trans hreturns)
    exact ⟨_, rfl, _, _, hq, queue_remove.symm⟩
  | @evict _ key hreturns =>
    by_cases hnil : newer ++ older = []
    · have hitems : (queue newer older).items = [] := by rw [queue_items, hnil]; rfl
      have hempty : p.evict = some ([], p) := refines.evict_nil ⟨newer, older, h, by rw [hnil]; rfl⟩
      obtain ⟨rfl, rfl⟩ := Prod.mk.inj (Option.some.inj (hempty.symm.trans hreturns))
      exact ⟨_, (if_pos hitems).mpr ⟨rfl, rfl⟩, newer, older, h, rfl⟩
    · obtain ⟨e, q', -, hevict, hagrees, -⟩ := h.evict_agrees hnil
      obtain ⟨rfl, rfl⟩ := Prod.mk.inj (Option.some.inj (hevict.symm.trans hreturns))
      obtain ⟨Q', hevicts, hq⟩ := hagrees.mpr (hregular _ rfl _ ⟨newer, older, h, rfl⟩)
      have hitems : (queue newer older).items ≠ [] := by
        rw [queue_items]
        simpa only [ne_eq, List.map_eq_nil_iff, List.reverse_eq_nil_iff] using hnil
      exact ⟨Q', (if_neg hitems).mpr hevicts, hq⟩

theorem simulates {h : List Policy.Event} (hr : (policy.system.restrict Regular).Reaches h p) :
    ∃ Q, reference.Reaches h Q ∧ p.Represents Q := by
  induction hr with
  | start hs =>
    obtain rfl : _ = policy.empty := hs
    exact ⟨⟨[], []⟩, .start rfl, [], [], holds_empty, rfl⟩
  | next _ hstep ih =>
    obtain ⟨Q, hQ, hp⟩ := ih
    obtain ⟨Q', hstep', hq⟩ := hp.step hstep.1 hstep.2
    exact ⟨Q', .next hQ hstep', hq⟩

/-- Along runs without a skipped tail the calls do what they do in the algorithm. And from any
reached state that is not empty, an eviction takes the key that the algorithm takes and leaves what
it leaves exactly if it does not skip the tail. -/
theorem evict_reference {h : List Policy.Event} (hr : policy.system.Reaches h p) : ∃ Q,
    p.Represents Q ∧ ((policy.system.restrict Regular).Reaches h p → reference.Reaches h Q) ∧
    (Q.items ≠ [] → ∃ e q, p.chosen = some e ∧ p.evict = some (e.key, q) ∧
      ((∃ Q', Evicts Q e.key Q' ∧ q.Represents Q') ↔ ¬ Skips Q) ∧
      (e.visited = false ↔ ¬ Skips Q) ∧
      (¬ Skips Q → (∃ x ∈ Q.items, x.2 = false) → (e.key, false) ∈ Q.items)) := by
  obtain ⟨Q, hp, hQ⟩ : ∃ Q, p.Represents Q ∧
      ((policy.system.restrict Regular).Reaches h p → reference.Reaches h Q) := by
    by_cases hregular : (policy.system.restrict Regular).Reaches h p
    · obtain ⟨Q, hQ, hp⟩ := simulates hregular
      exact ⟨Q, hp, fun _ => hQ⟩
    · obtain ⟨l, ⟨newer, older, h, -⟩, -⟩ := (refines.contract h p hr).entries
      exact ⟨_, ⟨newer, older, h, rfl⟩, fun hregular' => absurd hregular' hregular⟩
  refine ⟨Q, hp, hQ, fun hne => ?_⟩
  obtain ⟨newer, older, h, rfl⟩ := hp
  have hnodes : newer ++ older ≠ [] := by
    rintro hnil
    rw [queue_items, hnil] at hne
    exact hne rfl
  obtain ⟨e, q, hchosen, hevict, hagrees, hbit⟩ := h.evict_agrees hnodes
  refine ⟨e, q, hchosen, hevict, hagrees, ?_, fun hregular => ?_⟩
  · rw [← hbit, Bool.not_eq_true]
  · obtain ⟨Q', hevicts, -⟩ := hagrees.mpr hregular
    exact hevicts.mem_items

/-- Three keys are added and the first is touched, so the second is evicted and the hand is at the
third. Then the two that are left are touched. -/
def allVisited : List Policy.Event :=
  [.touch [99], .touch [97], .evict [98], .touch [97], .add [99] 1, .add [98] 1, .add [97] 1]

theorem allVisited_reaches : ∃ p, policy.system.Reaches allVisited p ∧
    ∃ q, p.evict = some ([97], q) := by
  obtain ⟨p, hp⟩ := Option.isSome_iff_exists.mp (show (policy.run allVisited).isSome by decide)
  have hevict : (policy.run allVisited).bind (fun p => p.evict.map Prod.fst) = some [97] := by
    decide
  rw [hp, Option.bind_some] at hevict
  obtain ⟨⟨key, q⟩, hq, rfl⟩ := Option.map_eq_some_iff.mp hevict
  exact ⟨p, policy.reaches_of_run hp, q, hq⟩

theorem allVisited_reference : reference.Reaches allVisited ⟨[([99], true)], [([97], true)]⟩ := by
  have hevict : reference.Reaches (allVisited.drop 2) ⟨[([99], false)], [([97], false)]⟩ :=
    .next (.next (.next (.next (.next (.start rfl) rfl) rfl) rfl) rfl)
      (Evicts.wrap (by decide) (.pass .take))
  exact .next (.next hevict rfl) rfl

theorem allVisited_represents : ∃ p, policy.system.Reaches allVisited p ∧ ∃ Q, p.Represents Q ∧
    ((policy.system.restrict Regular).Reaches allVisited p → reference.Reaches allVisited Q) := by
  obtain ⟨p, hp, -⟩ := allVisited_reaches
  obtain ⟨Q, hQ, hreference, -⟩ := evict_reference hp
  exact ⟨p, hp, Q, hQ, hreference⟩

/-- There the code takes the first key, and the algorithm the third. -/
theorem evict_skips_tail : ∃ p Q q, policy.system.Reaches allVisited p ∧
    reference.Reaches allVisited Q ∧ p.evict = some ([97], q) ∧ (∃ Q', Evicts Q [99] Q') ∧
    ∀ Q', ¬ Evicts Q [97] Q' := by
  obtain ⟨p, hp, q, hevict⟩ := allVisited_reaches
  have htake : Evicts ⟨[([99], true)], [([97], true)]⟩ ([99] : Bytes) _ :=
    .pass (.wrap (by simp) (.pass .take))
  refine ⟨p, _, q, hp, allVisited_reference, hevict, ⟨_, htake⟩, fun Q' hother => ?_⟩
  exact absurd (hother.unique htake).1 (by decide)

end SIEVE

end PolyCache
