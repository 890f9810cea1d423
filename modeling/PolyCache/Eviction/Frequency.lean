import PolyCache.Eviction.LFU
import PolyCache.Library.Aged

/-!
# LFU and the calls

What LFU keeps of its past. The frequency of a key is one more than the touches since it was last
newly added, and in each bucket the keys stand in the order in which they reached its frequency. So
the key that is evicted has the least frequency, and of the keys that have it, it has had it for the
longest time.
-/

namespace PolyCache

open AssocMap

namespace Policy

/-- One more than the touches of the key since it was last newly added, if it is tracked. -/
def frequency (key : Bytes) : List Event → Option Nat
  | [] => none
  | .touch k :: h => if k = key then (frequency key h).map (· + 1) else frequency key h
  | .add k _ :: h => if k = key then some ((frequency key h).getD 1) else frequency key h
  | .remove k :: h | .evict k :: h => if k = key then none else frequency key h

/-- How many calls came before the one by which the key reached its frequency. -/
def reachedAt (key : Bytes) : List Event → Nat
  | [] => 0
  | .touch k :: h => if k = key ∧ (frequency key h).isSome then h.length else reachedAt key h
  | .add k _ :: h => if k = key ∧ (frequency key h).isNone then h.length else reachedAt key h
  | .remove _ :: h | .evict _ :: h => reachedAt key h

theorem frequency_isSome (key : Bytes) (h : List Event) :
    (frequency key h).isSome = (tracked key h).isSome := by
  induction h with
  | nil => rfl
  | cons e h ih =>
    cases e with
    | touch k => simp only [frequency, tracked]; split_ifs <;> simpa using ih
    | add k size => simp only [frequency, tracked]; split_ifs <;> simp [ih]
    | remove k => simp only [frequency, tracked]; split_ifs <;> simp [ih]
    | evict k => simp only [frequency, tracked]; split_ifs <;> simp [ih]

end Policy

open Policy

namespace LFU

/-! ## What the calls leave -/

/-- A key that comes to a bucket now goes in front. -/
theorem aged_pushFront {time : Bytes → Nat} {now : Nat} {p : LFU}
    (h : ∀ freq, Aged time now ((p.buckets freq).map Node.key)) {key : Bytes}
    (hkey : time key = now) (freq freq' : Nat) :
    Aged time (now + 1) (((p.pushFront freq key).buckets freq').map Node.key) := by
  by_cases hfreq : freq' = freq
  · subst hfreq
    simpa [pushFront_buckets] using (h freq').cons hkey
  · simpa [pushFront_buckets, hfreq] using (h freq').congr (Nat.le_succ now) fun _ _ => rfl

/-- The entries have the frequencies that the calls account for, and each bucket is in the order in
which its keys reached its frequency. -/
structure Ranked (h : List Event) (p : LFU) : Prop where
  valid : p.Valid
  freq : ∀ key, (p.entries.lookup key).map Entry.freq = frequency key h
  aged : ∀ freq, Aged (reachedAt · h) h.length ((p.buckets freq).map Node.key)

namespace Ranked

variable {h : List Event} {p q : LFU} {key : Bytes} {e : Entry}

theorem freq_eq (hp : Ranked h p) (he : p.entries.lookup key = some e) :
    frequency key h = some e.freq := by
  rw [← hp.freq, he]
  rfl

theorem freq_none (hp : Ranked h p) (he : p.entries.lookup key = none) :
    frequency key h = none := by
  rw [← hp.freq, he]
  rfl

/-- A call that changes no bucket and no frequency. -/
theorem of_same (hp : Ranked h p) (hq : q.Valid) {e : Event}
    (hentries : ∀ k, (q.entries.lookup k).map Entry.freq = (p.entries.lookup k).map Entry.freq)
    (hbuckets : q.buckets = p.buckets)
    (hfreq : ∀ k, frequency k (e :: h) = frequency k h)
    (htime : ∀ k, reachedAt k (e :: h) = reachedAt k h) : Ranked (e :: h) q where
  valid := hq
  freq k := by rw [hentries, hp.freq, hfreq]
  aged freq := hbuckets ▸ (hp.aged freq).congr (Nat.le_succ _) fun k _ => htime k

theorem touch (hp : Ranked h p) (key : Bytes) : Ranked (.touch key :: h) (p.touch key) := by
  cases he : p.entries.lookup key with
  | none =>
    have hnone := hp.freq_none he
    refine hp.of_same (hp.valid.touch key) ?_ ?_ (fun k => ?_) fun k => ?_
    · simp [LFU.touch, he]
    · simp [LFU.touch, he]
    · by_cases hk : key = k
      · simp [frequency, ← hk, hnone]
      · simp [frequency, hk]
    · by_cases hk : key = k
      · simp [reachedAt, ← hk, hnone]
      · simp [reachedAt, hk]
  | some e =>
    have hfreq := hp.freq_eq he
    obtain ⟨min, heq, -, -⟩ := hp.valid.raiseMin_erase he
    refine ⟨hp.valid.touch key, fun k => ?_, ?_⟩
    · simp only [LFU.touch, he, frequency, lookup_insert_eq_ite, eq_comm (a := key)]
      split_ifs with hk
      · simp [hk, hfreq]
      · simpa using hp.freq k
    · simp only [LFU.touch, he, heq]
      -- the other keys, whose times are what they were
      have hrest : ∀ freq, Aged (reachedAt · (.touch key :: h)) h.length
          (((p.erase e.freq e.it).buckets freq).map Node.key) := by
        intro freq
        have hsub := (p.erase_sublist e.freq e.it freq).map Node.key
        refine ((hp.aged freq).sublist hsub).congr le_rfl fun k hk => ?_
        obtain ⟨n, hn, rfl⟩ := List.mem_map.mp hk
        have hne := ((hp.valid.mem_erase he).mp hn).2
        simp [reachedAt, Ne.symm hne]
      exact aged_pushFront hrest (by simp [reachedAt, hfreq]) (e.freq + 1)

theorem add (hp : Ranked h p) (key : Bytes) (size : Nat) :
    Ranked (.add key size :: h) (p.add key size) := by
  cases he : p.entries.lookup key with
  | some e =>
    have hfreq := hp.freq_eq he
    refine hp.of_same (hp.valid.add key size) (fun k => ?_) ?_ (fun k => ?_) fun k => ?_
    · simp only [LFU.add, he, lookup_insert_eq_ite]
      split_ifs with hk
      · rw [hk, he]
        rfl
      · rfl
    · simp [LFU.add, he]
    · by_cases hk : key = k
      · simp [frequency, ← hk, hfreq]
      · simp [frequency, hk]
    · by_cases hk : key = k
      · simp [reachedAt, ← hk, hfreq]
      · simp [reachedAt, hk]
  | none =>
    have hnone := hp.freq_none he
    refine ⟨hp.valid.add key size, fun k => ?_, ?_⟩
    · simp only [LFU.add, he, frequency, lookup_insert_eq_ite, eq_comm (a := key)]
      split_ifs with hk
      · simp [hk, hnone]
      · simpa using hp.freq k
    · simp only [LFU.add, he]
      have hrest : ∀ freq, Aged (reachedAt · (.add key size :: h)) h.length
          ((p.buckets freq).map Node.key) := by
        refine fun freq => (hp.aged freq).congr le_rfl fun k hk => ?_
        obtain ⟨n, hn, rfl⟩ := List.mem_map.mp hk
        obtain ⟨e, hn, -⟩ := hp.valid.node freq n hn
        have hne : key ≠ n.key := by
          rintro rfl
          simp [he] at hn
        simp [reachedAt, hne]
      exact aged_pushFront hrest (by simp [reachedAt, hnone]) 1

/-- A call that takes a key away, if it is there. -/
theorem of_erase (hp : Ranked h p) (hq : q.Valid) {e : Event}
    (hentries : q.entries = p.entries.erase key)
    (hbuckets : ∀ freq, (q.buckets freq).Sublist (p.buckets freq))
    (hfreq : ∀ k, frequency k (e :: h) = if key = k then none else frequency k h)
    (htime : ∀ k, reachedAt k (e :: h) = reachedAt k h) : Ranked (e :: h) q where
  valid := hq
  freq k := by
    rw [hentries, lookup_erase_eq_ite, hfreq, ← hp.freq]
    by_cases hk : k = key
    · simp [hk]
    · simp [hk, Ne.symm hk]
  aged freq :=
    ((hp.aged freq).sublist ((hbuckets freq).map _)).congr (Nat.le_succ _) fun k _ => htime k

theorem remove (hp : Ranked h p) (key : Bytes) : Ranked (.remove key :: h) (p.remove key) := by
  refine hp.of_erase (hp.valid.remove key) (?_ : _ = p.entries.erase key) (fun freq => ?_)
    (fun _ => rfl) fun _ => rfl
  all_goals cases he : p.entries.lookup key with
  | none => simp [LFU.remove, he, erase_of_lookup_none]
  | some e => ?_
  · simp [LFU.remove, he]
  · obtain ⟨min, heq, -, -⟩ := hp.valid.raiseMin_erase he
    simp only [LFU.remove, he, heq]
    exact p.erase_sublist e.freq e.it freq

theorem evict (hp : Ranked h p) (hevict : p.evict = some (key, q)) :
    Ranked (.evict key :: h) q := by
  by_cases hkeys : p.entries.keys = []
  · rw [LFU.evict, if_pos hkeys] at hevict
    cases hevict
    have hnone : p.entries.lookup [] = none :=
      AList.lookup_eq_none.mpr fun hmem => by simpa [hkeys] using AList.mem_keys.mp hmem
    exact hp.of_erase hp.valid (erase_of_lookup_none hnone).symm
      (fun _ => List.Sublist.refl _) (fun _ => rfl) fun _ => rfl
  · obtain ⟨key', e, -, -, -, q', hevict', hq, hentries, hbuckets⟩ := hp.valid.evict hkeys
    obtain ⟨rfl, rfl⟩ := Prod.mk.inj (Option.some.inj (hevict'.symm.trans hevict))
    refine hp.of_erase hq hentries (fun freq => ?_) (fun _ => rfl) fun _ => rfl
    rw [hbuckets]
    by_cases hf : freq = e.freq
    · subst hf
      simpa using List.dropLast_sublist _
    · simp [hf]

theorem step {s' : LFU} {e : Event} (hp : Ranked h p) (hs : policy.Step p e s') :
    Ranked (e :: h) s' := by
  cases hs with
  | touch hreturns =>
    have hlive := (if_pos (hp.valid.live _)).symm.trans hreturns
    exact Option.some.inj hlive ▸ hp.touch _
  | add hreturns => exact Option.some.inj hreturns ▸ hp.add _ _
  | remove hreturns =>
    have hlive := (if_pos (hp.valid.live _)).symm.trans hreturns
    exact Option.some.inj hlive ▸ hp.remove _
  | evict hreturns => exact hp.evict hreturns

end Ranked

variable {h : List Event} {p : LFU}

theorem ranked_of_reaches (hr : policy.system.Reaches h p) : Ranked h p := by
  refine hr.invariant (P := Ranked) (fun p hp => ?_) fun _ _ _ _ _ hp hs => hp.step hs
  cases hp
  exact ⟨valid_empty, fun _ => rfl, fun _ => .nil⟩

/-- The bound is below every frequency. While there are keys, the search of `evict` ends at the
least frequency, and the key that is evicted has had it for longer than all others that have it. -/
theorem evict_least_frequent (hr : policy.system.Reaches h p) :
    (∀ key f, frequency key h = some f → p.minFreq ≤ f) ∧
    ((∃ key, (tracked key h).isSome) → ∃ key q f, policy.evict p = some (key, q) ∧
      frequency key h = some f ∧ p.buckets f ≠ [] ∧
      (∀ f', p.minFreq ≤ f' → f' < f → p.buckets f' = []) ∧
      (∀ k f', frequency k h = some f' → f ≤ f') ∧
      ∀ k, k ≠ key → frequency k h = some f → reachedAt key h < reachedAt k h) := by
  have hp := ranked_of_reaches hr
  have hentry : ∀ {k f}, frequency k h = some f →
      ∃ e, p.entries.lookup k = some e ∧ e.freq = f := by
    intro k f hk
    rw [← hp.freq] at hk
    exact Option.map_eq_some_iff.mp hk
  refine ⟨fun k f hk => ?_, ?_⟩
  · obtain ⟨e, he, rfl⟩ := hentry hk
    exact hp.valid.least k e he
  · rintro ⟨k₀, hk₀⟩
    have hkeys : p.entries.keys ≠ [] := by
      rw [← frequency_isSome] at hk₀
      obtain ⟨f, hf⟩ := Option.isSome_iff_exists.mp hk₀
      obtain ⟨e, he, -⟩ := hentry hf
      exact List.ne_nil_of_mem (AList.mem_keys.mp (AList.lookup_isSome.mp (by rw [he]; rfl)))
    obtain ⟨key, e, he, hleast, hlast, q, hevict, -⟩ := hp.valid.evict hkeys
    refine ⟨key, q, e.freq, hevict, hp.freq_eq he, ?_, fun f' _ hlt => ?_, fun k f' hk => ?_,
      fun k hne hk => ?_⟩
    · exact List.ne_nil_of_mem (List.mem_of_getLast? hlast)
    · -- a node below would be that of a less frequent key
      refine List.eq_nil_iff_forall_not_mem.mpr fun n hn => ?_
      obtain ⟨e', he', rfl, -⟩ := hp.valid.node f' n hn
      exact absurd (hleast _ _ he') (Nat.not_le.mpr hlt)
    · obtain ⟨e', he', rfl⟩ := hentry hk
      exact hleast k e' he'
    · obtain ⟨e', he', hfreq⟩ := hentry hk
      have hmem := hp.valid.entry k e' he'
      rw [hfreq] at hmem
      obtain ⟨init, hinit⟩ := List.getLast?_eq_some_iff.mp hlast
      have haged := hp.aged e.freq
      rw [hinit, List.mem_append, List.mem_singleton] at hmem
      rw [hinit, List.map_append, List.map_singleton] at haged
      have hinit : ⟨e'.it, k⟩ ∈ init := hmem.resolve_right fun heq => hne (Node.mk.inj heq).2
      exact haged.last_lt (List.mem_map_of_mem (f := Node.key) hinit)

/-- Of two keys, one of which has been touched, the other one goes. -/
theorem evict_untouched : ∃ key q f,
    policy.evict (((({} : LFU).add [97] 1).add [98] 1).touch [97]) = some (key, q) ∧
      frequency key [.touch [97], .add [98] 1, .add [97] 1] = some f ∧ f ≤ 1 := by
  have hr : policy.system.Reaches [.touch [97], .add [98] 1, .add [97] 1]
      (((({} : LFU).add [97] 1).add [98] 1).touch [97]) :=
    .next (.next (.next (.start rfl) (.add rfl)) (.add rfl)) (.touch rfl)
  obtain ⟨key, q, f, hevict, hf, -, -, hleast, -⟩ :=
    (evict_least_frequent hr).2 ⟨[98], by decide⟩
  exact ⟨key, q, f, hevict, hf, hleast [98] 1 (by decide)⟩

end LFU

end PolyCache
