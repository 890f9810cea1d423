import PolyCache.Storage.Expiry

/-!
# The store as a timed map

When no client operation comes between the steps of a sweep pass, the store is a map whose keys
carry deadlines: `get` serves the value of the last successful `set` of the key until its own
deadline, unless a `del` or an eviction has taken the key away since.
-/

namespace PolyCache

open AssocMap

namespace History

/-- A `del` or an eviction took the key away during or since its last successful `set`. -/
def lost (key : Bytes) : History → Bool
  | [] => false
  | (_, .set r) :: h =>
    if r.stored ∧ r.key = key then key ∈ r.victims else key ∈ r.victims || lost key h
  | (_, .del k removed) :: h => removed && k = key || lost key h
  | _ :: h => lost key h

theorem lost_set {key : Bytes} {h : History} (t : Nat) (r : SetRecord) :
    lost key ((t, .set r) :: h) =
      if r.stored ∧ r.key = key then decide (key ∈ r.victims)
      else key ∈ r.victims || lost key h := rfl

theorem lost_del {key : Bytes} {h : History} (t : Nat) (k : Bytes) (removed : Bool) :
    lost key ((t, .del k removed) :: h) = (removed && k = key || lost key h) := rfl

end History

open History

namespace World

/-- What a client does, as opposed to the sweeper and the clock. -/
def clients : Event → Bool
  | .set _ | .get _ _ | .del _ _ => true
  | _ => false

/-- The runs in which each sweep pass ends before the next client operation. -/
def serialSystem (buckets memoryLimit maxValueSize : Nat) :
    Transition.System World (Nat × Event) :=
  (system buckets memoryLimit maxValueSize).restrict fun w e =>
    clients e.2 = true → w.pending = []

/-- What a serial run knows of the keys that are stored, lost or on their way out. -/
structure Serial (h : History) (w : World) : Prop where
  present : ∀ k, (w.storage.data.lookup k).isSome → lost k h = false
  kept : ∀ k t r, lastSet k h = some (t, r) → lost k h = false →
    (r.ttl ≤ 0 ∨ w.now < TTLManager.deadline t r.ttl) → (w.storage.data.lookup k).isSome
  pending : ∀ k ∈ w.pending, collected k h = true
  /-- a stored key that has been collected is still to be removed -/
  leaving : ∀ k, (w.storage.data.lookup k).isSome → collected k h = true → k ∈ w.pending

namespace Serial

variable {h : History} {w : World}

theorem set (hw : Serial h w) (hidle : w.pending = []) (buckets : Nat) (key : Bytes) (value : Str)
    (ttl : Int) : Serial ((w.now, .set (w.record buckets key value ttl)) :: h)
      { w with storage := (w.storage.set w.now buckets key value ttl).2 } := by
  have hstored := w.record_stored buckets key value ttl
  have hvictims : (w.record buckets key value ttl).victims =
      w.storage.setVictims w.now buckets key value ttl := rfl
  cases hstore : w.storage.canStore key value with
  | false =>
    have hnone : w.storage.setVictims w.now buckets key value ttl = [] := by
      simp [Storage.setVictims, hstore]
    rw [hstore] at hstored
    rw [hnone] at hvictims
    rw [Storage.set_of_refused _ _ _ hstore]
    constructor
    · intro k hk
      simpa [lost_set, hstored, hvictims] using hw.present k hk
    · intro k t r hlast hlost hlive
      rw [lastSet_set] at hlast
      rw [lost_set] at hlost
      exact hw.kept k t r (by simpa [hstored] using hlast)
        (by simpa [hstored, hvictims] using hlost) hlive
    · simp [hidle]
    · intro k hk hcoll
      rw [collected_set] at hcoll
      exact hw.leaving k hk (by simpa [hstored] using hcoll)
  | true =>
    rw [hstore] at hstored
    have hkey : (w.record buckets key value ttl).key = key := rfl
    have hdata := Storage.lookup_set w.now buckets ttl hstore
    have hlast : ∀ k, lastSet k ((w.now, .set (w.record buckets key value ttl)) :: h) =
        if k = key then some (w.now, w.record buckets key value ttl) else lastSet k h := fun k => by
      simp [lastSet_set, hstored, hkey, eq_comm]
    have hcoll : ∀ k, collected k ((w.now, .set (w.record buckets key value ttl)) :: h) =
        if k = key then false else collected k h := fun k => by
      simp [collected_set, hstored, hkey, eq_comm]
    have hlost : ∀ k, lost k ((w.now, .set (w.record buckets key value ttl)) :: h) = false ↔
        k ∉ w.storage.setVictims w.now buckets key value ttl ∧ (k = key ∨ lost k h = false) :=
      fun k => by
        rw [lost_set, hstored, hkey, hvictims]
        by_cases hk : k = key
        · simp [hk]
        · simp [hk, Ne.symm hk]
    constructor
    · intro k hk
      rw [hdata] at hk
      rw [hlost]
      split_ifs at hk with hv hself
      · exact absurd hk (by simp)
      · exact ⟨hv, Or.inl hself⟩
      · exact ⟨hv, Or.inr (hw.present k hk)⟩
    · intro k t r hset hkeep hlive
      obtain ⟨hv, hkeep⟩ := (hlost k).mp hkeep
      rw [hlast] at hset
      rw [hdata, if_neg hv]
      split_ifs at hset ⊢ with hself
      · rfl
      · exact hw.kept k t r hset (hkeep.resolve_left hself) hlive
    · simp [hidle]
    · intro k hk hleft
      rw [hcoll] at hleft
      rw [hdata] at hk
      split_ifs at hleft hk with hself hv
      · exact absurd hk (by simp)
      · exact hw.leaving k hk hleft

/-- Steps that only take keys away: a key goes because a client or an eviction took it, or because
its deadline has passed. -/
theorem shrink (hw : Serial h w) {s : Storage} {e : Event} {pending : List Bytes}
    (hlast : ∀ k, lastSet k ((w.now, e) :: h) = lastSet k h)
    (hcoll : ∀ k, collected k ((w.now, e) :: h) = collected k h)
    (hlost : ∀ k, lost k ((w.now, e) :: h) = false → lost k h = false)
    (hstays : ∀ k, (s.data.lookup k).isSome → (w.storage.data.lookup k).isSome ∧
      lost k ((w.now, e) :: h) = lost k h)
    (hgoes : ∀ k, (w.storage.data.lookup k).isSome → s.data.lookup k = none →
      lost k ((w.now, e) :: h) = true ∨
        ∃ t r, lastSet k h = some (t, r) ∧ 0 < r.ttl ∧ TTLManager.deadline t r.ttl ≤ w.now)
    (hrest : ∀ k ∈ pending, k ∈ w.pending)
    (hleft : ∀ k ∈ w.pending, (s.data.lookup k).isSome → k ∈ pending) :
    Serial ((w.now, e) :: h) { storage := s, pending := pending, now := w.now } where
  present k hk := by
    rw [(hstays k hk).2]
    exact hw.present k (hstays k hk).1
  kept k t r hset hkeep hlive := by
    rw [hlast] at hset
    have hk := hw.kept k t r hset (hlost k hkeep) hlive
    refine Option.isSome_iff_ne_none.mpr fun hnone => ?_
    rcases hgoes k hk hnone with hgone | ⟨t', r', hset', hpos, hle⟩
    · simp [hkeep] at hgone
    · rw [hset] at hset'
      cases hset'
      simp only at hlive
      omega
  pending k hk := by
    rw [hcoll]
    exact hw.pending k (hrest k hk)
  leaving k hk hc := by
    rw [hcoll] at hc
    exact hleft k (hw.leaving k (hstays k hk).1 hc) hk

theorem get (hw : Serial h w) (ht : Tracks h w) (key : Bytes) :
    Serial ((w.now, .get key (w.storage.get w.now key).1) :: h)
      { w with storage := (w.storage.get w.now key).2 } := by
  have hshrinks := Storage.Shrinks.get w.storage w.now key
  refine hw.shrink (fun _ => rfl) (fun _ => rfl) (fun _ hk => hk) (fun k hk => ⟨?_, rfl⟩)
    (fun k hk hnone => Or.inr ?_) (fun _ hk => hk) (fun _ hk _ => hk)
  · obtain ⟨m, hm⟩ := Option.isSome_iff_exists.mp hk
    exact Option.isSome_iff_exists.mpr ⟨m, (hshrinks.data k m hm).1⟩
  · cases he : (w.storage.ttl.isExpired w.now key).1 with
    | true =>
      rw [Storage.get_of_expired he] at hnone
      change (w.storage.forget key).data.lookup k = none at hnone
      rw [Storage.lookup_forget] at hnone
      split_ifs at hnone with hself
      · obtain ⟨d, hd, hle⟩ := TTLManager.isExpired_iff.mp he
        obtain ⟨-, t, r, hset, hpos, rfl⟩ := ht.deadline key d hd
        exact ⟨t, r, hself ▸ hset, hpos, hle⟩
      · simp [hnone] at hk
    | false =>
      -- a live key is not removed
      exfalso
      cases hm : w.storage.data.lookup key with
      | none => simp_all [Storage.get_of_absent he hm]
      | some m => simp_all [Storage.get_of_present he hm]

theorem del (hw : Serial h w) (key : Bytes) :
    Serial ((w.now, .del key (w.storage.del key).1) :: h)
      { w with storage := (w.storage.del key).2 } := by
  cases hm : w.storage.data.lookup key with
  | none =>
    rw [Storage.del_of_absent hm]
    refine hw.shrink (fun _ => rfl) (fun _ => rfl) (fun k hk => by simpa [lost_del] using hk)
      (fun k hk => ⟨hk, by simp [lost_del]⟩) (fun k hk hnone => ?_) (fun _ hk => hk)
      (fun _ hk _ => hk)
    simp [hnone] at hk
  | some m =>
    rw [Storage.del_of_present hm]
    have hdata : ∀ k, (w.storage.removeEntry key m).data.lookup k =
        if k = key then none else w.storage.data.lookup k := Storage.lookup_removeEntry m
    refine hw.shrink (fun _ => rfl) (fun _ => rfl) (fun k hk => ?_) (fun k hk => ?_)
      (fun k hk hnone => Or.inl ?_) (fun _ hk => hk) (fun _ hk _ => hk)
    · rw [lost_del] at hk
      exact (Bool.or_eq_false_iff.mp hk).2
    · rw [hdata] at hk
      split_ifs at hk with hself
      · simp at hk
      · exact ⟨hk, by simp [lost_del, Ne.symm hself]⟩
    · rw [hdata] at hnone
      split_ifs at hnone with hself
      · simp [lost_del, hself]
      · simp [hnone] at hk

theorem collect (hw : Serial h w) (hidle : w.pending = []) {batch : List Bytes} :
    Serial ((w.now, .collect batch) :: h)
      { w with storage := (w.storage.collectExpired w.now).2, pending := batch } where
  present := hw.present
  kept := hw.kept
  pending k hk := by simp [History.collected, show k ∈ batch from hk]
  leaving k hk hc := by
    by_contra hnot
    have hcold : collected k h = true := by simpa [History.collected, hnot] using hc
    have hmem := hw.leaving k hk hcold
    simp [hidle] at hmem

theorem expire (hw : Serial h w) (ht : Tracks h w) {key : Bytes} {rest : List Bytes}
    (hnext : w.pending = key :: rest) :
    Serial ((w.now, .expire key) :: h)
      { w with storage := w.storage.expireKey key, pending := rest } := by
  have hdata : ∀ k, (w.storage.expireKey key).data.lookup k =
      if k = key then none else w.storage.data.lookup k := fun k => by
    cases hm : w.storage.data.lookup key with
    | none =>
      rw [Storage.expireKey_of_absent hm]
      split_ifs with hself
      · rw [hself, hm]
      · rfl
    | some m =>
      rw [Storage.expireKey_of_present hm]
      exact Storage.lookup_removeEntry m k
  refine hw.shrink (fun _ => rfl) (fun _ => rfl) (fun _ hk => hk) (fun k hk => ⟨?_, rfl⟩)
    (fun k hk hnone => Or.inr ?_) (fun k hk => ?_) (fun k hk hstored => ?_)
  · rw [hdata] at hk
    split_ifs at hk
    · simp at hk
    · exact hk
  · rw [hdata] at hnone
    split_ifs at hnone with hself
    · exact ht.collected k (hw.pending k (by simp [hnext, hself]))
    · simp [hnone] at hk
  · rw [hnext]
    exact List.mem_cons_of_mem key hk
  · rw [hdata] at hstored
    rw [hnext] at hk
    split_ifs at hstored with hself
    · simp at hstored
    · exact (List.mem_cons.mp hk).resolve_left hself

theorem tick (hw : Serial h w) (ticks : Nat) :
    Serial ((w.now, .tick ticks) :: h) { w with now := w.now + ticks } where
  present := hw.present
  kept k t r hset hkeep hlive :=
    hw.kept k t r hset hkeep (hlive.imp id (Nat.lt_of_le_of_lt (Nat.le_add_right _ _)))
  pending := hw.pending
  leaving := hw.leaving

theorem step (hw : Serial h w) (ht : Tracks h w) {w' : World} {e : Nat × Event}
    (hs : Step w e w') (hserial : clients e.2 = true → w.pending = []) : Serial (e :: h) w' := by
  cases hs with
  | set buckets key value ttl => exact hw.set (hserial rfl) buckets key value ttl
  | get key => exact hw.get ht key
  | del key => exact hw.del key
  | collect batch hidle _ => exact hw.collect hidle
  | expire key rest hnext => exact hw.expire ht hnext
  | tick ticks => exact hw.tick ticks

end Serial

variable {buckets memoryLimit maxValueSize : Nat} {h : History} {w w' : World} {key : Bytes}

theorem serial_of_reaches (hr : (serialSystem buckets memoryLimit maxValueSize).Reaches h w) :
    Serial h w := by
  refine hr.invariant (P := Serial) (fun w hw => ?_) fun _ _ _ _ hr hw hs =>
    hw.step (tracks_of_reaches hr.of_restrict) hs.1 hs.2
  have hdata : w.storage.data = ∅ := by rw [hw.1]; rfl
  exact ⟨by simp [hdata], by simp [lastSet], by simp [hw.2], by simp [hdata]⟩

/-- In a serial run `get` serves a value if and only if it is that of the last successful `set` of
the key, nothing took the key away since, and the deadline of that `set` has not passed. -/
theorem serial_get_iff (hr : (serialSystem buckets memoryLimit maxValueSize).Reaches h w)
    {now : Nat} {blob : Option Bytes}
    (hs : (serialSystem buckets memoryLimit maxValueSize).step w (now, .get key blob) w')
    (value : Bytes) :
    blob = some value ↔ ∃ t r, lastSet key h = some (t, r) ∧ lost key h = false ∧
      (r.ttl ≤ 0 ∨ now < TTLManager.deadline t r.ttl) ∧ value = r.value := by
  have ht := tracks_of_reaches hr.of_restrict
  have hw := serial_of_reaches hr
  obtain ⟨hs, hserial⟩ := hs
  have hidle : w.pending = [] := hserial rfl
  cases hs
  cases hm : w.storage.data.lookup key with
  | none =>
    have hmiss : (w.storage.get w.now key).1 = none := by
      cases he : (w.storage.ttl.isExpired w.now key).1 with
      | true => rw [Storage.get_of_expired he]
      | false => rw [Storage.get_of_absent he hm]
    rw [hmiss]
    refine ⟨fun heq => (nomatch heq), ?_⟩
    rintro ⟨t, r, hset, hkeep, hlive, -⟩
    have hk := hw.kept key t r hset hkeep hlive
    simp [hm] at hk
  | some m =>
    have hk : (w.storage.data.lookup key).isSome := by simp [hm]
    obtain ⟨t, r, hset, hvalue⟩ := ht.present key m hm
    have hcold : collected key h = false := Bool.eq_false_iff.mpr fun hc => by
      have hmem := hw.leaving key hk hc
      simp [hidle] at hmem
    cases he : (w.storage.ttl.isExpired w.now key).1 with
    | true =>
      obtain ⟨d, hd, hle⟩ := TTLManager.isExpired_iff.mp he
      obtain ⟨-, t', r', hset', hpos, rfl⟩ := ht.deadline key d hd
      rw [Storage.get_of_expired he]
      refine ⟨fun heq => (nomatch heq), ?_⟩
      rintro ⟨t'', r'', hset'', -, hlive, -⟩
      rw [hset'] at hset''
      cases hset''
      omega
    | false =>
      rw [Storage.get_of_present he hm]
      have hlive : r.ttl ≤ 0 ∨ w.now < TTLManager.deadline t r.ttl := by
        by_contra hdue
        obtain ⟨hpos, hle⟩ := not_or.mp hdue
        have harmed := ht.armed key m t r hm hset (Int.not_le.mp hpos) hcold
        rw [TTLManager.isExpired_iff.mpr ⟨_, harmed, Nat.not_lt.mp hle⟩] at he
        exact nomatch he
      constructor
      · intro heq
        exact ⟨t, r, hset, hw.present key hk, hlive, by rw [← hvalue, ← Option.some.inj heq]⟩
      · rintro ⟨t', r', hset', -, -, rfl⟩
        rw [hset] at hset'
        cases hset'
        rw [hvalue]

/-- A key that expired, was swept and is set again without a ttl. -/
def renewed : World where
  storage := ((swept.storage.expireKey [107]).set ticksPerSecond 1 [107] ⟨[2], 15, by decide⟩ 0).2
  pending := []
  now := ticksPerSecond

def renewedHistory : History :=
  [(ticksPerSecond, .set ⟨[107], [2], 0, true, true, []⟩), (ticksPerSecond, .expire [107]),
    (ticksPerSecond, .collect [[107]])] ++ dueHistory

theorem renewed_reaches : (serialSystem 1 1024 1024).Reaches renewedHistory renewed := by
  have hstart : (serialSystem 1 1024 1024).Reaches [] ⟨Storage.init 1 1024 1024, [], 0⟩ :=
    .start ⟨rfl, rfl⟩
  have hset := hstart.next ⟨Step.set _ 1 [107] ⟨[1], 15, by decide⟩ 1, fun _ => rfl⟩
  have htick := hset.next ⟨Step.tick _ ticksPerSecond, nofun⟩
  have hcollect := htick.next ⟨Step.collect _ [[107]] rfl (by decide), nofun⟩
  have hexpire := hcollect.next ⟨Step.expire _ [107] [] rfl, nofun⟩
  exact hexpire.next ⟨Step.set _ 1 [107] ⟨[2], 15, by decide⟩ 0, fun _ => rfl⟩

/-- It is read long after its first deadline. -/
theorem renewed_get : (renewed.storage.get renewed.now [107]).1 = some [2] :=
  (serial_get_iff renewed_reaches ⟨Step.get renewed [107], fun _ => rfl⟩ [2]).mpr
    ⟨ticksPerSecond, ⟨[107], [2], 0, true, true, []⟩, by decide, by decide, by decide, rfl⟩

end World

end PolyCache
