import PolyCache.Storage.Sweep

/-!
# Expiry under interleaving

The deadline of a key lives in the TTL table from its `set` until a sweep pass collects it, but
the value stays in `data_` until the pass comes to `expire_key`. `Tracks` says what the table and
the data know of the last successful `set` of each key, in terms of the history of the run. From
it follow the exact conditions under which the sweeper spares newer values and `get` never serves
an expired one.
-/

namespace PolyCache

namespace History

/-- The last `set` of the key that returned true, with its time. -/
def lastSet (key : Bytes) : History → Option (Nat × SetRecord)
  | [] => none
  | (t, .set r) :: h => if r.stored ∧ r.key = key then some (t, r) else lastSet key h
  | _ :: h => lastSet key h

/-- A sweep pass has collected the key since its last successful `set`. -/
def collected (key : Bytes) : History → Bool
  | [] => false
  | (_, .set r) :: h => if r.stored ∧ r.key = key then false else collected key h
  | (_, .collect batch) :: h => key ∈ batch || collected key h
  | _ :: h => collected key h

/-- Each successful `set` of the key in the past is over by `now`: its own deadline has passed, or
that of a later `set` of the key. -/
def Over (key : Bytes) (now : Nat) (h : History) : Prop :=
  ∀ newer t r older, h = newer ++ (t, Event.set r) :: older → r.stored → r.key = key →
    ∃ t' r', (t', Event.set r') ∈ newer ++ [(t, Event.set r)] ∧ r'.stored ∧ r'.key = key ∧
      0 < r'.ttl ∧ TTLManager.deadline t' r'.ttl ≤ now

variable {key : Bytes} {h : History} {now : Nat}

theorem lastSet_set (t : Nat) (r : SetRecord) : lastSet key ((t, .set r) :: h) =
    if r.stored ∧ r.key = key then some (t, r) else lastSet key h := rfl

theorem collected_set (t : Nat) (r : SetRecord) : collected key ((t, .set r) :: h) =
    if r.stored ∧ r.key = key then false else collected key h := rfl

theorem over_set {t : Nat} {r : SetRecord} (hr : r.stored ∧ r.key = key) :
    Over key now ((t, .set r) :: h) ↔ 0 < r.ttl ∧ TTLManager.deadline t r.ttl ≤ now := by
  constructor
  · intro hover
    obtain ⟨t', r', hmem, -, -, hpos, hle⟩ := hover [] t r h rfl hr.1 hr.2
    cases List.mem_singleton.mp hmem
    exact ⟨hpos, hle⟩
  · rintro ⟨hpos, hle⟩ newer t' r' older heq - -
    refine ⟨t, r, ?_, hr.1, hr.2, hpos, hle⟩
    cases newer with
    | nil => simpa using (List.cons.inj heq).1
    | cons e newer => simp [(List.cons.inj heq).1]

theorem over_other {e : Nat × Event}
    (he : ∀ t r, e = (t, .set r) → ¬ (r.stored ∧ r.key = key)) :
    Over key now (e :: h) ↔ Over key now h := by
  constructor
  · intro hover newer t r older heq hs hk
    obtain ⟨t', r', hmem, hs', hk', hdue⟩ := hover (e :: newer) t r older (by simp [heq]) hs hk
    rcases List.mem_cons.mp hmem with rfl | hmem
    · exact absurd ⟨hs', hk'⟩ (he t' r' rfl)
    · exact ⟨t', r', hmem, hs', hk', hdue⟩
  · intro hover newer t r older heq hs hk
    cases newer with
    | nil => exact absurd ⟨hs, hk⟩ (he t r (List.cons.inj heq).1)
    | cons e' newer =>
      obtain ⟨t', r', hmem, hrest⟩ := hover newer t r older (List.cons.inj heq).2 hs hk
      exact ⟨t', r', List.mem_cons_of_mem _ hmem, hrest⟩

/-- Only the last successful `set` matters. -/
theorem over_iff : Over key now h ↔
    ∀ t r, lastSet key h = some (t, r) → 0 < r.ttl ∧ TTLManager.deadline t r.ttl ≤ now := by
  induction h with
  | nil => simp [Over, lastSet]
  | cons e h ih =>
    obtain ⟨t, e⟩ := e
    cases e with
    | set r =>
      rw [lastSet_set]
      by_cases hr : r.stored ∧ r.key = key
      · rw [over_set hr, if_pos hr]
        simp
      · rw [over_other (by rintro _ _ ⟨rfl, rfl⟩; exact hr), if_neg hr, ih]
    | get | del | collect | expire | tick => rw [over_other (by simp), ih]; rfl

end History

open History AssocMap

namespace World

/-- What the store and the table know of the last successful set of each key. -/
structure Tracks (h : History) (w : World) : Prop where
  present : ∀ k m, w.storage.data.lookup k = some m →
    ∃ t r, lastSet k h = some (t, r) ∧ m.value = r.value
  deadline : ∀ k d, w.storage.ttl.expiries.lookup k = some d → collected k h = false ∧
    ∃ t r, lastSet k h = some (t, r) ∧ 0 < r.ttl ∧ d = TTLManager.deadline t r.ttl
  /-- a stored key keeps its deadline until a pass collects it -/
  armed : ∀ k m t r, w.storage.data.lookup k = some m → lastSet k h = some (t, r) →
    0 < r.ttl → collected k h = false →
    w.storage.ttl.expiries.lookup k = some (TTLManager.deadline t r.ttl)
  collected : ∀ k, collected k h = true → ∃ t r, lastSet k h = some (t, r) ∧
    0 < r.ttl ∧ TTLManager.deadline t r.ttl ≤ w.now

namespace Tracks

variable {h : History} {w : World}

/-- Steps that only take keys away and that the history does not count. -/
theorem shrink (ht : Tracks h w) {s : Storage} {e : Event} {pending : List Bytes}
    (hlast : ∀ k, lastSet k ((w.now, e) :: h) = lastSet k h)
    (hcoll : ∀ k, History.collected k ((w.now, e) :: h) = History.collected k h)
    (hs : Storage.Shrinks w.storage s) :
    Tracks ((w.now, e) :: h) { storage := s, pending := pending, now := w.now } where
  present k m hm := by
    rw [hlast]
    exact ht.present k m (hs.data k m hm).1
  deadline k d hd := by
    rw [hlast, hcoll]
    exact ht.deadline k d (hs.ttl k d hd)
  armed k m t r hm hr hpos hc := by
    rw [hlast] at hr
    rw [hcoll] at hc
    rw [(hs.data k m hm).2]
    exact ht.armed k m t r (hs.data k m hm).1 hr hpos hc
  collected k hc := by
    rw [hcoll] at hc
    rw [hlast]
    exact ht.collected k hc

theorem set (ht : Tracks h w) (buckets : Nat) (key : Bytes) (value : Str) (ttl : Int) :
    Tracks ((w.now, .set (w.record buckets key value ttl)) :: h)
      { w with storage := (w.storage.set w.now buckets key value ttl).2 } := by
  have hstored := w.record_stored buckets key value ttl
  cases hstore : w.storage.canStore key value with
  | false =>
    rw [hstore] at hstored
    rw [Storage.set_of_refused _ _ _ hstore]
    exact ht.shrink (by simp [lastSet_set, hstored]) (by simp [collected_set, hstored])
      (Storage.Shrinks.of_eq rfl rfl)
  | true =>
    rw [hstore] at hstored
    have hkey : (w.record buckets key value ttl).key = key := rfl
    have hlast : ∀ k, lastSet k ((w.now, .set (w.record buckets key value ttl)) :: h) =
        if k = key then some (w.now, w.record buckets key value ttl) else lastSet k h := fun k => by
      simp [lastSet_set, hstored, hkey, eq_comm]
    have hcoll : ∀ k, History.collected k ((w.now, .set (w.record buckets key value ttl)) :: h) =
        if k = key then false else History.collected k h := fun k => by
      simp [collected_set, hstored, hkey, eq_comm]
    have hdata := Storage.lookup_set w.now buckets ttl hstore
    have httl := Storage.deadline_set w.now buckets ttl hstore
    constructor
    · intro k m hm
      rw [hdata] at hm
      rw [hlast]
      split_ifs at hm ⊢ with hv hk
      · exact ⟨_, _, rfl, by rw [← Option.some.inj hm]; rfl⟩
      · exact ht.present k m hm
    · intro k d hd
      rw [httl] at hd
      rw [hlast, hcoll]
      split_ifs at hd ⊢ with hv hk hpos
      · exact ⟨rfl, _, _, rfl, hpos, (Option.some.inj hd).symm⟩
      · exact ht.deadline k d hd
    · intro k m t r hm hr hpos hc
      rw [hdata] at hm
      rw [hlast] at hr
      rw [hcoll] at hc
      rw [httl]
      split_ifs at hm hr hc ⊢ with hv hk hpos'
      · cases hr
        rfl
      · cases hr
        exact absurd hpos hpos'
      · exact ht.armed k m t r hm hr hpos hc
    · intro k hc
      rw [hcoll] at hc
      rw [hlast]
      split_ifs at hc ⊢ with hk
      exact ht.collected k hc

theorem collect (ht : Tracks h w) {batch : List Bytes}
    (hall : batch.Perm (w.storage.collectExpired w.now).1) :
    Tracks ((w.now, .collect batch) :: h)
      { w with storage := (w.storage.collectExpired w.now).2, pending := batch } := by
  have hbatch : ∀ k, k ∈ batch ↔
      ∃ d, w.storage.ttl.expiries.lookup k = some d ∧ d ≤ w.now := fun k =>
    hall.mem_iff.trans TTLManager.mem_expiredKeys
  have httl : ∀ k, (w.storage.collectExpired w.now).2.ttl.expiries.lookup k =
      (w.storage.ttl.expiries.lookup k).filter fun d => ¬ d ≤ w.now := fun k =>
    TTLManager.lookup_expiredKeys
  have hcoll : ∀ k, History.collected k ((w.now, .collect batch) :: h) = true ↔
      k ∈ batch ∨ History.collected k h = true := fun k => by simp [History.collected]
  constructor
  · exact ht.present
  · intro k d hd
    obtain ⟨hd, hlate⟩ := Option.filter_eq_some_iff.mp ((httl k).symm.trans hd)
    obtain ⟨hc, hrest⟩ := ht.deadline k d hd
    refine ⟨Bool.eq_false_iff.mpr fun hc' => ?_, hrest⟩
    rcases (hcoll k).mp hc' with hk | hk
    · obtain ⟨d', hd', hle⟩ := (hbatch k).mp hk
      rw [hd] at hd'
      cases hd'
      simp [hle] at hlate
    · simp [hc] at hk
  · intro k m t r hm hr hpos hc
    have hc' : ¬ (k ∈ batch ∨ History.collected k h = true) := fun hk => by
      simp [(hcoll k).mpr hk] at hc
    obtain ⟨hk, hcold⟩ := not_or.mp hc'
    have harmed := ht.armed k m t r hm hr hpos (Bool.eq_false_iff.mpr hcold)
    refine (httl k).trans (Option.filter_eq_some_iff.mpr ⟨harmed, ?_⟩)
    simpa using fun hle => hk ((hbatch k).mpr ⟨_, harmed, hle⟩)
  · intro k hc
    rcases (hcoll k).mp hc with hk | hk
    · obtain ⟨d, hd, hle⟩ := (hbatch k).mp hk
      obtain ⟨-, t, r, hr, hpos, rfl⟩ := ht.deadline k d hd
      exact ⟨t, r, hr, hpos, hle⟩
    · exact ht.collected k hk

theorem tick (ht : Tracks h w) (ticks : Nat) :
    Tracks ((w.now, .tick ticks) :: h) { w with now := w.now + ticks } where
  present := ht.present
  deadline := ht.deadline
  armed := ht.armed
  collected k hc := by
    obtain ⟨t, r, hr, hpos, hle⟩ := ht.collected k hc
    exact ⟨t, r, hr, hpos, hle.trans (Nat.le_add_right _ _)⟩

theorem step (ht : Tracks h w) {w' : World} {e : Nat × Event} (hs : Step w e w') :
    Tracks (e :: h) w' := by
  cases hs with
  | set buckets key value ttl => exact ht.set buckets key value ttl
  | get key => exact ht.shrink (fun _ => rfl) (fun _ => rfl) (.get _ _ _)
  | del key => exact ht.shrink (fun _ => rfl) (fun _ => rfl) (.del _ _)
  | collect batch _ hall => exact ht.collect hall
  | expire key rest _ => exact ht.shrink (fun _ => rfl) (fun _ => rfl) (.expireKey _ _)
  | tick ticks => exact ht.tick ticks

end Tracks

variable {buckets memoryLimit maxValueSize : Nat} {h : History} {w w' : World} {key : Bytes}

theorem tracks_of_reaches (hr : (system buckets memoryLimit maxValueSize).Reaches h w) :
    Tracks h w := by
  refine hr.invariant (P := Tracks) (fun w hw => ?_) fun _ _ _ _ _ ht hs => ht.step hs
  have hdata : w.storage.data = ∅ := by rw [hw.1]; rfl
  have httl : w.storage.ttl.expiries = ∅ := by rw [hw.1]; rfl
  exact ⟨by simp [hdata], by simp [httl], by simp [hdata], by simp [History.collected]⟩

/-- What the sweeper does, as opposed to the clients and the clock. -/
def sweeps : Event → Bool
  | .collect _ | .expire _ => true
  | _ => false

/-- A sweeper step takes a key out of the store. -/
def Sweeps (w : World) (e : Nat × Event) (w' : World) (key : Bytes) : Prop :=
  Step w e w' ∧ sweeps e.2 = true ∧
    (w.storage.data.lookup key).isSome ∧ (w'.storage.data.lookup key).isNone

/-! ## The sweeper and newer values -/

/-- A sweeper step destroys no newer value if and only if no `set` of the key has succeeded since
a pass collected it, or the deadline of the last one has passed as well. -/
theorem sweeps_over_iff (hr : (system buckets memoryLimit maxValueSize).Reaches h w)
    {e : Nat × Event} (hs : Sweeps w e w' key) :
    Over key w.now h ↔
      collected key h = true ∨ (w.storage.ttl.isExpired w.now key).1 = true := by
  have ht := tracks_of_reaches hr
  obtain ⟨m, hm⟩ := Option.isSome_iff_exists.mp hs.2.2.1
  obtain ⟨t, r, hlast, -⟩ := ht.present key m hm
  rw [over_iff, TTLManager.isExpired_iff]
  constructor
  · intro hover
    obtain ⟨hpos, hle⟩ := hover t r hlast
    cases hc : collected key h with
    | true => exact Or.inl rfl
    | false => exact Or.inr ⟨_, ht.armed key m t r hm hlast hpos hc, hle⟩
  · intro hdue t' r' hlast'
    rcases hdue with hc | ⟨d, hd, hle⟩
    · obtain ⟨t'', r'', hlast'', hpos, hle⟩ := ht.collected key hc
      rw [hlast'] at hlast''
      cases hlast''
      exact ⟨hpos, hle⟩
    · obtain ⟨-, t'', r'', hlast'', hpos, rfl⟩ := ht.deadline key d hd
      rw [hlast'] at hlast''
      cases hlast''
      exact ⟨hpos, hle⟩

/-- Without a newer value the pass removes the key with good reason. -/
theorem swept_expire_over : Over [107] ticksPerSecond sweptHistory :=
  (sweeps_over_iff swept_reaches
    ⟨Step.expire swept [107] [] rfl, rfl, by decide, by decide⟩).mpr (Or.inl (by decide))

/-- A value that is set while the pass is under way does not outlive it, though it has no
deadline at all. -/
theorem sweeps_not_over : ¬ ∀ (buckets memoryLimit maxValueSize : Nat) (h : History) (w w' : World)
    (e : Nat × Event) (key : Bytes), (system buckets memoryLimit maxValueSize).Reaches h w →
    Sweeps w e w' key → Over key w.now h := by
  intro hall
  have newer := swept_reaches.next (Step.set _ 1 [107] ⟨[2], 15, by decide⟩ 0)
  have hover := hall _ _ _ _ _ _ _ [107] newer
    ⟨Step.expire _ [107] [] rfl, rfl, by decide, by decide⟩
  exact absurd (over_iff.mp hover _ _ rfl).1 (by decide)

/-! ## get and expired values -/

/-- An expired key is served if and only if it is still stored after a pass has collected it. -/
theorem get_expired_iff (hr : (system buckets memoryLimit maxValueSize).Reaches h w)
    {t : Nat} {r : SetRecord} (hlast : lastSet key h = some (t, r)) (hpos : 0 < r.ttl)
    (hle : TTLManager.deadline t r.ttl ≤ w.now) :
    ((w.storage.get w.now key).1 = none ∧
        (w.storage.get w.now key).2.misses = w.storage.misses + 1) ↔
      ¬ ((w.storage.data.lookup key).isSome ∧ collected key h = true) := by
  have ht := tracks_of_reaches hr
  cases he : (w.storage.ttl.isExpired w.now key).1 with
  | true =>
    obtain ⟨d, hd, -⟩ := TTLManager.isExpired_iff.mp he
    simp [Storage.get_of_expired he, (ht.deadline key d hd).1]
  | false =>
    cases hm : w.storage.data.lookup key with
    | none => simp [Storage.get_of_absent he hm]
    | some m =>
      suffices collected key h = true by simp [Storage.get_of_present he hm, this]
      refine Bool.of_not_eq_false fun hc => ?_
      have hdue := TTLManager.isExpired_iff.mpr ⟨_, ht.armed key m t r hm hlast hpos hc, hle⟩
      simp [he] at hdue

/-- Before the pass collects it, the expired key is a miss. -/
theorem expired_get_misses : ((((Storage.init 1 1024 1024).set 0 1 [107]
      ⟨[1], 15, by decide⟩ 1).2.get ticksPerSecond [107]).1 = none) := by
  have hlast : lastSet [107] dueHistory = some (0, ⟨[107], [1], 1, true, true, []⟩) := rfl
  exact ((get_expired_iff due_reaches hlast (by decide) (by decide)).mpr (by decide)).1

/-- Between the collection and `expire_key` the expired value is served. -/
theorem expired_get_serves : ¬ ∀ (buckets memoryLimit maxValueSize : Nat) (h : History) (w : World)
    (key : Bytes) (t : Nat) (r : SetRecord),
    (system buckets memoryLimit maxValueSize).Reaches h w → lastSet key h = some (t, r) →
    0 < r.ttl → TTLManager.deadline t r.ttl ≤ w.now →
    (w.storage.get w.now key).1 = none ∧
      (w.storage.get w.now key).2.misses = w.storage.misses + 1 := by
  intro hall
  have hget := hall _ _ _ _ _ [107] _ _ swept_reaches rfl (by decide) (by decide)
  exact absurd hget.1 (by decide)

end World

end PolyCache
