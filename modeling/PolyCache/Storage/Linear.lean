import PolyCache.Library.Simulation
import PolyCache.Storage.Expiry
import PolyCache.Storage.Locks

/-!
# Operations are atomic, almost

A run of the threads is explained by a run of the store in which each operation is one step, taken
while the operation holds `lock_`: a `set` where it updates the deadline, a `get` where it asks the
table, a `del` where it is done. What the mutex of the store does not hide is that a pass may
collect the keys that a `set` is evicting, whose deadlines it has still to erase: `Lingering` runs
let a pass find keys that are in the store no more. They keep the books, and a served value is still
the last one set.
-/

namespace PolyCache

open AssocMap

/-! ## The table and the rest of the store -/

namespace TTLManager

/-- The table without the deadlines of `keys`. -/
def without (t : TTLManager) (keys : List Bytes) : TTLManager :=
  ⟨filter (fun k _ => !keys.contains k) t.expiries⟩

theorem without_nil (t : TTLManager) : t.without [] = t := by
  have hall : filter (fun k _ => !([] : List Bytes).contains k) t.expiries = t.expiries :=
    AList.ext (List.filter_eq_self.mpr (by simp))
  rw [without, hall]

theorem without_cons (t : TTLManager) (key : Bytes) (keys : List Bytes) :
    t.without (key :: keys) = (t.erase key).without keys := by
  have hkeys : filter (fun k _ => !keys.contains k) (t.expiries.erase key) =
      filter (fun k _ => !(key :: keys).contains k) t.expiries := by
    rw [erase_eq_filter, filter_filter]
    refine filter_congr fun k _ _ => ?_
    by_cases hk : k = key <;> simp [hk]
  rw [without, without, erase, hkeys]

theorem lookup_without (t : TTLManager) (keys : List Bytes) (k : Bytes) :
    (t.without keys).expiries.lookup k = if k ∈ keys then none else t.expiries.lookup k := by
  rw [without, lookup_filter]
  split_ifs with hk <;> cases t.expiries.lookup k <;> simp [Option.filter, hk]

/-- What a pass leaves of a part of the table is that part of what it leaves. -/
theorem without_expiredKeys (t : TTLManager) (keys : List Bytes) (now : Nat) :
    ((t.without keys).expiredKeys now).2 = (t.expiredKeys now).2.without keys := by
  simp only [expiredKeys, without, mk.injEq]
  exact filter_comm _ _ _

theorem expiredKeys_perm (t : TTLManager) (keys : List Bytes) (now : Nat) :
    (t.expiredKeys now).1.Perm
      (((t.without keys).expiredKeys now).1 ++ (t.expiredKeys now).1.filter (· ∈ keys)) := by
  simpa only [expiredKeys, without, List.contains_eq_mem] using
    keys_filter_perm (fun _ d => d ≤ now) (fun k => keys.contains k) t.expiries

end TTLManager

namespace Storage

variable {s : Storage}

def withTtl (s : Storage) (t : TTLManager) : Storage := { s with ttl := t }

@[simp] theorem withTtl_data (t : TTLManager) : (s.withTtl t).data = s.data := rfl
@[simp] theorem withTtl_policy (t : TTLManager) : (s.withTtl t).policy = s.policy := rfl
@[simp] theorem withTtl_ttl (t : TTLManager) : (s.withTtl t).ttl = t := rfl

theorem withTtl_self (s : Storage) : s.withTtl s.ttl = s := rfl

theorem collectExpired_eq (s : Storage) (now : Nat) :
    s.collectExpired now = ((s.ttl.expiredKeys now).1, s.withTtl (s.ttl.expiredKeys now).2) := rfl

/-- Eviction does not read the table, and erases the deadlines of its victims. -/
theorem evictLoop_withTtl (rounds : Nat) (s : Storage) (t : TTLManager) :
    (evictLoop rounds (s.withTtl t)).victims = (evictLoop rounds s).victims ∧
      (evictLoop rounds (s.withTtl t)).storage =
        (evictLoop rounds s).storage.withTtl (t.without (evictLoop rounds s).victims) := by
  induction rounds generalizing s t with
  | zero => simp [evictLoop, TTLManager.without_nil]
  | succ rounds ih =>
    have hover : (s.withTtl t).Over ↔ s.Over := Iff.rfl
    rw [evictLoop, evictLoop]
    by_cases h : s.Over
    · rw [if_pos h, if_pos (hover.mpr h)]
      cases hm : s.data.lookup s.policy.evict.1 with
      | none =>
        simp only [withTtl_data, withTtl_policy, hm, TTLManager.without_nil]
        exact ⟨trivial, rfl⟩
      | some m =>
        have hround : (s.withTtl t).evictEntry s.policy.evict.1 m =
            (s.evictEntry s.policy.evict.1 m).withTtl (t.erase s.policy.evict.1) := rfl
        simp only [withTtl_data, withTtl_policy, hm, hround, TTLManager.without_cons]
        exact ⟨by rw [(ih _ _).1], (ih _ _).2⟩
    · rw [if_neg h, if_neg (mt hover.mp h)]
      exact ⟨rfl, by rw [TTLManager.without_nil]⟩

theorem evictLoop_ttl (rounds : Nat) (s : Storage) :
    (evictLoop rounds s).storage.ttl = s.ttl.without (evictLoop rounds s).victims := by
  conv_lhs => rw [← s.withTtl_self, (evictLoop_withTtl rounds s s.ttl).2]
  rfl

theorem place_withTtl (s : Storage) (buckets : Nat) (key : Bytes) (value : Str)
    (t : TTLManager) :
    (s.withTtl t).place buckets key value = (s.place buckets key value).withTtl t := by
  cases hm : s.data.lookup key <;>
    simp [place, hm, countNew, emplace, overwrite, withTtl]

theorem finishGet_withTtl (s : Storage) (key : Bytes) (expired : Bool) (t : TTLManager) :
    (s.withTtl t).finishGet key expired =
      ((s.finishGet key expired).1, (s.finishGet key expired).2.withTtl t) := by
  cases expired <;> cases hm : s.data.lookup key <;> simp [finishGet, hm, removeEntry, withTtl]

theorem finishGet_ttl (s : Storage) (key : Bytes) (expired : Bool) :
    (s.finishGet key expired).2.ttl = s.ttl := by
  cases expired <;> cases hm : s.data.lookup key <;> simp [finishGet, hm, removeEntry]

theorem get_eq_finishGet (s : Storage) (now : Nat) (key : Bytes) :
    s.get now key = (s.ask now key).2.finishGet key (s.ask now key).1 := rfl

theorem store_eq_arm (s : Storage) (now buckets : Nat) (key : Bytes) (value : Str) (ttl : Int) :
    s.store now buckets key value ttl = (s.place buckets key value).arm now key ttl := rfl

/-- A round of the loop, cut where it erases the deadline. -/
theorem evictIfOverLimit_nextVictim (s : Storage) :
    s.evictIfOverLimit.storage = match s.nextVictim.2 with
      | none => s.nextVictim.1
      | some victim => (s.nextVictim.1.dropDeadline victim).evictIfOverLimit.storage := by
  rw [nextVictim]
  by_cases h : s.Over
  · rw [if_pos h]
    obtain ⟨rounds, hrounds⟩ : ∃ rounds, s.data.keys.length = rounds + 1 :=
      Nat.exists_eq_succ_of_ne_zero (by simpa using h.1)
    rw [evictIfOverLimit, hrounds, evictLoop, if_pos h]
    cases hm : s.data.lookup s.policy.evict.1 with
    | none => rfl
    | some m =>
      have hlen := length_keys_erase hm
      have hkeys : ((s.unlist s.policy.evict.1 m).dropDeadline s.policy.evict.1).data.keys.length =
          rounds := by
        simp only [dropDeadline, unlist]
        omega
      simp only [evictIfOverLimit, hkeys]
      rfl
  · rw [if_neg h, evictIfOverLimit]
    cases s.data.keys.length with
    | zero => rfl
    | succ rounds => rw [evictLoop, if_neg h]

end Storage

/-! ## Runs with lingering deadlines -/

open History

namespace History

/-- The last successful `set` of the key had a ttl, which is over. -/
def Lapsed (key : Bytes) (now : Nat) (h : History) : Prop :=
  ∃ t r, lastSet key h = some (t, r) ∧ 0 < r.ttl ∧ TTLManager.deadline t r.ttl ≤ now

end History

namespace World

variable {buckets memoryLimit maxValueSize : Nat} {h : History} {w : World}

/-- The runs of the store in which a pass may also collect lapsed keys that are gone. -/
inductive Lingering (buckets memoryLimit maxValueSize : Nat) : History → World → Prop where
  | start {w : World} (init : (system buckets memoryLimit maxValueSize).init w) :
      Lingering buckets memoryLimit maxValueSize [] w
  | step {h : History} {w w' : World} {e : Nat × Event}
      (run : Lingering buckets memoryLimit maxValueSize h w) (step : Step w e w') :
      Lingering buckets memoryLimit maxValueSize (e :: h) w'
  | collect {h : History} {w : World} (batch late : List Bytes)
      (run : Lingering buckets memoryLimit maxValueSize h w) (idle : w.pending = [])
      (all : batch.Perm ((w.storage.collectExpired w.now).1 ++ late))
      (gone : ∀ k ∈ late, w.storage.data.lookup k = none ∧
        w.storage.ttl.expiries.lookup k = none ∧ Lapsed k w.now h) :
      Lingering buckets memoryLimit maxValueSize ((w.now, .collect batch) :: h)
        { w with storage := (w.storage.collectExpired w.now).2, pending := batch }

theorem Tracks.lateCollect (ht : Tracks h w) {batch late : List Bytes}
    (hall : batch.Perm ((w.storage.collectExpired w.now).1 ++ late))
    (hgone : ∀ k ∈ late, w.storage.data.lookup k = none ∧
      w.storage.ttl.expiries.lookup k = none ∧ Lapsed k w.now h) :
    Tracks ((w.now, .collect batch) :: h)
      { w with storage := (w.storage.collectExpired w.now).2, pending := batch } := by
  have hdue := ht.collect (List.Perm.refl (w.storage.collectExpired w.now).1)
  have hmem : ∀ k, k ∈ batch ↔ k ∈ (w.storage.collectExpired w.now).1 ∨ k ∈ late := fun k =>
    hall.mem_iff.trans List.mem_append
  have hcoll : ∀ k, k ∉ late →
      History.collected k ((w.now, .collect batch) :: h) =
        History.collected k ((w.now, .collect (w.storage.collectExpired w.now).1) :: h) := by
    intro k hk
    simp [History.collected, hmem, hk]
  constructor
  · exact hdue.present
  · intro k d hd
    have hk : k ∉ late := by
      intro hk
      have hnone := (hgone k hk).2.1
      have hsome := TTLManager.lookup_expiredKeys.symm.trans hd
      simp [hnone] at hsome
    rw [hcoll k hk]
    exact hdue.deadline k d hd
  · intro k m t r hm hlast hpos hc
    have hk : k ∉ late := by
      intro hk
      have hsome : w.storage.data.lookup k = some m := hm
      simp [(hgone k hk).1] at hsome
    rw [hcoll k hk] at hc
    exact hdue.armed k m t r hm hlast hpos hc
  · intro k hc
    by_cases hk : k ∈ late
    · exact (hgone k hk).2.2
    · rw [hcoll k hk] at hc
      exact hdue.collected k hc

namespace Lingering

theorem tracks (hr : Lingering buckets memoryLimit maxValueSize h w) : Tracks h w := by
  induction hr with
  | start init => exact tracks_of_reaches (.start init)
  | step _ hstep ih => exact ih.step hstep
  | collect batch late _ _ hall hgone ih => exact ih.lateCollect hall hgone

theorem sound (hr : Lingering buckets memoryLimit maxValueSize h w) : w.storage.Sound := by
  induction hr with
  | start init => exact sound_of_reaches (.start init)
  | step _ hstep ih => exact hstep.sound ih
  | collect batch late _ _ _ _ ih => exact ih.collectExpired _

end Lingering

end World

/-! ## Each operation takes effect at one moment -/

/-- What an event answers a client. -/
def Event.answer : Event → Option Answer
  | .set r => some (.set r.key r.value r.ttl r.stored)
  | .get key blob => some (.get key blob)
  | .del key removed => some (.del key removed)
  | .collect _ | .expire _ | .tick _ => none

/-- The answers of a history with their times, newest first. -/
def History.answers (h : History) : List (Nat × Answer) :=
  h.filterMap fun e => e.2.answer.map fun a => (e.1, a)

/-- The last write of the key: its value and ttl if it was a `set`, with the time. -/
def written (key : Bytes) : List (Nat × Answer) → Option (Nat × Bytes × Int)
  | [] => none
  | (t, .set k value ttl stored) :: answers =>
    if stored ∧ k = key then some (t, value, ttl) else written key answers
  | (_, .del k removed) :: answers => if removed ∧ k = key then none else written key answers
  | (_, .get _ _) :: answers => written key answers

/-- Each value that a `get` has returned is the last one written, and was still to live, unless a
pass had collected the key. -/
def History.Served (h : History) : Prop :=
  ∀ (newer : History) t key value (older : History),
    h = newer ++ (t, .get key (some value)) :: older →
    ∃ t' ttl, written key older.answers = some (t', value, ttl) ∧
      (0 < ttl → t < TTLManager.deadline t' ttl ∨ History.collected key older = true)

namespace World

/-- A stored value is the last one written. -/
def Written (h : History) (w : World) : Prop :=
  ∀ k m, w.storage.data.lookup k = some m → ∃ t r, History.lastSet k h = some (t, r) ∧
    written k h.answers = some (t, m.value, r.ttl)

theorem Step.get_eq {w w' : World} {t : Nat} {key : Bytes} {blob : Option Bytes}
    (hs : Step w (t, .get key blob) w') : t = w.now ∧ blob = (w.storage.get w.now key).1 := by
  generalize he : (t, Event.get key blob) = e at hs
  cases hs <;> cases he
  exact ⟨rfl, rfl⟩

namespace Written

variable {h : History} {w w' : World} {e : Nat × Event}

theorem set (hw : Written h w) (buckets : Nat) (key : Bytes) (value : Str) (ttl : Int) :
    Written ((w.now, .set (w.record buckets key value ttl)) :: h)
      { w with storage := (w.storage.set w.now buckets key value ttl).2 } := by
  have hstored := w.record_stored buckets key value ttl
  have hwritten : ∀ k, written k
      (History.answers ((w.now, .set (w.record buckets key value ttl)) :: h)) =
        if w.storage.canStore key value = true ∧ key = k then some (w.now, value.bytes, ttl)
        else written k h.answers := by
    intro k
    rw [← hstored]
    rfl
  intro k m hm
  rw [History.lastSet_set, hstored, hwritten]
  cases hfits : w.storage.canStore key value with
  | false =>
    rw [Storage.set_of_refused _ _ _ hfits] at hm
    simpa using hw k m hm
  | true =>
    rw [Storage.lookup_set w.now buckets ttl hfits] at hm
    have hkey : (w.record buckets key value ttl).key = key := rfl
    rw [hkey]
    split_ifs at hm with hv hk
    · rw [if_pos ⟨rfl, hk.symm⟩, if_pos ⟨rfl, hk.symm⟩, ← Option.some.inj hm]
      exact ⟨_, _, rfl, rfl⟩
    · rw [if_neg fun h' => hk h'.2.symm, if_neg fun h' => hk h'.2.symm]
      exact hw k m hm

theorem del (hw : Written h w) (key : Bytes) :
    Written ((w.now, .del key (w.storage.del key).1) :: h)
      { w with storage := (w.storage.del key).2 } := by
  have hwritten : ∀ k, written k (History.answers ((w.now, .del key (w.storage.del key).1) :: h)) =
      if (w.storage.del key).1 = true ∧ key = k then none else written k h.answers := fun _ => rfl
  intro k m hm
  have hlast : History.lastSet k ((w.now, .del key (w.storage.del key).1) :: h) =
      History.lastSet k h := rfl
  rw [hlast, hwritten]
  cases hpresent : w.storage.data.lookup key with
  | none =>
    rw [Storage.del_of_absent hpresent] at hm ⊢
    simpa using hw k m hm
  | some n =>
    rw [Storage.del_of_present hpresent] at hm ⊢
    have hm : (w.storage.removeEntry key n).data.lookup k = some m := hm
    rw [Storage.lookup_removeEntry] at hm
    split_ifs at hm with hk
    rw [if_neg fun h' => hk h'.2.symm]
    exact hw k m hm

theorem shrink (hw : Written h w) {s : Storage} {pending : List Bytes} {now : Nat}
    (hlast : ∀ k, History.lastSet k (e :: h) = History.lastSet k h)
    (hwritten : ∀ k, written k (History.answers (e :: h)) = written k h.answers)
    (hs : ∀ k m, s.data.lookup k = some m → w.storage.data.lookup k = some m) :
    Written (e :: h) ⟨s, pending, now⟩ := by
  intro k m hm
  rw [hlast, hwritten]
  exact hw k m (hs k m hm)

theorem step (hw : Written h w) (hs : Step w e w') : Written (e :: h) w' := by
  cases hs with
  | set n key value ttl => exact hw.set n key value ttl
  | get key =>
    exact hw.shrink (fun _ => rfl) (fun _ => rfl) fun k m hm =>
      ((Storage.Shrinks.get _ _ _).data k m hm).1
  | del key => exact hw.del key
  | collect => exact hw.shrink (fun _ => rfl) (fun _ => rfl) fun _ _ hm => hm
  | expire key =>
    exact hw.shrink (fun _ => rfl) (fun _ => rfl) fun k m hm =>
      ((Storage.Shrinks.expireKey _ _).data k m hm).1
  | tick => exact hw.shrink (fun _ => rfl) (fun _ => rfl) fun _ _ hm => hm

end Written

namespace Lingering

variable {buckets memoryLimit maxValueSize : Nat} {h : History} {w : World}

theorem written (hr : Lingering buckets memoryLimit maxValueSize h w) : Written h w := by
  induction hr with
  | start init =>
    intro k m hm
    rw [init.1] at hm
    simp [Storage.init] at hm
  | step _ hstep ih => exact ih.step hstep
  | collect => rename_i ih; exact ih.shrink (fun _ => rfl) (fun _ => rfl) fun _ _ hm => hm

/-- What a `get` returns now. -/
theorem get_written (hr : Lingering buckets memoryLimit maxValueSize h w) {key value : Bytes}
    (hget : (w.storage.get w.now key).1 = some value) :
    ∃ t ttl, PolyCache.written key h.answers = some (t, value, ttl) ∧
      (0 < ttl → w.now < TTLManager.deadline t ttl ∨ History.collected key h = true) := by
  have ht := hr.tracks
  cases he : (w.storage.ttl.isExpired w.now key).1 with
  | true =>
    rw [Storage.get_of_expired he] at hget
    cases hget
  | false =>
    cases hm : w.storage.data.lookup key with
    | none =>
      rw [Storage.get_of_absent he hm] at hget
      cases hget
    | some m =>
      rw [Storage.get_of_present he hm] at hget
      obtain rfl := Option.some.inj hget
      obtain ⟨t, r, hlast, hwritten⟩ := hr.written key m hm
      refine ⟨t, r.ttl, hwritten, fun hpos => ?_⟩
      cases hc : History.collected key h with
      | true => exact Or.inr rfl
      | false =>
        have harmed := ht.armed key m t r hm hlast hpos hc
        refine Or.inl (Nat.lt_of_not_le fun hle => ?_)
        have hdue := TTLManager.isExpired_iff.mpr ⟨_, harmed, hle⟩
        rw [he] at hdue
        cases hdue

theorem served (hr : Lingering buckets memoryLimit maxValueSize h w) : h.Served := by
  induction hr with
  | start => exact fun newer t key value older heq => by simp at heq
  | step hrun hstep ih =>
    intro newer t key value older heq
    cases newer with
    | cons e newer => exact ih newer t key value older (List.cons.inj heq).2
    | nil =>
      obtain ⟨rfl, rfl⟩ := List.cons.inj heq
      obtain ⟨rfl, hget⟩ := hstep.get_eq
      exact hrun.get_written hget.symm
  | collect batch late hrun hidle hall hgone ih =>
    intro newer t key value older heq
    cases newer with
    | cons e newer => exact ih newer t key value older (List.cons.inj heq).2
    | nil => simp at heq

end Lingering

end World

/-- The operation took effect at the given time, with the answer it gave. -/
def Call.Spans (c : Call) (a : Nat × Answer) : Prop :=
  c.entered ≤ a.1 ∧ a.1 ≤ c.left ∧ c.answer = a.2

namespace Threads

open World

/-- The store when the operation in `lock_` has taken effect at once: it is `s` with what the
operation has still to do, or `s` is what the operation has made of it so far. -/
def Matches : Section → Storage → Storage → Prop
  | .outside, s, t | .leaving _, s, t => s = t
  | .placed key value _, s, t =>
    t.canStore key value = true ∧ ∃ buckets, s = t.place buckets key value
  | .evicting _ victim, s, t =>
    s.data.lookup victim = none ∧ t = (s.dropDeadline victim).evictIfOverLimit.storage
  | .asked key expired, s, t => t = (s.finishGet key expired).2
  | .removed key, s, t => ∃ m, t.data.lookup key = some m ∧ s = t.removeEntry key m

/-- The answer of the operation in `lock_`, once it has taken effect. -/
def pending (f : Threads) : Option Answer :=
  match f.client with
  | .evicting answer _ | .leaving answer => some answer
  | .asked key expired => some (.get key (f.storage.finishGet key expired).1)
  | .outside | .placed _ _ _ | .removed _ => none

/-- The answers are those of the calls that have returned and of the one that is pending. -/
def Answers (f : Threads) (g : List Label) (answers : List (Nat × Answer)) : Prop :=
  match f.pending with
  | none => List.Forall₂ Call.Spans (returns g) answers
  | some a => ∃ t rest, answers = (t, a) :: rest ∧ f.entered ≤ t ∧ t ≤ f.now ∧
      List.Forall₂ Call.Spans (returns g) rest

/-- How a run of the threads and a run of the store correspond. -/
structure Follows (g : List Label) (f : Threads) (h : History) (w : World) : Prop where
  now : w.now = f.now
  batch : w.pending = f.batch
  entered : f.client = .outside ∨ f.entered ≤ f.now
  store : Matches f.client f.storage w.storage
  deadlines : ∀ k d, f.storage.ttl.expiries.lookup k = some d →
    ∃ t r, History.lastSet k h = some (t, r) ∧ 0 < r.ttl ∧ d = TTLManager.deadline t r.ttl
  answers : Answers f g h.answers

/-! ## The mutex of the table -/

/-- The operation in `lock_` does not mind a pass, and the pass collects what it would have, and
keys that are being evicted. -/
theorem Matches.collect {c : Section} {s t : Storage} (hm : Matches c s t) (now : Nat) :
    Matches c (s.collectExpired now).2 (t.collectExpired now).2 ∧
      ∃ late, (s.collectExpired now).1.Perm ((t.collectExpired now).1 ++ late) ∧
        ∀ k ∈ late, t.data.lookup k = none ∧ t.ttl.expiries.lookup k = none ∧
          k ∈ (s.collectExpired now).1 := by
  have hsame : s.ttl = t.ttl → ∃ late,
      (s.collectExpired now).1.Perm ((t.collectExpired now).1 ++ late) ∧
        ∀ k ∈ late, t.data.lookup k = none ∧ t.ttl.expiries.lookup k = none ∧
          k ∈ (s.collectExpired now).1 := by
    intro httl
    refine ⟨[], ?_, by simp⟩
    simp [Storage.collectExpired, httl]
  cases c with
  | outside | leaving =>
    have hst : s = t := hm
    subst hst
    exact ⟨rfl, hsame rfl⟩
  | placed key value ttl =>
    obtain ⟨hfits, buckets, rfl⟩ := hm
    have httl := t.place_ttl buckets key value
    refine ⟨⟨hfits, buckets, ?_⟩, hsame httl⟩
    simp only [Storage.collectExpired_eq, httl]
    exact (t.place_withTtl buckets key value _).symm
  | asked key expired =>
    have hst : t = (s.finishGet key expired).2 := hm
    have httl := s.finishGet_ttl key expired
    subst hst
    refine ⟨?_, hsame httl.symm⟩
    simp only [Matches, Storage.collectExpired_eq, httl, Storage.finishGet_withTtl]
  | removed key =>
    obtain ⟨m, hkey, rfl⟩ := hm
    exact ⟨⟨m, hkey, rfl⟩, hsame rfl⟩
  | evicting answer victim =>
    obtain ⟨hgone, ht⟩ := hm
    -- the loop goes the same way, whatever the table is
    let run := Storage.evictLoop s.data.keys.length (s.dropDeadline victim)
    have ht : t = run.storage := ht
    have hrun : ∀ u,
        (Storage.evictLoop s.data.keys.length ((s.dropDeadline victim).withTtl u)).storage =
          run.storage.withTtl (u.without run.victims) :=
      fun u => (Storage.evictLoop_withTtl s.data.keys.length (s.dropDeadline victim) u).2
    have hlookup : ∀ k, run.storage.data.lookup k =
        if k ∈ run.victims then none else s.data.lookup k :=
      (Storage.evictLoop_victims s.data.keys.length (s.dropDeadline victim)).1
    have httl : t.ttl = s.ttl.without (victim :: run.victims) := by
      rw [ht, TTLManager.without_cons]
      exact Storage.evictLoop_ttl s.data.keys.length (s.dropDeadline victim)
    refine ⟨⟨hgone, ?_⟩, (s.collectExpired now).1.filter (· ∈ victim :: run.victims), ?_, ?_⟩
    · calc (t.collectExpired now).2
          = t.withTtl (t.ttl.expiredKeys now).2 := rfl
        _ = run.storage.withTtl
              (((s.ttl.expiredKeys now).2.erase victim).without run.victims) := by
            rw [httl, TTLManager.without_expiredKeys, TTLManager.without_cons, ht]
        _ = (Storage.evictLoop s.data.keys.length
              ((s.collectExpired now).2.dropDeadline victim)).storage := (hrun _).symm
    · simp only [Storage.collectExpired, httl]
      exact TTLManager.expiredKeys_perm _ _ _
    · intro k hk
      obtain ⟨hdue, hvictim⟩ := List.mem_filter.mp hk
      have hvictim := of_decide_eq_true hvictim
      refine ⟨?_, ?_, hdue⟩
      · rw [ht, hlookup k]
        split_ifs with hlater
        · rfl
        · obtain rfl := (List.mem_cons.mp hvictim).resolve_right hlater
          exact hgone
      · rw [httl, TTLManager.lookup_without, if_pos hvictim]

/-- After a round the loop is where the whole loop would end. -/
theorem matches_round (f : Threads) (answer : Answer) (s : Storage) :
    Matches (f.round answer s).client (f.round answer s).storage s.evictIfOverLimit.storage := by
  rw [Storage.evictIfOverLimit_nextVictim s]
  simp only [round]
  cases hn : s.nextVictim.2 with
  | none => rfl
  | some victim =>
    refine ⟨?_, rfl⟩
    rw [Storage.nextVictim] at hn ⊢
    split_ifs at hn ⊢ with hover
    cases hm : s.data.lookup s.policy.evict.1 with
    | none => simp [hm] at hn
    | some m =>
      simp only [hm, Option.some.injEq] at hn ⊢
      rw [← hn]
      exact AList.lookup_erase _ _

/-! ## One step of the threads -/

variable {buckets memoryLimit maxValueSize : Nat} {g : List Label} {f : Threads} {h : History}
  {w : World}

/-- What it means that a run is followed for one more step. -/
def Followed (buckets memoryLimit maxValueSize : Nat) (g : List Label) (f : Threads) : Prop :=
  ∃ h w, Lingering buckets memoryLimit maxValueSize h w ∧ Follows g f h w

namespace Follows

theorem storage_eq (hf : Follows g f h w) (hout : f.client = .outside) :
    w.storage = f.storage := by
  have hstore := hf.store
  rw [hout] at hstore
  exact hstore.symm

theorem returned (hf : Follows g f h w) (hnone : f.pending = none) :
    List.Forall₂ Call.Spans (returns g) h.answers := by
  have hanswers := hf.answers
  rwa [Answers, hnone] at hanswers

theorem refuse (hf : Follows g f h w) (hr : Lingering buckets memoryLimit maxValueSize h w)
    {key : Bytes} {value : Str} (ttl : Int) (hout : f.client = .outside)
    (hrefused : f.storage.canStore key value = false) :
    Followed buckets memoryLimit maxValueSize
      (.returned ⟨f.now, f.now, .set key value.bytes ttl false⟩ :: g) f := by
  have heq := hf.storage_eq hout
  have hnone : f.pending = none := by simp [pending, hout]
  have hstored := w.record_stored 0 key value ttl
  rw [heq, hrefused] at hstored
  refine ⟨_, _, hr.step (World.Step.set w 0 key value ttl), ?_⟩
  have hset : (w.storage.set w.now 0 key value ttl).2 = w.storage :=
    Storage.set_of_refused _ _ _ (heq ▸ hrefused)
  rw [hset]
  refine ⟨hf.now, hf.batch, Or.inl hout, hf.store, fun k d hd => ?_, ?_⟩
  · rw [History.lastSet_set, if_neg (by simp [hstored])]
    exact hf.deadlines k d hd
  · rw [Answers, hnone]
    refine List.Forall₂.cons ⟨?_, ?_, ?_⟩ (hf.returned hnone)
    · exact hf.now.ge
    · exact hf.now.le
    · simp [World.record, heq, Storage.set_fst, hrefused]

/-- A step of the operation in `lock_` that the store does not take part in. -/
theorem stutter (hf : Follows g f h w) (hr : Lingering buckets memoryLimit maxValueSize h w)
    {f' : Threads} (hnow : f'.now = f.now) (hbatch : f'.batch = f.batch)
    (hentered : f'.entered ≤ f.now) (hstore : Matches f'.client f'.storage w.storage)
    (httl : ∀ k d, f'.storage.ttl.expiries.lookup k = some d →
      f.storage.ttl.expiries.lookup k = some d)
    (hanswers : Answers f' g h.answers) :
    Followed buckets memoryLimit maxValueSize (.client :: g) f' :=
  ⟨h, w, hr, hf.now.trans hnow.symm, hf.batch.trans hbatch.symm,
    Or.inr (hentered.trans hnow.ge), hstore, fun k d hd => hf.deadlines k d (httl k d hd), hanswers⟩

theorem place (hf : Follows g f h w) (hr : Lingering buckets memoryLimit maxValueSize h w)
    {key : Bytes} {value : Str} (n : Nat) (ttl : Int) (hout : f.client = .outside)
    (hfits : f.storage.canStore key value = true) :
    Followed buckets memoryLimit maxValueSize (.client :: g) { f with
      storage := f.storage.place n key value
      client := .placed key value ttl
      entered := f.now } := by
  have heq := hf.storage_eq hout
  refine hf.stutter hr rfl rfl (Nat.le_refl _) ?_ (fun k d hd => ?_) ?_
  · rw [heq]
    exact ⟨hfits, n, rfl⟩
  · rwa [Storage.place_ttl] at hd
  · exact hf.returned (by simp [pending, hout])

theorem round_ttl (f : Threads) (answer : Answer) (s : Storage) :
    (f.round answer s).storage.ttl = s.ttl := by
  simp only [round, Storage.nextVictim]
  split_ifs
  · cases hm : s.data.lookup s.policy.evict.1 <;> simp [Storage.unlist]
  · rfl

theorem round_pending (f : Threads) (answer : Answer) (s : Storage) :
    (f.round answer s).pending = some answer := by
  simp only [round, pending]
  cases s.nextVictim.2 <;> rfl

theorem arm (hf : Follows g f h w) (hr : Lingering buckets memoryLimit maxValueSize h w)
    {key : Bytes} {value : Str} {ttl : Int} (hplaced : f.client = .placed key value ttl) :
    Followed buckets memoryLimit maxValueSize (.client :: g)
      (f.round (.set key value.bytes ttl true) (f.storage.arm f.now key ttl)) := by
  have hstore := hf.store
  rw [hplaced] at hstore
  obtain ⟨hfits, n, hplace⟩ := hstore
  have hentered := hf.entered.resolve_left (by simp [hplaced])
  have hstored := w.record_stored n key value ttl
  rw [hfits] at hstored
  have hkey : (w.record n key value ttl).key = key := rfl
  have hset : (w.storage.set w.now n key value ttl).2 =
      (f.storage.arm f.now key ttl).evictIfOverLimit.storage := by
    rw [Storage.set, if_pos hfits, Storage.store_eq_arm, ← hplace, hf.now]
  refine ⟨_, _, hr.step (World.Step.set w n key value ttl), ?_⟩
  rw [hset]
  refine ⟨hf.now, hf.batch, Or.inr hentered, matches_round f _ _, fun k d hd => ?_, ?_⟩
  · rw [round_ttl] at hd
    have hlookup : (f.storage.arm f.now key ttl).ttl.expiries.lookup k =
        if k = key then (if 0 < ttl then some (TTLManager.deadline f.now ttl) else none)
        else f.storage.ttl.expiries.lookup k := by
      rw [hplace, ← Storage.store_eq_arm, Storage.deadline_store, Storage.place_ttl]
    rw [hlookup] at hd
    rw [History.lastSet_set, hkey]
    split_ifs at hd with hk hpos
    · rw [if_pos ⟨hstored, hk.symm⟩]
      exact ⟨_, _, rfl, hpos, by rw [hf.now]; exact (Option.some.inj hd).symm⟩
    · rw [if_neg fun hk' => hk hk'.2.symm]
      exact hf.deadlines k d hd
  · rw [Answers, round_pending]
    refine ⟨w.now, h.answers, ?_, ?_, ?_, ?_⟩
    · simp [History.answers, Event.answer, World.record, Storage.set_fst, hfits]
    · rw [hf.now]
      exact hentered
    · exact hf.now.le
    · exact hf.returned (by simp [pending, hplaced])

theorem drop (hf : Follows g f h w) (hr : Lingering buckets memoryLimit maxValueSize h w)
    {answer : Answer} {victim : Bytes} (hevicting : f.client = .evicting answer victim) :
    Followed buckets memoryLimit maxValueSize (.client :: g)
      (f.round answer (f.storage.dropDeadline victim)) := by
  have hstore := hf.store
  rw [hevicting] at hstore
  refine hf.stutter hr rfl rfl (hf.entered.resolve_left (by simp [hevicting])) ?_
    (fun k d hd => ?_) ?_
  · rw [hstore.2]
    exact matches_round f _ _
  · rw [round_ttl, Storage.dropDeadline, TTLManager.lookup_erase] at hd
    split_ifs at hd
    exact hd
  · have hanswers := hf.answers
    have hpending : f.pending = some answer := by simp [pending, hevicting]
    rw [Answers, hpending] at hanswers
    rw [Answers, round_pending]
    exact hanswers

theorem ask (hf : Follows g f h w) (hr : Lingering buckets memoryLimit maxValueSize h w)
    (key : Bytes) (hout : f.client = .outside) :
    Followed buckets memoryLimit maxValueSize (.client :: g) { f with
      storage := (f.storage.ask f.now key).2
      client := .asked key (f.storage.ask f.now key).1
      entered := f.now } := by
  have heq := hf.storage_eq hout
  have hget : w.storage.get w.now key =
      (f.storage.ask f.now key).2.finishGet key (f.storage.ask f.now key).1 := by
    rw [heq, hf.now, Storage.get_eq_finishGet]
  refine ⟨_, _, hr.step (World.Step.get w key), ?_⟩
  rw [hget]
  refine ⟨hf.now, hf.batch, Or.inr (Nat.le_refl _), rfl, fun k d hd => ?_, ?_⟩
  · refine hf.deadlines k d ?_
    simp only [Storage.ask] at hd
    cases he : (f.storage.ttl.isExpired f.now key).1 with
    | false => rwa [TTLManager.isExpired_false he] at hd
    | true =>
      rw [TTLManager.isExpired_true he, TTLManager.lookup_erase] at hd
      split_ifs at hd
      exact hd
  · exact ⟨w.now, h.answers, rfl, hf.now.ge, hf.now.le, hf.returned (by simp [pending, hout])⟩

theorem answer (hf : Follows g f h w) (hr : Lingering buckets memoryLimit maxValueSize h w)
    {key : Bytes} {expired : Bool} (hasked : f.client = .asked key expired) :
    Followed buckets memoryLimit maxValueSize (.client :: g) { f with
      storage := (f.storage.finishGet key expired).2
      client := .leaving (.get key (f.storage.finishGet key expired).1) } := by
  have hstore := hf.store
  rw [hasked] at hstore
  refine hf.stutter hr rfl rfl (hf.entered.resolve_left (by simp [hasked])) ?_
    (fun k d hd => ?_) ?_
  · exact hstore.symm
  · rwa [Storage.finishGet_ttl] at hd
  · have hanswers := hf.answers
    have hpending : f.pending = some (.get key (f.storage.finishGet key expired).1) := by
      simp [pending, hasked]
    rwa [Answers, hpending] at hanswers

theorem absent (hf : Follows g f h w) (hr : Lingering buckets memoryLimit maxValueSize h w)
    {key : Bytes} (hout : f.client = .outside) (habsent : f.storage.data.lookup key = none) :
    Followed buckets memoryLimit maxValueSize (.client :: g)
      { f with client := .leaving (.del key false), entered := f.now } := by
  have heq := hf.storage_eq hout
  have hdel : w.storage.del key = (false, w.storage) := Storage.del_of_absent (heq ▸ habsent)
  refine ⟨_, _, hr.step (World.Step.del w key), ?_⟩
  rw [hdel]
  exact ⟨hf.now, hf.batch, Or.inr (Nat.le_refl _), heq.symm, hf.deadlines, w.now, h.answers, rfl,
    hf.now.ge, hf.now.le, hf.returned (by simp [pending, hout])⟩

theorem remove (hf : Follows g f h w) (hr : Lingering buckets memoryLimit maxValueSize h w)
    {key : Bytes} {m : KeyMeta} (hout : f.client = .outside)
    (hpresent : f.storage.data.lookup key = some m) :
    Followed buckets memoryLimit maxValueSize (.client :: g) { f with
      storage := f.storage.removeEntry key m
      client := .removed key
      entered := f.now } := by
  refine hf.stutter hr rfl rfl (Nat.le_refl _) ?_ (fun k d hd => hd) ?_
  · rw [hf.storage_eq hout]
    exact ⟨m, hpresent, rfl⟩
  · exact hf.returned (by simp [pending, hout])

theorem forget (hf : Follows g f h w) (hr : Lingering buckets memoryLimit maxValueSize h w)
    {key : Bytes} (hremoved : f.client = .removed key) :
    Followed buckets memoryLimit maxValueSize (.client :: g) { f with
      storage := { f.storage with ttl := f.storage.ttl.erase key }
      client := .leaving (.del key true) } := by
  have hstore := hf.store
  rw [hremoved] at hstore
  obtain ⟨m, hm, hremove⟩ := hstore
  have hentered := hf.entered.resolve_left (by simp [hremoved])
  have hdel := Storage.del_of_present hm
  refine ⟨_, _, hr.step (World.Step.del w key), ?_⟩
  rw [hdel]
  refine ⟨hf.now, hf.batch, Or.inr hentered, ?_, fun k d hd => ?_, ?_⟩
  · rw [hremove]
    rfl
  · rw [TTLManager.lookup_erase] at hd
    split_ifs at hd
    exact hf.deadlines k d hd
  · refine ⟨w.now, h.answers, rfl, ?_, hf.now.le, hf.returned (by simp [pending, hremoved])⟩
    rw [hf.now]
    exact hentered

theorem leave (hf : Follows g f h w) (hr : Lingering buckets memoryLimit maxValueSize h w)
    {answer : Answer} (hleaving : f.client = .leaving answer) :
    Followed buckets memoryLimit maxValueSize (.returned ⟨f.entered, f.now, answer⟩ :: g)
      { f with client := .outside } := by
  have hstore := hf.store
  have hanswers := hf.answers
  have hpending : f.pending = some answer := by simp [pending, hleaving]
  rw [hleaving] at hstore
  rw [Answers, hpending] at hanswers
  obtain ⟨t, rest, heq, hfrom, hto, hrest⟩ := hanswers
  refine ⟨h, w, hr, hf.now, hf.batch, Or.inl rfl, hstore, hf.deadlines, ?_⟩
  rw [heq]
  exact List.Forall₂.cons ⟨hfrom, hto, rfl⟩ hrest

theorem collect (hf : Follows g f h w) (hr : Lingering buckets memoryLimit maxValueSize h w)
    {batch : List Bytes} (hidle : f.batch = [])
    (hall : batch.Perm (f.storage.collectExpired f.now).1) :
    Followed buckets memoryLimit maxValueSize (.sweeper :: g)
      { f with storage := (f.storage.collectExpired f.now).2, batch := batch } := by
  obtain ⟨hmatches, late, hperm, hlate⟩ := hf.store.collect f.now
  refine ⟨_, _, hr.collect batch late (hf.batch.trans hidle) ?_ ?_, ?_⟩
  · rw [hf.now]
    exact hall.trans hperm
  · intro k hk
    obtain ⟨hdata, httl, hdue⟩ := hlate k hk
    obtain ⟨d, hd, hle⟩ := TTLManager.mem_expiredKeys.mp hdue
    obtain ⟨t, r, hlast, hpos, rfl⟩ := hf.deadlines k d hd
    exact ⟨hdata, httl, t, r, hlast, hpos, hf.now ▸ hle⟩
  · refine ⟨hf.now, rfl, hf.entered, ?_, fun k d hd => ?_, ?_⟩
    · rw [hf.now]
      exact hmatches
    · have hfilter := TTLManager.lookup_expiredKeys.symm.trans hd
      exact hf.deadlines k d (Option.filter_eq_some_iff.mp hfilter).1
    · have hpending : pending { f with
            storage := (f.storage.collectExpired f.now).2, batch := batch } = f.pending := by
        cases hc : f.client with
        | asked key expired =>
          simp only [pending, hc, Storage.collectExpired_eq, Storage.finishGet_withTtl]
        | _ => simp only [pending, hc]
      have hanswers := hf.answers
      rw [Answers] at hanswers ⊢
      rw [hpending]
      exact hanswers

theorem expire (hf : Follows g f h w) (hr : Lingering buckets memoryLimit maxValueSize h w)
    {key : Bytes} {rest : List Bytes} (hout : f.client = .outside)
    (hnext : f.batch = key :: rest) :
    Followed buckets memoryLimit maxValueSize (.sweeper :: g)
      { f with storage := f.storage.expireKey key, batch := rest } := by
  have heq := hf.storage_eq hout
  have hnone : f.pending = none := by simp [pending, hout]
  refine ⟨_, _, hr.step (World.Step.expire w key rest (hf.batch.trans hnext)), hf.now, rfl,
    Or.inl hout, ?_, fun k d hd => ?_, ?_⟩
  · rw [hout, heq]
    rfl
  · exact hf.deadlines k d ((Storage.Shrinks.expireKey _ _).ttl k d hd)
  · have hnone' : pending { f with storage := f.storage.expireKey key, batch := rest } = none := by
      simp [pending, hout]
    rw [Answers, hnone']
    exact hf.returned hnone

theorem tick (hf : Follows g f h w) (hr : Lingering buckets memoryLimit maxValueSize h w)
    (ticks : Nat) :
    Followed buckets memoryLimit maxValueSize (.clock :: g) { f with now := f.now + ticks } := by
  refine ⟨_, _, hr.step (World.Step.tick w ticks), ?_, hf.batch, ?_, hf.store, hf.deadlines, ?_⟩
  · simp [hf.now]
  · exact hf.entered.imp id fun hle => hle.trans (Nat.le_add_right _ _)
  · have hanswers := hf.answers
    have hsame : pending { f with now := f.now + ticks } = f.pending := rfl
    rw [Answers] at hanswers ⊢
    rw [hsame]
    cases hpending : f.pending with
    | none =>
      rw [hpending] at hanswers
      exact hanswers
    | some a =>
      rw [hpending] at hanswers
      obtain ⟨t, rest, heq, hfrom, hto, hrest⟩ := hanswers
      exact ⟨t, rest, heq, hfrom, hto.trans (Nat.le_add_right _ _), hrest⟩

theorem step (hf : Follows g f h w) (hr : Lingering buckets memoryLimit maxValueSize h w)
    {e : Label} {f' : Threads} (hs : Step f e f') :
    Followed buckets memoryLimit maxValueSize (e :: g) f' := by
  cases hs with
  | refuse key value ttl hout hrefused => exact hf.refuse hr ttl hout hrefused
  | place key value n ttl hout hfits => exact hf.place hr n ttl hout hfits
  | arm hplaced => exact hf.arm hr hplaced
  | drop hevicting => exact hf.drop hr hevicting
  | ask key hout => exact hf.ask hr key hout
  | answer hasked => exact hf.answer hr hasked
  | absent hout habsent => exact hf.absent hr hout habsent
  | remove hout hpresent => exact hf.remove hr hout hpresent
  | forget hremoved => exact hf.forget hr hremoved
  | leave hleaving => exact hf.leave hr hleaving
  | collect batch hidle hall => exact hf.collect hr hidle hall
  | expire hout hnext => exact hf.expire hr hout hnext
  | metrics => exact ⟨h, w, hr, hf.now, hf.batch, hf.entered, hf.store, hf.deadlines, hf.answers⟩
  | tick ticks => exact hf.tick hr ticks

end Follows

/-! ## Runs of the threads -/

theorem follows_init (hs : (system buckets memoryLimit maxValueSize).init f) :
    ∃ w, Lingering buckets memoryLimit maxValueSize [] w ∧ Follows [] f [] w := by
  obtain ⟨hstorage, hout, hbatch⟩ := hs
  have httl : f.storage.ttl.expiries = ∅ := by rw [hstorage]; rfl
  have hnone : f.pending = none := by simp [pending, hout]
  refine ⟨⟨f.storage, f.batch, f.now⟩, .start ⟨hstorage, hbatch⟩, rfl, rfl, Or.inl hout, ?_, ?_, ?_⟩
  · rw [hout]
    rfl
  · simp [httl]
  · rw [Answers, hnone]
    exact List.Forall₂.nil

theorem followed_of_reaches (hr : (system buckets memoryLimit maxValueSize).Reaches g f) :
    Followed buckets memoryLimit maxValueSize g f :=
  hr.follow (fun _ hf => follows_init hf) fun _ _ _ _ _ _ hf hrun hs => hf.step hrun hs

/-- Whatever the threads do between two uses of the mutexes, when `lock_` is free the store, the
batch and the answers are those of a run in which each operation took effect at one moment while
it held `lock_`. -/
theorem linearizable (hr : (system buckets memoryLimit maxValueSize).Reaches g f)
    (hout : f.client = .outside) :
    ∃ h w, Lingering buckets memoryLimit maxValueSize h w ∧ w.storage = f.storage ∧
      w.pending = f.batch ∧ w.now = f.now ∧ List.Forall₂ Call.Spans (returns g) h.answers := by
  obtain ⟨h, w, hrun, hf⟩ := followed_of_reaches hr
  exact ⟨h, w, hrun, hf.storage_eq hout, hf.batch, hf.now, hf.returned (by simp [pending, hout])⟩

/-- When `lock_` is free the books and the limit are kept, and in a run that explains the answers
each value that was read was the last one written when it was read. -/
theorem served_of_reaches (hr : (system buckets memoryLimit maxValueSize).Reaches g f)
    (hout : f.client = .outside) :
    f.storage.Accounting ∧
      ∃ h w, Lingering buckets memoryLimit maxValueSize h w ∧ w.storage = f.storage ∧
        w.pending = f.batch ∧ w.now = f.now ∧ List.Forall₂ Call.Spans (returns g) h.answers ∧
          h.Served := by
  obtain ⟨h, w, hrun, hf⟩ := followed_of_reaches hr
  have hcalls := hf.returned (by simp [pending, hout])
  have hstorage := hf.storage_eq hout
  exact ⟨hstorage ▸ hrun.sound.accounting, h, w, hrun, hstorage, hf.batch, hf.now, hcalls,
    hrun.served⟩

/-- One entry fits. A pass comes while the second `set` evicts the first key, whose deadline has
passed, and collects it. -/
theorem linearizable_evicting : ∃ h w, Lingering 1 200 200 h w ∧ w.pending = [[107]] ∧
    List.Forall₂ Call.Spans
      [⟨ticksPerSecond, ticksPerSecond, .set [106] [2] 0 true⟩, ⟨0, 0, .set [107] [1] 1 true⟩]
      h.answers := by
  have start : (system 1 200 200).Reaches [] ⟨Storage.init 1 200 200, .outside, 0, [], 0⟩ :=
    .start ⟨rfl, rfl, rfl⟩
  have first := ((start.next (Step.place [107] ⟨[1], 15, by decide⟩ 1 1 rfl
    (by decide))).next (Step.arm rfl)).next (Step.leave rfl)
  have second := (((first.next (Step.tick _ ticksPerSecond)).next
    (Step.place [106] ⟨[2], 15, by decide⟩ 1 0 rfl (by decide))).next
    (Step.arm rfl)).next (Step.collect [[107]] rfl (by decide))
  have last := (second.next (Step.drop rfl)).next (Step.leave rfl)
  obtain ⟨h, w, hrun, -, hbatch, -, hcalls⟩ := linearizable last rfl
  exact ⟨h, w, hrun, hbatch, hcalls⟩

/-- A `set` and a `get` that reads it. -/
theorem served_get : ∃ h w, Lingering 1 200 200 h w ∧ w.pending = [] ∧
    List.Forall₂ Call.Spans [⟨0, 0, .get [107] (some [1])⟩, ⟨0, 0, .set [107] [1] 1 true⟩]
      h.answers ∧ h.Served := by
  have start : (system 1 200 200).Reaches [] ⟨Storage.init 1 200 200, .outside, 0, [], 0⟩ :=
    .start ⟨rfl, rfl, rfl⟩
  have written := ((start.next (Step.place [107] ⟨[1], 15, by decide⟩ 1 1 rfl
    (by decide))).next (Step.arm rfl)).next (Step.leave rfl)
  have read := ((written.next (Step.ask [107] rfl)).next (Step.answer rfl)).next (Step.leave rfl)
  obtain ⟨-, h, w, hrun, -, hbatch, -, hcalls, hserved⟩ := served_of_reaches read rfl
  exact ⟨h, w, hrun, hbatch, hcalls, hserved⟩

end Threads

end PolyCache
