import PolyCache.Server.Node

/-!
# Restarting from the log

What replaying the log of a run into a fresh store brings back: values that were set and not deleted
since, and, when neither run loses anything, exactly the contents of the store.
-/

namespace PolyCache

open AssocMap Protocol Aof History

namespace Server

variable {cfg : Config} {lib : JsonLib} {buckets buckets' memoryLimit maxValueSize : Nat}
  {j : Journal} {n n' : Node} {e : Nat × Entry} {h : History} {w : World}

theorem records_of_replays (haof : cfg.aof = true) (hlib : lib.Lawful)
    (hr : (system cfg lib buckets memoryLimit maxValueSize).Reaches j n)
    (hreplay : Replays lib n.file h) : records h = accepted j := by
  rw [Replays, file_of_reaches haof hr, replay_log hlib (accepted_inRange j)] at hreplay
  exact List.reverse_injective hreplay

/-! ## What comes back -/

/-- The value was set under the key with the answer `+OK`, no deletion of the key answered `:1` came
after, and each later set of it answered `+OK` was refused by the replay. -/
def Survives (j : Journal) (calls : List (Record × Bool)) (key value : Bytes) : Prop :=
  ∃ newer older t cmd response ttl later earlier,
    j = newer ++ (t, Entry.command cmd response) :: older ∧
    confirmed cmd response = some (.set key value ttl) ∧
    calls = later ++ (.set key value ttl, true) :: earlier ∧ later.map Prod.fst = accepted newer ∧
    ∀ c ∈ later, c.1 ≠ .del key ∧ ∀ value' ttl', c.1 = .set key value' ttl' → c.2 = false

theorem survives_of_stands {calls : List (Record × Bool)} {key value : Bytes}
    (hcalls : calls.map Prod.fst = accepted j) (hs : Stands calls key value) :
    Survives j calls key value := by
  obtain ⟨later, earlier, ttl, rfl, hlater⟩ := hs
  rw [List.map_append, List.map_cons] at hcalls
  obtain ⟨newer, rest, rfl, hnewer, hrest⟩ := List.filterMap_eq_append_iff.mp hcalls.symm
  obtain ⟨skipped, ⟨t, entry⟩, older, rfl, hskipped, hentry, -⟩ :=
    List.filterMap_eq_cons_iff.mp hrest
  cases entry with
  | background => cases hentry
  | command cmd response =>
    refine ⟨newer ++ skipped, older, t, cmd, response, ttl, later, earlier, by simp, hentry, rfl,
      ?_, hlater⟩
    have hnone := List.filterMap_eq_nil_iff.mpr hskipped
    simp only [accepted, List.filterMap_append, hnewer, hnone, List.append_nil]

/-- Replay brings back no value that has been deleted, or replaced by one that it can store. -/
theorem survives_of_replay (haof : cfg.aof = true) (hlib : lib.Lawful)
    (hr : (system cfg lib buckets memoryLimit maxValueSize).Reaches j n)
    (hw : (World.system buckets' memoryLimit maxValueSize).Reaches h w)
    (hreplay : Replays lib n.file h) {key : Bytes} {m : KeyMeta}
    (hm : w.storage.data.lookup key = some m) : Survives j (calls h) key m.value :=
  survives_of_stands (records_of_replays haof hlib hr hreplay) (World.stands_of_reaches hw key m hm)

/-! ## A value that comes back from the dead -/

/-- The value was set under the key with the answer `+OK`, and nothing was set under the key with
that answer, and no deletion of it was executed, after. -/
def StaysLast (j : Journal) (key value : Bytes) : Prop :=
  ∃ newer older t cmd response ttl, j = newer ++ (t, Entry.command cmd response) :: older ∧
    confirmed cmd response = some (.set key value ttl) ∧
    ∀ t' cmd' response', (t', Entry.command cmd' response') ∈ newer →
      (∀ value' ttl', confirmed cmd' response' ≠ some (.set key value' ttl')) ∧
      ¬ (cmd'.type = .del ∧ cmd'.args.head? = some key)

def smallConfig : Config := ⟨true, 1024, fun _ => []⟩

/-- `SET k 1 EX 1`, and after its deadline `GET k` and `DEL k`. -/
def deadJournal : Journal :=
  [(ticksPerSecond, .command (classify [ascii "DEL", [107]]) { head := ascii ":0" }),
    (ticksPerSecond, .command (classify [ascii "GET", [107]]) { head := ascii "$-1" }),
    (0, .background (.tick ticksPerSecond)),
    (0, .command (classify [ascii "SET", [107], [49], ascii "EX", ascii "1"])
      { head := ascii "+OK" })]

theorem deadJournal_reaches :
    ∃ n, (system smallConfig Compact.lib 1 1024 1024).Reaches deadJournal n := by
  have start : (system smallConfig Compact.lib 1 1024 1024).Reaches []
      ⟨⟨Storage.init 1 1024 1024, [], 0⟩, []⟩ := .start ⟨rfl, rfl, rfl⟩
  have stored := start.next
    (Step.command _ 1 0 (classify [ascii "SET", [107], [49], ascii "EX", ascii "1"]))
  have later := stored.next (Step.background _ (World.Step.tick _ ticksPerSecond) rfl)
  have missed := later.next (Step.command _ 1 0 (classify [ascii "GET", [107]]))
  have deleted := missed.next (Step.command _ 1 0 (classify [ascii "DEL", [107]]))
  exact ⟨_, deleted⟩

def revivedHistory : History := [(0, .set ⟨[107], [49], 1, true, true, []⟩)]

/-- The store after the replay of the log of `deadJournal`. -/
def revived : World :=
  ⟨((Storage.init 1 1024 1024).set 0 1 [107] (withSpare [49] 0) 1).2, [], 0⟩

theorem revived_reaches : (World.system 1 1024 1024).Reaches revivedHistory revived :=
  (World.reaches_init 0).next (World.Step.set _ 1 [107] (withSpare [49] 0) 1)

theorem lookup_revived : revived.storage.data.lookup [107] = some ⟨[49], 129⟩ := by decide

theorem revived_replays {n : Node}
    (hr : (system smallConfig Compact.lib 1 1024 1024).Reaches deadJournal n) :
    Replays Compact.lib n.file revivedHistory := by
  rw [Replays, file_of_reaches rfl hr, replay_log Compact.lawful (accepted_inRange _)]
  rfl

theorem survives_revived : ∃ n, (system smallConfig Compact.lib 1 1024 1024).Reaches deadJournal n ∧
    Survives deadJournal (calls revivedHistory) [107] [49] := by
  obtain ⟨n, hn⟩ := deadJournal_reaches
  exact ⟨n, hn, survives_of_replay rfl Compact.lawful hn revived_reaches (revived_replays hn)
    lookup_revived⟩

/-- What a restart can bring back although it is not the last value set, or has been deleted. -/
def Returns (memoryLimit maxValueSize : Nat) (j : Journal) : Prop :=
  ∃ n h w m, (system smallConfig Compact.lib 1 memoryLimit maxValueSize).Reaches j n ∧
    (World.system 1 memoryLimit maxValueSize).Reaches h w ∧ Replays Compact.lib n.file h ∧
    w.storage.data.lookup [107] = some m ∧ ¬ StaysLast j [107] m.value

theorem deadJournal_returns : Returns 1024 1024 deadJournal := by
  obtain ⟨n, hn⟩ := deadJournal_reaches
  refine ⟨n, _, _, _, hn, revived_reaches, revived_replays hn, lookup_revived, ?_⟩
  rintro ⟨newer, older, t, cmd, response, ttl, heq, hconfirmed, hnewer⟩
  cases newer with
  | nil =>
    -- the deletion was answered `:0`
    cases heq
    have hnone : confirmed (classify [ascii "DEL", [107]]) { head := ascii ":0" } = none := rfl
    rw [hnone] at hconfirmed
    cases hconfirmed
  | cons e newer =>
    obtain ⟨rfl, -⟩ := List.cons.inj heq
    exact (hnewer _ _ _ List.mem_cons_self).2 ⟨by decide, by decide⟩

/-! A value that fills the memory. The capacity that `base64_decode` reserves for it is rounded up
to a multiple of three. -/

def largeText : Bytes := List.replicate 127 50

def setLarge : Command := classify [ascii "SET", [107], largeText]

/-- `SET k 1`, and then a `SET` of the key to the large value. -/
def largeJournal : Journal :=
  [(0, .command setLarge { head := ascii "+OK" }),
    (0, .command (classify [ascii "SET", [107], [49]]) { head := ascii "+OK" })]

set_option maxRecDepth 4000 in
theorem largeJournal_reaches :
    ∃ n, (system smallConfig Compact.lib 1 256 256).Reaches largeJournal n := by
  have start : (system smallConfig Compact.lib 1 256 256).Reaches []
      ⟨⟨Storage.init 1 256 256, [], 0⟩, []⟩ := .start ⟨rfl, rfl, rfl⟩
  have stored := start.next (Step.command _ 13 14 (classify [ascii "SET", [107], [49]]))
  have replaced := stored.next (Step.command _ 13 0 setLarge)
  exact ⟨_, replaced⟩

def refusedHistory : History :=
  [(0, .set ⟨[107], largeText, 0, false, false, []⟩), (0, .set ⟨[107], [49], 0, true, true, []⟩)]

/-- The store after the replay of the log of `largeJournal`. -/
def unreplaced : World :=
  ⟨((Storage.init 1 256 256).set 0 13 [107] (withSpare [49] 14) 0).2, [], 0⟩

set_option maxRecDepth 4000 in
theorem unreplaced_reaches : (World.system 1 256 256).Reaches refusedHistory unreplaced :=
  ((World.reaches_init 0).next (World.Step.set _ 13 [107] (withSpare [49] 14) 0)).next
    (World.Step.set _ 13 [107] (withSpare largeText 2) 0)

theorem lookup_unreplaced : unreplaced.storage.data.lookup [107] = some ⟨[49], 143⟩ := by decide

theorem confirmed_setLarge :
    confirmed setLarge { head := ascii "+OK" } = some (.set [107] largeText 0) := rfl

theorem largeJournal_returns : Returns 256 256 largeJournal := by
  obtain ⟨n, hn⟩ := largeJournal_reaches
  have hreplays : Replays Compact.lib n.file refusedHistory := by
    rw [Replays, file_of_reaches rfl hn, replay_log Compact.lawful (accepted_inRange _)]
    rfl
  refine ⟨n, _, _, _, hn, unreplaced_reaches, hreplays, lookup_unreplaced, ?_⟩
  rintro ⟨newer, older, t, cmd, response, ttl, heq, hconfirmed, hnewer⟩
  cases newer with
  | nil =>
    cases heq
    rw [confirmed_setLarge] at hconfirmed
    exact absurd (congrArg List.length (Record.set.inj (Option.some.inj hconfirmed)).2.1)
      (by simp [largeText])
  | cons e newer =>
    obtain ⟨rfl, -⟩ := List.cons.inj heq
    exact (hnewer _ _ _ List.mem_cons_self).1 largeText 0 confirmed_setLarge

/-- The replay brings back a value that had expired and whose key was deleted after it, and one that
was replaced with the answer `+OK`. -/
theorem dead_value_returns : Returns 1024 1024 deadJournal ∧ Returns 256 256 largeJournal :=
  ⟨deadJournal_returns, largeJournal_returns⟩

/-! ## Nothing lost -/

/-- No key has been evicted or has expired in the run, and no sweep pass has found one. -/
structure Undisturbed (j : Journal) (n : Node) : Prop where
  evictions : n.world.storage.evictions = 0
  expired : n.world.storage.expiredKeys = 0
  passes : ∀ t batch, (t, .background (.collect batch)) ∈ j → batch = []

theorem Effect.counters {env : Env} {s s' : Storage} {logged : List Record} {call : Option Record}
    (he : Effect env s s' logged call) :
    s.evictions ≤ s'.evictions ∧ s.expiredKeys ≤ s'.expiredKeys := by
  cases he with
  | set => exact Storage.counters_le_set ..
  | get => exact Storage.counters_le_get ..
  | del => exact Storage.counters_le_del ..
  | none => exact ⟨le_rfl, le_rfl⟩

/-- A command that loses nothing does to the store what it confirms. -/
theorem Effect.holds {env : Env} {s s' : Storage} {logged : List Record} {call : Option Record}
    {c : Contents} (he : Effect env s s' logged call) (hc : s.Holds c)
    (hevictions : s'.evictions = s.evictions) (hexpired : s'.expiredKeys = s.expiredKeys) :
    s'.Holds (call.toList.foldr Record.apply c) := by
  cases he with
  | set fits =>
    rw [Storage.evictions_set] at hevictions
    exact hc.set fits (List.length_eq_zero_iff.mp (by omega))
  | get key =>
    have hget := (Storage.counters_get s env.now key).2
    refine hc.get ?_
    by_contra hfresh
    rw [Bool.not_eq_false] at hfresh
    rw [hfresh, if_pos rfl] at hget
    omega
  | del removed => exact hc.del
  | none => exact hc

theorem counters_step (haof : cfg.aof = true) (hs : Step cfg lib n e n') :
    n.world.storage.evictions ≤ n'.world.storage.evictions ∧
      n.world.storage.expiredKeys ≤ n'.world.storage.expiredKeys := by
  cases hs with
  | command buckets spare cmd => exact (n.effect haof buckets spare cmd).counters
  | background step => exact World.counters_step step

theorem Undisturbed.before (haof : cfg.aof = true) (hu : Undisturbed (e :: j) n')
    (hs : Step cfg lib n e n') : Undisturbed j n := by
  have hcount := counters_step haof hs
  have hevictions := hu.evictions
  have hexpired := hu.expired
  exact ⟨by omega, by omega, fun t batch hmem => hu.passes t batch (List.mem_cons_of_mem _ hmem)⟩

/-- After a run that loses nothing, the store holds what the confirmed calls make of an empty
map. -/
theorem holds_of_undisturbed (haof : cfg.aof = true)
    (hr : (system cfg lib buckets memoryLimit maxValueSize).Reaches j n) (hu : Undisturbed j n) :
    n.world.pending = [] ∧ n.world.storage.Holds (contents (accepted j)) := by
  induction hr with
  | start hn =>
    refine ⟨hn.2.1, ?_⟩
    rw [hn.1]
    exact Storage.Holds.init _ _ _
  | @next j n n' e hr hs ih =>
    have hbefore := hu.before haof hs
    obtain ⟨hidle, hc⟩ := ih hbefore
    have hevictions := hu.evictions.trans hbefore.evictions.symm
    have hexpired := hu.expired.trans hbefore.expired.symm
    cases hs with
    | command buckets spare cmd =>
      have heffect := n.effect haof buckets spare cmd
      refine ⟨hidle, ?_⟩
      rw [accepted_cons, contents, List.foldr_append]
      exact heffect.holds hc hevictions hexpired
    | @background e w step hbackground =>
      obtain ⟨hidle, hc, -, -⟩ := World.background_step step hbackground
        (fun batch heq => hu.passes e.1 batch (heq ▸ List.mem_cons_self)) hidle hc
      exact ⟨hidle, hc⟩

/-- When neither the run nor the replay loses anything and the replay refuses nothing, the replay
leaves the same values under the same keys and arms the same keys, each with the full ttl of its
last set, from the time at which the replay sets it. -/
theorem replay_lossless (haof : cfg.aof = true) (hlib : lib.Lawful)
    (hr : (system cfg lib buckets memoryLimit maxValueSize).Reaches j n) (hu : Undisturbed j n)
    (hw : (World.system buckets' memoryLimit maxValueSize).Reaches h w) (hl : World.Lossless h w)
    (hstored : ∀ t r, (t, .set r) ∈ h → r.stored = true) (hreplay : Replays lib n.file h)
    (key : Bytes) :
    (w.storage.data.lookup key).map KeyMeta.value =
        (n.world.storage.data.lookup key).map KeyMeta.value ∧
      ((w.storage.ttl.expiries.lookup key).isSome ↔
        (n.world.storage.ttl.expiries.lookup key).isSome) ∧
      ∀ d, w.storage.ttl.expiries.lookup key = some d →
        ∃ t value ttl, contents (accepted j) key = some (value, ttl) ∧
          (∃ r, lastSet key h = some (t, r) ∧ r.ttl = ttl) ∧ d = TTLManager.deadline t ttl := by
  have hrecords := records_of_replays haof hlib hr hreplay
  have horiginal := (holds_of_undisturbed haof hr hu).2
  have hreplayed := (World.holds_of_reaches hw hl hstored).2
  rw [hrecords] at hreplayed
  refine ⟨(hreplayed.value key).trans (horiginal.value key).symm,
    (hreplayed.armed key).trans (horiginal.armed key).symm, fun d hd => ?_⟩
  obtain ⟨⟨value, ttl⟩, hentry, -⟩ := (hreplayed.armed key).mp (by simp [hd])
  obtain ⟨t, r, hlast, -, hrttl⟩ := World.lastSet_of_contents hstored (hrecords ▸ hentry)
  obtain ⟨-, t', r', hlast', -, hdeadline⟩ := (World.tracks_of_reaches hw).deadline key d hd
  rw [hlast] at hlast'
  cases hlast'
  exact ⟨t, value, ttl, hentry, ⟨r, hlast, hrttl⟩, by rw [hdeadline, hrttl]⟩

/-- `SET k 1 EX 5`, `PING`. -/
def keptJournal : Journal :=
  [(0, .command (classify [ascii "PING"]) { head := ascii "+PONG" }),
    (0, .command (classify [ascii "SET", [107], [49], ascii "EX", ascii "5"])
      { head := ascii "+OK" })]

theorem keptJournal_reaches :
    ∃ n, (system smallConfig Compact.lib 1 1024 1024).Reaches keptJournal n ∧
      Undisturbed keptJournal n := by
  have start : (system smallConfig Compact.lib 1 1024 1024).Reaches []
      ⟨⟨Storage.init 1 1024 1024, [], 0⟩, []⟩ := .start ⟨rfl, rfl, rfl⟩
  have stored := start.next
    (Step.command _ 1 0 (classify [ascii "SET", [107], [49], ascii "EX", ascii "5"]))
  have pinged := stored.next (Step.command _ 1 0 (classify [ascii "PING"]))
  exact ⟨_, pinged, rfl, rfl, by simp [keptJournal]⟩

/-- The replay of its log, begun nine ticks after the boot. -/
def keptHistory : History := [(9, .set ⟨[107], [49], 5, true, true, []⟩), (0, .tick 9)]

def kept : World := ⟨((Storage.init 1 1024 1024).set 9 1 [107] (withSpare [49] 0) 5).2, [], 9⟩

theorem kept_reaches : (World.system 1 1024 1024).Reaches keptHistory kept :=
  ((World.reaches_init 0).next (World.Step.tick _ 9)).next
    (World.Step.set _ 1 [107] (withSpare [49] 0) 5)

theorem kept_lossless : World.Lossless keptHistory kept :=
  ⟨rfl, rfl, by simp [keptHistory]⟩

theorem replay_lossless_kept : ∃ n,
    (system smallConfig Compact.lib 1 1024 1024).Reaches keptJournal n ∧
      (kept.storage.data.lookup [107]).map KeyMeta.value =
        (n.world.storage.data.lookup [107]).map KeyMeta.value := by
  obtain ⟨n, hn, hu⟩ := keptJournal_reaches
  have hreplay : Replays Compact.lib n.file keptHistory := by
    rw [Replays, file_of_reaches rfl hn, replay_log Compact.lawful (accepted_inRange _)]
    rfl
  have hstored : ∀ t r, (t, Event.set r) ∈ keptHistory → r.stored = true := by
    simp [keptHistory]
  exact ⟨n, hn, (replay_lossless rfl Compact.lawful hn hu kept_reaches kept_lossless hstored hreplay
    [107]).1⟩

end Server

end PolyCache
