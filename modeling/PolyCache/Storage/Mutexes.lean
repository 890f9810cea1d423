import PolyCache.Storage.Locks

/-!
# Waiting for a mutex

In `Threads` an operation uses the table whenever it comes to it. Here both mutexes are state: a
thread takes the one that it needs, which it can while nobody has it, and gives it back when its
work is done. In between the threads do what they do in `Threads`. An operation takes the mutex of
the table inside `lock_`; the sweeper takes either, but neither of them inside the other, so that an
operation waits for one turn of the sweeper at most.
-/

namespace PolyCache

open AssocMap

/-- The threads of the program that use the store. -/
inductive Thread where
  | eventLoop | sweeper | admin
  deriving DecidableEq, Repr

inductive Operation where
  | set (key : Bytes) (value : Str) (ttl : Int)
  | get (key : Bytes)
  | del (key : Bytes)

/-- Where `sweep_loop` is. -/
inductive Pass where
  /-- in `wait_for`, or at its mutex -/
  | asleep
  /-- in `expired_keys`, or at its mutex -/
  | collecting
  /-- in the loop over the keys -/
  | expiring
  deriving DecidableEq, Repr

structure Mutexes where
  threads : Threads
  /-- what the event loop has been asked and not yet answered -/
  call : Option Operation
  pass : Pass
  /-- who has `lock_` of `Storage` -/
  lock : Option Thread
  /-- who has `lock_` of `TTLManager` -/
  tableLock : Option Thread

/-- A step of `Threads`, or a turn that changes nothing there. -/
inductive MutexEvent where
  | turn (t : Thread)
  | work (t : Thread) (e : Label)
  | clock

namespace MutexEvent

def thread : MutexEvent → Option Thread
  | .turn t | .work t _ => some t
  | .clock => none

/-- What it is in `Threads`. -/
def label : MutexEvent → Option Label
  | .turn _ => none
  | .work _ e => some e
  | .clock => some .clock

end MutexEvent

namespace Mutexes

/-- `can_store` does not refuse the operation, which happens before the mutex is taken. -/
def accepts (l : Mutexes) : Operation → Bool
  | .set key value _ => l.threads.storage.canStore key value
  | .get _ | .del _ => true

/-- The thread is where it takes `lock_` of the store, or is about to do what it has taken it
for. -/
def WantsLock (l : Mutexes) : Thread → Prop
  | .eventLoop => ∃ op, l.call = some op ∧ (l.threads.client = .outside → l.accepts op = true)
  | .sweeper => l.pass = .expiring ∧ l.threads.batch ≠ []
  | .admin => True

/-- The thread is where it takes the mutex of the table, or is about to use the table. -/
def WantsTable (l : Mutexes) : Thread → Prop
  | .eventLoop => l.lock = some .eventLoop ∧ match l.threads.client with
    | .placed _ _ _ | .evicting _ _ | .removed _ => True
    | .outside => ∃ key, l.call = some (.get key)
    | .asked _ _ | .leaving _ => False
  | .sweeper => l.pass ≠ .expiring
  | .admin => False

inductive Step : Mutexes → MutexEvent → Mutexes → Prop where
  | takeLock {l : Mutexes} (t : Thread) (wants : l.WantsLock t) (free : l.lock = none) :
      Step l (.turn t) { l with lock := some t }
  | takeTable {l : Mutexes} (t : Thread) (wants : l.WantsTable t) (free : l.tableLock = none) :
      Step l (.turn t) { l with tableLock := some t }
  | call {l : Mutexes} (op : Operation) (idle : l.call = none) :
      Step l (.turn .eventLoop) { l with call := some op }
  | refuse {l : Mutexes} {key : Bytes} {value : Str} {ttl : Int}
      (called : l.call = some (.set key value ttl)) (idle : l.threads.client = .outside)
      (refused : l.threads.storage.canStore key value = false) :
      Step l (.work .eventLoop
        (.returned ⟨l.threads.now, l.threads.now, .set key value.bytes ttl false⟩))
        { l with call := none }
  | place {l : Mutexes} {key : Bytes} {value : Str} {ttl : Int} (buckets : Nat)
      (locked : l.lock = some .eventLoop) (called : l.call = some (.set key value ttl))
      (idle : l.threads.client = .outside) :
      Step l (.work .eventLoop .client) { l with threads := { l.threads with
        storage := l.threads.storage.place buckets key value
        client := .placed key value ttl
        entered := l.threads.now } }
  | arm {l : Mutexes} {key : Bytes} {value : Str} {ttl : Int}
      (nested : l.tableLock = some .eventLoop)
      (placed : l.threads.client = .placed key value ttl) :
      Step l (.work .eventLoop .client) { l with
        threads := l.threads.round (.set key value.bytes ttl true)
          (l.threads.storage.arm l.threads.now key ttl)
        tableLock := none }
  | drop {l : Mutexes} {answer : Answer} {victim : Bytes} (nested : l.tableLock = some .eventLoop)
      (evicting : l.threads.client = .evicting answer victim) :
      Step l (.work .eventLoop .client) { l with
        threads := l.threads.round answer (l.threads.storage.dropDeadline victim)
        tableLock := none }
  | ask {l : Mutexes} {key : Bytes} (nested : l.tableLock = some .eventLoop)
      (called : l.call = some (.get key)) (idle : l.threads.client = .outside) :
      Step l (.work .eventLoop .client) { l with
        threads := { l.threads with
          storage := (l.threads.storage.ask l.threads.now key).2
          client := .asked key (l.threads.storage.ask l.threads.now key).1
          entered := l.threads.now }
        tableLock := none }
  | answer {l : Mutexes} {key : Bytes} {expired : Bool}
      (asked : l.threads.client = .asked key expired) :
      Step l (.work .eventLoop .client) { l with threads := { l.threads with
        storage := (l.threads.storage.finishGet key expired).2
        client := .leaving (.get key (l.threads.storage.finishGet key expired).1) } }
  | absent {l : Mutexes} {key : Bytes} (locked : l.lock = some .eventLoop)
      (called : l.call = some (.del key)) (idle : l.threads.client = .outside)
      (absent : l.threads.storage.data.lookup key = none) :
      Step l (.work .eventLoop .client) { l with threads := { l.threads with
        client := .leaving (.del key false)
        entered := l.threads.now } }
  | remove {l : Mutexes} {key : Bytes} {m : KeyMeta} (locked : l.lock = some .eventLoop)
      (called : l.call = some (.del key)) (idle : l.threads.client = .outside)
      (present : l.threads.storage.data.lookup key = some m) :
      Step l (.work .eventLoop .client) { l with threads := { l.threads with
        storage := l.threads.storage.removeEntry key m
        client := .removed key
        entered := l.threads.now } }
  | forget {l : Mutexes} {key : Bytes} (nested : l.tableLock = some .eventLoop)
      (removed : l.threads.client = .removed key) :
      Step l (.work .eventLoop .client) { l with
        threads := { l.threads with
          storage := { l.threads.storage with ttl := l.threads.storage.ttl.erase key }
          client := .leaving (.del key true) }
        tableLock := none }
  | leave {l : Mutexes} {answer : Answer} (leaving : l.threads.client = .leaving answer) :
      Step l (.work .eventLoop (.returned ⟨l.threads.entered, l.threads.now, answer⟩)) { l with
        threads := { l.threads with client := .outside }
        call := none
        lock := none }
  -- `wait_for` has found that it is not time, and waits without the mutex
  | doze {l : Mutexes} (locked : l.tableLock = some .sweeper) (asleep : l.pass = .asleep) :
      Step l (.turn .sweeper) { l with tableLock := none }
  | wake {l : Mutexes} (locked : l.tableLock = some .sweeper) (asleep : l.pass = .asleep) :
      Step l (.turn .sweeper) { l with pass := .collecting, tableLock := none }
  | collect {l : Mutexes} (batch : List Bytes) (locked : l.tableLock = some .sweeper)
      (collecting : l.pass = .collecting)
      (all : batch.Perm (l.threads.storage.collectExpired l.threads.now).1) :
      Step l (.work .sweeper .sweeper) { l with
        threads := { l.threads with
          storage := (l.threads.storage.collectExpired l.threads.now).2
          batch := batch }
        pass := .expiring
        tableLock := none }
  | expire {l : Mutexes} {key : Bytes} {rest : List Bytes} (locked : l.lock = some .sweeper)
      (next : l.threads.batch = key :: rest) :
      Step l (.work .sweeper .sweeper) { l with
        threads := { l.threads with storage := l.threads.storage.expireKey key, batch := rest }
        lock := none }
  | again {l : Mutexes} (expiring : l.pass = .expiring) (done : l.threads.batch = []) :
      Step l (.turn .sweeper) { l with pass := .asleep }
  | metrics {l : Mutexes} (locked : l.lock = some .admin) :
      Step l (.work .admin (.metrics l.threads.storage.metrics)) { l with lock := none }
  | tick (l : Mutexes) (ticks : Nat) :
      Step l .clock { l with threads := { l.threads with now := l.threads.now + ticks } }

def system (buckets memoryLimit maxValueSize : Nat) : Transition.System Mutexes MutexEvent where
  init l := (Threads.system buckets memoryLimit maxValueSize).init l.threads ∧ l.call = none ∧
    l.pass = .asleep ∧ l.lock = none ∧ l.tableLock = none
  step := Step

variable {l l' : Mutexes} {e : MutexEvent} {t : Thread}

/-! ## Who has the mutexes -/

/-- A thread has a mutex only where it has come for it. -/
structure Orderly (l : Mutexes) : Prop where
  inside : l.threads.client ≠ .outside → l.lock = some .eventLoop
  lock : ∀ t, l.lock = some t → l.WantsLock t
  table : ∀ t, l.tableLock = some t → l.WantsTable t
  batch : l.pass ≠ .expiring → l.threads.batch = []

theorem round_inside (f : Threads) (answer : Answer) (s : Storage) :
    (f.round answer s).client ≠ .outside := by
  simp only [Threads.round]
  cases s.nextVictim.2 <;> simp

namespace Orderly

/-- The operation goes on, and has given the table back or had no need of it. -/
theorem work (ho : l.Orderly) (hlock : l.lock = some .eventLoop) {f : Threads}
    {held : Option Thread} (hbatch : f.batch = l.threads.batch) (hin : f.client ≠ .outside)
    (hheld : held = none ∨ held = l.tableLock ∧ ¬ l.WantsTable .eventLoop) :
    Orderly { l with threads := f, tableLock := held } := by
  obtain ⟨op, hcall, -⟩ := ho.lock _ hlock
  refine ⟨fun _ => hlock, fun t ht => ?_, fun t ht => ?_,
    fun hpass => hbatch.trans (ho.batch hpass)⟩
  · obtain rfl : Thread.eventLoop = t := Option.some.inj (hlock.symm.trans ht)
    exact ⟨op, hcall, fun hout => absurd hout hin⟩
  · rcases hheld with rfl | ⟨rfl, hno⟩
    · cases ht
    · have hwants := ho.table t ht
      cases t with
      | eventLoop => exact absurd hwants hno
      | sweeper | admin => exact hwants

/-- Out of the store the event loop may be asked anything. -/
theorem newCall (ho : l.Orderly) (hout : l.lock ≠ some .eventLoop) (call : Option Operation) :
    Orderly { l with call := call } := by
  refine ⟨ho.inside, fun t ht => ?_, fun t ht => ?_, ho.batch⟩
  · have hwants := ho.lock t ht
    cases t with
    | eventLoop => exact absurd ht hout
    | sweeper | admin => exact hwants
  · have hwants := ho.table t ht
    cases t with
    | eventLoop => exact absurd hwants.1 hout
    | sweeper | admin => exact hwants

/-- The sweeper gives the table back, and has no keys to expire. -/
theorem unnest (ho : l.Orderly) (hlocked : l.tableLock = some .sweeper) (pass : Pass) :
    Orderly { l with pass := pass, tableLock := none } := by
  have hnot : l.pass ≠ .expiring := ho.table _ hlocked
  refine ⟨ho.inside, fun t ht => ?_, fun t ht => (by cases ht), fun _ => ho.batch hnot⟩
  have hwants := ho.lock t ht
  cases t with
  | sweeper => exact absurd hwants.1 hnot
  | eventLoop | admin => exact hwants

/-- The sweeper or the admin server leaves `lock_`. -/
theorem unlock (ho : l.Orderly) (hlock : l.lock = some t) (hother : t ≠ .eventLoop)
    {s : Storage} {batch : List Bytes} (hbatch : l.pass ≠ .expiring → batch = l.threads.batch) :
    Orderly { l with
      threads := { l.threads with storage := s, batch := batch }
      lock := none } := by
  refine ⟨fun hin => ?_, fun u hu => (by cases hu), fun u hu => ?_, fun hpass => ?_⟩
  · exact absurd (Option.some.inj (hlock.symm.trans (ho.inside hin))) hother
  · have hwants := ho.table u hu
    cases u with
    | eventLoop => exact absurd (Option.some.inj (hlock.symm.trans hwants.1)) hother
    | sweeper | admin => exact hwants
  · exact (hbatch hpass).trans (ho.batch hpass)

theorem step (ho : l.Orderly) (hs : Step l e l') : l'.Orderly := by
  cases hs with
  | @takeLock t wants free =>
    refine ⟨fun hin => ?_, fun u hu => ?_, fun u hu => ?_, ho.batch⟩
    · exact absurd (ho.inside hin) (by simp [free])
    · obtain rfl : t = u := Option.some.inj hu
      cases t <;> exact wants
    · have hwants := ho.table u hu
      cases u with
      | eventLoop => exact absurd hwants.1 (by simp [free])
      | sweeper | admin => exact hwants
  | @takeTable t wants free =>
    refine ⟨ho.inside, fun u hu => ?_, fun u hu => ?_, ho.batch⟩
    · have hwants := ho.lock u hu
      cases u <;> exact hwants
    · obtain rfl : t = u := Option.some.inj hu
      cases t <;> exact wants
  | call op idle =>
    refine ho.newCall (fun hlock => ?_) _
    obtain ⟨op', hcall, -⟩ := ho.lock _ hlock
    simp [idle] at hcall
  | refuse called idle refused =>
    refine ho.newCall (fun hlock => ?_) _
    obtain ⟨op', hcall, haccepts⟩ := ho.lock _ hlock
    obtain rfl := Option.some.inj (called.symm.trans hcall)
    simp [accepts, refused, idle] at haccepts
  | place buckets locked called idle =>
    exact ho.work locked rfl (by simp) (.inr ⟨rfl, by simp [WantsTable, idle, called]⟩)
  | arm nested placed =>
    exact ho.work (ho.table _ nested).1 rfl (round_inside _ _ _) (.inl rfl)
  | drop nested evicting =>
    exact ho.work (ho.table _ nested).1 rfl (round_inside _ _ _) (.inl rfl)
  | ask nested called idle =>
    exact ho.work (ho.table _ nested).1 rfl (by simp) (.inl rfl)
  | answer asked =>
    exact ho.work (ho.inside (by simp [asked])) rfl (by simp)
      (.inr ⟨rfl, by simp [WantsTable, asked]⟩)
  | absent locked called idle =>
    exact ho.work locked rfl (by simp) (.inr ⟨rfl, by simp [WantsTable, idle, called]⟩)
  | remove locked called idle =>
    exact ho.work locked rfl (by simp) (.inr ⟨rfl, by simp [WantsTable, idle, called]⟩)
  | forget nested removed =>
    exact ho.work (ho.table _ nested).1 rfl (by simp) (.inl rfl)
  | leave leaving =>
    refine ⟨fun hin => absurd rfl hin, fun u hu => (by cases hu), fun u hu => ?_, ho.batch⟩
    have hwants := ho.table u hu
    cases u with
    | eventLoop => simp [WantsTable, leaving] at hwants
    | sweeper | admin => exact hwants
  | doze locked asleep => exact ho.unnest locked _
  | wake locked asleep => exact ho.unnest locked _
  | collect batch locked collecting =>
    refine ⟨ho.inside, fun u hu => ?_, fun u hu => (by cases hu), fun hpass => absurd rfl hpass⟩
    have hwants := ho.lock u hu
    cases u with
    | sweeper => exact absurd hwants.1 (by simp [collecting])
    | eventLoop | admin => exact hwants
  | expire locked next =>
    exact ho.unlock locked (by simp) fun hpass => absurd (ho.lock _ locked).1 hpass
  | again expiring done =>
    refine ⟨ho.inside, fun u hu => ?_, fun u hu => ?_, fun _ => done⟩
    · have hwants := ho.lock u hu
      cases u with
      | sweeper => exact absurd done hwants.2
      | eventLoop | admin => exact hwants
    · have hwants := ho.table u hu
      cases u with
      | sweeper => exact absurd expiring hwants
      | eventLoop | admin => exact hwants
  | metrics locked => exact ho.unlock locked (by simp) fun _ => rfl
  | tick ticks =>
    refine ⟨ho.inside, fun u hu => ?_, fun u hu => ?_, ho.batch⟩
    · have hwants := ho.lock u hu
      cases u <;> exact hwants
    · have hwants := ho.table u hu
      cases u <;> exact hwants

end Orderly

variable {buckets memoryLimit maxValueSize : Nat} {h : List MutexEvent}

theorem orderly_of_reaches (hr : (system buckets memoryLimit maxValueSize).Reaches h l) :
    l.Orderly := by
  refine hr.stateInvariant (fun l hl => ?_) fun _ _ _ ho hs => ho.step hs
  obtain ⟨⟨-, hout, hbatch⟩, -, -, hlock, htable⟩ := hl
  exact ⟨fun hin => absurd hout hin, by simp [hlock], by simp [htable], fun _ => hbatch⟩

/-! ## Runs without mutexes -/

/-- Each step is one of `Threads`, or nothing there. -/
theorem Step.threads (ho : l.Orderly) (hs : Step l e l') :
    match e.label with
    | none => l'.threads = l.threads
    | some a => Threads.Step l.threads a l'.threads := by
  have hout : ∀ t, l.lock = some t → t ≠ .eventLoop → l.threads.client = .outside := by
    intro t hlock hother
    by_contra hin
    exact hother (Option.some.inj (hlock.symm.trans (ho.inside hin)))
  cases hs with
  | takeLock | takeTable | call | doze | wake | again => rfl
  | refuse called idle refused => exact .refuse _ _ _ idle refused
  | place n locked called idle =>
    obtain ⟨op, hcall, haccepts⟩ := ho.lock _ locked
    obtain rfl := Option.some.inj (called.symm.trans hcall)
    exact .place _ _ n _ idle (haccepts idle)
  | arm nested placed => exact .arm placed
  | drop nested evicting => exact .drop evicting
  | ask nested called idle => exact .ask _ idle
  | answer asked => exact .answer asked
  | absent locked called idle absent => exact .absent idle absent
  | remove locked called idle present => exact .remove idle present
  | forget nested removed => exact .forget removed
  | leave leaving => exact .leave leaving
  | collect batch locked collecting all =>
    exact .collect batch (ho.batch (by simp [collecting])) all
  | expire locked next => exact .expire (hout _ locked (by simp)) next
  | metrics locked => exact .metrics (hout _ locked (by simp))
  | tick ticks => exact .tick _ ticks

theorem threads_of_reaches (hr : (system buckets memoryLimit maxValueSize).Reaches h l) :
    (Threads.system buckets memoryLimit maxValueSize).Reaches (h.filterMap MutexEvent.label)
      l.threads := by
  induction hr with
  | start hl => exact .start hl.1
  | @next h l l' e hr hs ih =>
    have hstep := hs.threads (orderly_of_reaches hr)
    cases hlabel : e.label with
    | none =>
      rw [hlabel] at hstep
      rw [List.filterMap_cons_none hlabel, hstep]
      exact ih
    | some a =>
      rw [hlabel] at hstep
      rw [List.filterMap_cons_some hlabel]
      exact ih.next hstep

/-- Nobody has a mutex but an operation in its section, and the sweeper sleeps or has keys to
expire. -/
structure Resting (l : Mutexes) : Prop where
  outside : l.threads.client = .outside → l.lock = none ∧ l.call = none
  inside : l.threads.client ≠ .outside → l.lock = some .eventLoop
  table : l.tableLock = none
  pass : l.pass = if l.threads.batch = [] then .asleep else .expiring

/-- With the mutexes the threads can come to `f` by the steps `g`. -/
def Came (buckets memoryLimit maxValueSize : Nat) (g : List Label) (f : Threads) : Prop :=
  ∃ h l, (system buckets memoryLimit maxValueSize).Reaches h l ∧ l.Resting ∧ l.threads = f ∧
    h.filterMap MutexEvent.label = g

/-- A sweeper with no keys left goes back to sleep. -/
theorem came_of_expiring (hr : (system buckets memoryLimit maxValueSize).Reaches h l)
    (hpass : l.pass = .expiring) (htable : l.tableLock = none)
    (hout : l.threads.client = .outside → l.lock = none ∧ l.call = none)
    (hin : l.threads.client ≠ .outside → l.lock = some .eventLoop) :
    Came buckets memoryLimit maxValueSize (h.filterMap MutexEvent.label) l.threads := by
  by_cases hbatch : l.threads.batch = []
  · exact ⟨_, _, hr.next (.again hpass hbatch), ⟨hout, hin, htable, (if_pos hbatch).symm⟩, rfl, rfl⟩
  · exact ⟨h, l, hr, ⟨hout, hin, htable, hpass.trans (if_neg hbatch).symm⟩, rfl, rfl⟩

theorem Resting.step (hl : l.Resting)
    (hr : (system buckets memoryLimit maxValueSize).Reaches h l) {e : Label} {f : Threads}
    (hs : Threads.Step l.threads e f) :
    Came buckets memoryLimit maxValueSize (e :: h.filterMap MutexEvent.label) f := by
  have hlock : ∀ op, l.threads.client = .outside → l.accepts op = true →
      (system buckets memoryLimit maxValueSize).Reaches (.turn .eventLoop :: .turn .eventLoop :: h)
        { l with call := some op, lock := some .eventLoop } := by
    intro op hout haccepts
    obtain ⟨hfree, hnone⟩ := hl.outside hout
    exact (hr.next (.call op hnone)).next
      (.takeLock .eventLoop ⟨op, rfl, fun _ => haccepts⟩ hfree)
  have hnested : l.WantsTable .eventLoop →
      (system buckets memoryLimit maxValueSize).Reaches (.turn .eventLoop :: h)
        { l with tableLock := some .eventLoop } :=
    fun hwants => hr.next (.takeTable .eventLoop hwants hl.table)
  cases hs with
  | refuse key value ttl hout refused =>
    have called := hr.next (.call (.set key value ttl) (hl.outside hout).2)
    exact ⟨_, _, called.next (.refuse rfl hout refused),
      ⟨fun _ => ⟨(hl.outside hout).1, rfl⟩, hl.inside, hl.table, hl.pass⟩, rfl, rfl⟩
  | place key value n ttl hout fits =>
    exact ⟨_, _, (hlock (.set key value ttl) hout fits).next (.place n rfl rfl hout),
      ⟨nofun, fun _ => rfl, hl.table, hl.pass⟩, rfl, rfl⟩
  | arm placed =>
    have hin := hl.inside (by simp [placed])
    exact ⟨_, _, (hnested ⟨hin, by simp [placed]⟩).next (.arm rfl placed),
      ⟨fun hout => absurd hout (round_inside _ _ _), fun _ => hin, rfl, hl.pass⟩, rfl, rfl⟩
  | drop evicting =>
    have hin := hl.inside (by simp [evicting])
    exact ⟨_, _, (hnested ⟨hin, by simp [evicting]⟩).next (.drop rfl evicting),
      ⟨fun hout => absurd hout (round_inside _ _ _), fun _ => hin, rfl, hl.pass⟩, rfl, rfl⟩
  | ask key hout =>
    have locked := hlock (.get key) hout rfl
    have nested := locked.next (.takeTable .eventLoop ⟨rfl, by simp [hout]⟩ hl.table)
    exact ⟨_, _, nested.next (.ask rfl rfl hout), ⟨nofun, fun _ => rfl, rfl, hl.pass⟩, rfl, rfl⟩
  | answer asked =>
    have hin := hl.inside (by simp [asked])
    exact ⟨_, _, hr.next (.answer asked), ⟨nofun, fun _ => hin, hl.table, hl.pass⟩, rfl, rfl⟩
  | absent hout absent =>
    exact ⟨_, _, (hlock (.del _) hout rfl).next (.absent rfl rfl hout absent),
      ⟨nofun, fun _ => rfl, hl.table, hl.pass⟩, rfl, rfl⟩
  | remove hout present =>
    exact ⟨_, _, (hlock (.del _) hout rfl).next (.remove rfl rfl hout present),
      ⟨nofun, fun _ => rfl, hl.table, hl.pass⟩, rfl, rfl⟩
  | forget removed =>
    have hin := hl.inside (by simp [removed])
    exact ⟨_, _, (hnested ⟨hin, by simp [removed]⟩).next (.forget rfl removed),
      ⟨nofun, fun _ => hin, rfl, hl.pass⟩, rfl, rfl⟩
  | leave leaving =>
    exact ⟨_, _, hr.next (.leave leaving),
      ⟨fun _ => ⟨rfl, rfl⟩, fun hin => absurd rfl hin, hl.table, hl.pass⟩, rfl, rfl⟩
  | collect batch idle all =>
    have hasleep : l.pass = .asleep := hl.pass.trans (if_pos idle)
    have woken := (hr.next (.takeTable .sweeper (by simp [WantsTable, hasleep]) hl.table)).next
      (.wake rfl hasleep)
    have collected := (woken.next (.takeTable .sweeper (by simp [WantsTable]) rfl)).next
      (.collect batch rfl rfl all)
    exact came_of_expiring collected rfl rfl hl.outside hl.inside
  | expire free next =>
    have hbatch : l.threads.batch ≠ [] := by simp [next]
    have hexpiring : l.pass = .expiring := hl.pass.trans (if_neg hbatch)
    have locked := hr.next (.takeLock .sweeper ⟨hexpiring, hbatch⟩ (hl.outside free).1)
    exact came_of_expiring (locked.next (.expire rfl next)) hexpiring hl.table
      (fun _ => ⟨rfl, (hl.outside free).2⟩) fun hin => absurd free hin
  | metrics free =>
    have locked := hr.next (.takeLock .admin trivial (hl.outside free).1)
    exact ⟨_, _, locked.next (.metrics rfl), ⟨fun _ => ⟨rfl, (hl.outside free).2⟩,
      fun hin => absurd free hin, hl.table, hl.pass⟩, rfl, rfl⟩
  | tick ticks =>
    exact ⟨_, _, hr.next (.tick l ticks), ⟨hl.outside, hl.inside, hl.table, hl.pass⟩, rfl, rfl⟩

theorem came_of_reaches {f : Threads} {g : List Label}
    (hr : (Threads.system buckets memoryLimit maxValueSize).Reaches g f) :
    Came buckets memoryLimit maxValueSize g f := by
  induction hr with
  | @start f hf =>
    exact ⟨[], ⟨f, none, .asleep, none, none⟩, .start ⟨hf, rfl, rfl, rfl, rfl⟩,
      ⟨fun _ => ⟨rfl, rfl⟩, fun hin => absurd hf.2.1 hin, rfl, (if_pos hf.2.2).symm⟩, rfl, rfl⟩
  | next _ hs ih =>
    obtain ⟨h, l, hr, hl, rfl, rfl⟩ := ih
    exact hl.step hr hs

/-- The runs of the threads with the mutexes are those without them. -/
theorem reaches_iff {f : Threads} {g : List Label} :
    (Threads.system buckets memoryLimit maxValueSize).Reaches g f ↔
      ∃ h l, (system buckets memoryLimit maxValueSize).Reaches h l ∧ l.threads = f ∧
        h.filterMap MutexEvent.label = g := by
  constructor
  · intro hr
    obtain ⟨h, l, hr', -, hthreads, hlabels⟩ := came_of_reaches hr
    exact ⟨h, l, hr', hthreads, hlabels⟩
  · rintro ⟨h, l, hr, rfl, rfl⟩
    exact threads_of_reaches hr

/-! ## Nobody waits for ever -/

/-- The thread has a step to take. -/
def CanGo (l : Mutexes) (t : Thread) : Prop := ∃ e l', Step l e l' ∧ e.thread = some t

namespace Orderly

/-- The mutex of the table is the last that a thread takes. -/
theorem canGo_table (ho : l.Orderly) (htable : l.tableLock = some t) : l.CanGo t := by
  have hwants := ho.table t htable
  cases t with
  | eventLoop =>
    obtain ⟨-, hsection⟩ := hwants
    cases hc : l.threads.client with
    | outside =>
      rw [hc] at hsection
      obtain ⟨key, hcall⟩ := hsection
      exact ⟨_, _, .ask htable hcall hc, rfl⟩
    | placed => exact ⟨_, _, .arm htable hc, rfl⟩
    | evicting => exact ⟨_, _, .drop htable hc, rfl⟩
    | removed => exact ⟨_, _, .forget htable hc, rfl⟩
    | asked | leaving => simp [hc] at hsection
  | sweeper =>
    cases hp : l.pass with
    | asleep => exact ⟨_, _, .wake htable hp, rfl⟩
    | collecting => exact ⟨_, _, .collect _ htable hp (List.Perm.refl _), rfl⟩
    | expiring => exact absurd hp hwants
  | admin => exact hwants.elim

/-- A thread that has `lock_` goes on, unless it is at the other mutex and somebody has that. -/
theorem canGo_lock (ho : l.Orderly) (hlock : l.lock = some t)
    (hfree : l.WantsTable t → l.tableLock = none) : l.CanGo t := by
  have hwants := ho.lock t hlock
  by_cases htable : l.WantsTable t
  · exact ⟨_, _, .takeTable t htable (hfree htable), rfl⟩
  cases t with
  | eventLoop =>
    obtain ⟨op, hcall, -⟩ := hwants
    cases hc : l.threads.client with
    | outside =>
      cases op with
      | set => exact ⟨_, _, .place 0 hlock hcall hc, rfl⟩
      | get key => exact absurd ⟨hlock, by simp [hc, hcall]⟩ htable
      | del key =>
        cases hm : l.threads.storage.data.lookup key with
        | none => exact ⟨_, _, .absent hlock hcall hc hm, rfl⟩
        | some m => exact ⟨_, _, .remove hlock hcall hc hm, rfl⟩
    | asked => exact ⟨_, _, .answer hc, rfl⟩
    | leaving => exact ⟨_, _, .leave hc, rfl⟩
    | placed | evicting | removed => exact absurd ⟨hlock, by simp [hc]⟩ htable
  | sweeper =>
    obtain ⟨key, rest, hnext⟩ := List.exists_cons_of_ne_nil hwants.2
    exact ⟨_, _, .expire hlock hnext, rfl⟩
  | admin => exact ⟨_, _, .metrics hlock, rfl⟩

/-- The next turn of the sweeper gives the mutex of the table back. -/
theorem gives_table (ho : l.Orderly) (htable : l.tableLock = some .sweeper) (hs : Step l e l')
    (he : e.thread = some .sweeper) : l'.tableLock = none ∧ l'.lock = l.lock := by
  have hpass : l.pass ≠ .expiring := ho.table _ htable
  cases hs with
  | takeLock t wants =>
    obtain rfl := Option.some.inj he
    exact absurd wants.1 hpass
  | takeTable t wants free => simp [htable] at free
  | doze | wake | collect => exact ⟨rfl, rfl⟩
  | expire locked => exact absurd (ho.lock _ locked).1 hpass
  | again expiring => exact absurd expiring hpass
  | _ => simp [MutexEvent.thread] at he

end Orderly

/-- The turns and steps that the event loop takes before it releases `lock_`, at most. -/
def toGo (l : Mutexes) : Nat :=
  let take := if l.tableLock = some .eventLoop then 0 else 1
  match l.threads.client with
  | .outside =>
    match l.call with
    | none => 0
    | some (.set _ _ _) => 2 * l.threads.storage.data.keys.length + 6
    | some (.get _) => take + 3
    | some (.del _) => 4
  | .placed _ _ _ | .evicting _ _ => take + 2 * l.threads.storage.data.keys.length + 2
  | .asked _ _ => 2
  | .removed _ => take + 2
  | .leaving _ => 1

/-- A round goes on with one key less, or is the last. -/
theorem toGo_round (l : Mutexes) (answer : Answer) (s : Storage) :
    toGo { l with threads := l.threads.round answer s, tableLock := none } ≤
      2 * s.data.keys.length + 1 := by
  simp only [Threads.round, Storage.nextVictim]
  split_ifs
  · cases hm : s.data.lookup s.policy.evict.1 with
    | none => simp [toGo]
    | some m =>
      have hlen := length_keys_erase hm
      simp only [toGo, Storage.unlist, reduceCtorEq, if_false]
      omega
  · simp [toGo]

/-- In the section, each turn of the event loop brings the end nearer, and nobody else moves it
away. -/
theorem Orderly.toGo_step (ho : l.Orderly) (hs : Step l e l') (hlock : l.lock = some .eventLoop) :
    l'.toGo + (if e.thread = some .eventLoop then 1 else 0) ≤ l.toGo ∧
      (Threads.returns e.label.toList = [] → l'.lock = some .eventLoop) := by
  obtain ⟨op, hcall, haccepts⟩ := ho.lock _ hlock
  cases hs with
  | takeLock t wants free => simp [hlock] at free
  | takeTable t wants free =>
    refine ⟨?_, fun _ => hlock⟩
    cases t with
    | eventLoop =>
      obtain ⟨-, hsection⟩ := wants
      cases hc : l.threads.client with
      | outside =>
        rw [hc] at hsection
        obtain ⟨key, hget⟩ := hsection
        simp [toGo, hc, hget, free, MutexEvent.thread]
      | placed | evicting | removed =>
        simp only [toGo, hc, free, MutexEvent.thread, if_true, reduceCtorEq, if_false]
        omega
      | asked | leaving => simp [hc] at hsection
    | sweeper => simp [toGo, free, MutexEvent.thread]
    | admin => exact wants.elim
  | call op' idle => simp [idle] at hcall
  | refuse called idle refused =>
    obtain rfl := Option.some.inj (called.symm.trans hcall)
    simp [accepts, refused, idle] at haccepts
  | @place key value ttl n locked called idle =>
    have hlen : (l.threads.storage.place n key value).data.keys.length ≤
        l.threads.storage.data.keys.length + 1 := by
      rw [Storage.place_data, length_keys_insert]
      split_ifs <;> omega
    refine ⟨?_, fun _ => hlock⟩
    simp only [toGo, idle, called, MutexEvent.thread, if_true]
    split_ifs <;> omega
  | @arm key value ttl nested placed =>
    refine ⟨?_, fun _ => hlock⟩
    have hround := l.toGo_round (.set key value.bytes ttl true)
      (l.threads.storage.arm l.threads.now key ttl)
    have hdata : (l.threads.storage.arm l.threads.now key ttl).data = l.threads.storage.data := rfl
    have hgo : l.toGo = 2 * l.threads.storage.data.keys.length + 2 := by simp [toGo, placed, nested]
    rw [hdata] at hround
    rw [hgo]
    exact Nat.succ_le_succ hround
  | @drop answer victim nested evicting =>
    refine ⟨?_, fun _ => hlock⟩
    have hround := l.toGo_round answer (l.threads.storage.dropDeadline victim)
    have hgo : l.toGo = 2 * l.threads.storage.data.keys.length + 2 := by
      simp [toGo, evicting, nested]
    rw [hgo]
    exact Nat.succ_le_succ hround
  | ask nested called idle =>
    exact ⟨by simp [toGo, nested, called, idle, MutexEvent.thread], fun _ => hlock⟩
  | answer asked => exact ⟨by simp [toGo, asked, MutexEvent.thread], fun _ => hlock⟩
  | absent locked called idle =>
    exact ⟨by simp [toGo, called, idle, MutexEvent.thread], fun _ => hlock⟩
  | remove locked called idle =>
    refine ⟨?_, fun _ => hlock⟩
    simp only [toGo, called, idle, MutexEvent.thread, if_true]
    split_ifs <;> omega
  | forget nested removed =>
    exact ⟨by simp [toGo, nested, removed, MutexEvent.thread], fun _ => hlock⟩
  | leave leaving =>
    exact ⟨by simp [toGo, leaving, MutexEvent.thread], by simp [MutexEvent.label, Threads.returns]⟩
  | doze locked | wake locked =>
    exact ⟨by simp [toGo, locked, MutexEvent.thread], fun _ => hlock⟩
  | collect batch locked =>
    exact ⟨by simp [toGo, locked, MutexEvent.thread, Storage.collectExpired], fun _ => hlock⟩
  | expire locked => simp [hlock] at locked
  | again => exact ⟨by simp [toGo, MutexEvent.thread], fun _ => hlock⟩
  | metrics locked => simp [hlock] at locked
  | tick => exact ⟨by simp [toGo, MutexEvent.thread], fun _ => hlock⟩

/-- A thread that has `lock_` goes on, or will when the sweeper has given the table back. -/
theorem Orderly.canGo_or (ho : l.Orderly) (hlock : l.lock = some t) :
    l.CanGo t ∨ l.tableLock = some .sweeper ∧
      ∀ e l', Step l e l' → e.thread = some .sweeper → l'.CanGo t := by
  cases htable : l.tableLock with
  | none => exact .inl (ho.canGo_lock hlock fun _ => htable)
  | some u =>
    cases u with
    | eventLoop =>
      obtain rfl : t = .eventLoop := Option.some.inj (hlock.symm.trans (ho.table _ htable).1)
      exact .inl (ho.canGo_table htable)
    | sweeper =>
      refine .inr ⟨rfl, fun e l' hs he => ?_⟩
      obtain ⟨hfree, hsame⟩ := ho.gives_table htable hs he
      exact (ho.step hs).canGo_lock (hsame.trans hlock) fun _ => hfree
    | admin => exact (ho.table _ htable).elim

/-- Whoever has the mutex of the table can go on. Whoever has `lock_` of the store can go on, or can
after the next turn of the sweeper, which has the mutex of the table. And an operation leaves
`lock_` after a bounded number of its own turns, however those of the others come in between. -/
theorem section_ends (hr : (system buckets memoryLimit maxValueSize).Reaches h l) :
    (∀ t, l.tableLock = some t → l.CanGo t) ∧
      (∀ t, l.lock = some t → l.CanGo t ∨ l.tableLock = some .sweeper ∧
        ∀ e l', Step l e l' → e.thread = some .sweeper → l'.CanGo t) ∧
      ∀ g l', l.lock = some .eventLoop →
        ((system buckets memoryLimit maxValueSize).startAt l).Reaches g l' →
        Threads.returns (g.filterMap MutexEvent.label) = [] →
        g.countP (fun e => e.thread = some .eventLoop) + l'.toGo ≤ l.toGo ∧
          l'.lock = some .eventLoop := by
  have ho := orderly_of_reaches hr
  refine ⟨fun t => ho.canGo_table, fun t => ho.canGo_or, fun g l' hlock hr' hopen => ?_⟩
  induction hr' with
  | start hs =>
    obtain rfl : _ = l := hs
    exact ⟨by simp, hlock⟩
  | @next g l' l'' e hrun hstep ih =>
    have hsplit : Threads.returns ((e :: g).filterMap MutexEvent.label) =
        Threads.returns e.label.toList ++ Threads.returns (g.filterMap MutexEvent.label) := by
      cases hlabel : e.label with
      | none => rw [List.filterMap_cons_none hlabel]; rfl
      | some a =>
        rw [List.filterMap_cons_some hlabel]
        cases a <;> rfl
    rw [hsplit, List.append_eq_nil_iff] at hopen
    obtain ⟨hcount, hlock'⟩ := ih hopen.2
    obtain ⟨hle, hstay⟩ :=
      (orderly_of_reaches (hr.append_startAt hrun)).toGo_step hstep hlock'
    refine ⟨?_, hstay hopen.1⟩
    rw [List.countP_cons]
    simp only [decide_eq_true_eq]
    omega

/-- A `set` has placed its value and comes to the table, where the sweeper is. -/
def waiting : Mutexes where
  threads := {
    storage := (Storage.init 1 200 200).place 1 [107] ⟨[7], 15, by decide⟩
    client := .placed [107] ⟨[7], 15, by decide⟩ 1
    entered := 0
    batch := []
    now := 0 }
  call := some (.set [107] ⟨[7], 15, by decide⟩ 1)
  pass := .asleep
  lock := some .eventLoop
  tableLock := some .sweeper

theorem waiting_reached : (system 1 200 200).Reaches [.turn .sweeper, .work .eventLoop .client,
    .turn .eventLoop, .turn .eventLoop] waiting := by
  have start : (system 1 200 200).Reaches []
      ⟨⟨Storage.init 1 200 200, .outside, 0, [], 0⟩, none, .asleep, none, none⟩ :=
    .start ⟨⟨rfl, rfl, rfl⟩, rfl, rfl, rfl, rfl⟩
  have called := start.next (Step.call (.set [107] ⟨[7], 15, by decide⟩ 1) rfl)
  have locked := called.next (Step.takeLock .eventLoop ⟨_, rfl, fun _ => by decide⟩ rfl)
  have placed := locked.next (Step.place 1 rfl rfl rfl)
  exact placed.next (Step.takeTable .sweeper (by simp [WantsTable]) rfl)

theorem waiting_ends : waiting.CanGo .sweeper ∧
    (waiting.CanGo .eventLoop ∨ waiting.tableLock = some .sweeper ∧
      ∀ e l', Step waiting e l' → e.thread = some .sweeper → l'.CanGo .eventLoop) ∧
    ∃ l' : Mutexes, l'.threads.client = .leaving (.set [107] [7] 1 true) ∧ 2 + l'.toGo ≤ 5 := by
  obtain ⟨htable, hlock, hends⟩ := section_ends waiting_reached
  have given : ((system 1 200 200).startAt waiting).Reaches [.turn .sweeper] _ :=
    (Transition.System.Reaches.start rfl).next (Step.doze rfl rfl)
  have taken := given.next (Step.takeTable .eventLoop ⟨rfl, trivial⟩ rfl)
  have armed := taken.next (Step.arm rfl rfl)
  exact ⟨htable _ rfl, hlock _ rfl, _, rfl, (hends _ _ rfl armed rfl).1⟩

end Mutexes

end PolyCache
