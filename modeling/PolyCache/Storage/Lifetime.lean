import PolyCache.Storage.Locks

/-!
# The life of a store

The thread of the sweeper starts in the middle of the construction of the store: `TTLManager` starts
it, and the counters of `Storage` are made after `ttl_`. It ends in the middle of the destruction,
where `~TTLManager` sets `stop_` and waits for it. The sweeper looks at `stop_` between two passes
only, so that a pass goes on meanwhile, with callbacks into the store. A `Lifetime` is a store with
the thread that makes and destroys it; in between, the store is used as in `Threads`.
-/

namespace PolyCache

open AssocMap

/-- The members of `Storage` and, from `expiries` to `thread`, those of its `TTLManager`. -/
inductive Member where
  | data | policy | lock
  | expiries | tableLock | onExpire | stop | cv | thread
  | counters | limits
  deriving DecidableEq, Repr

/-- In the order in which they are declared. -/
def Member.declared : List Member :=
  [.data, .policy, .lock, .expiries, .tableLock, .onExpire, .stop, .cv, .thread, .counters, .limits]

/-- Where the thread is that makes and destroys the store. -/
inductive Owner where
  /-- in the constructor, with the first members made -/
  | making (made : Nat)
  | ready
  /-- in `~TTLManager`, before `stop_` is set -/
  | closing
  | notifying
  | joining
  /-- with the first members still to be destroyed -/
  | ending (left : Nat)
  deriving DecidableEq, Repr

/-- A member has been made, and not been destroyed. -/
def Owner.alive (o : Owner) (m : Member) : Bool :=
  match o with
  | .making n | .ending n => m ∈ Member.declared.take n
  | .ready | .closing | .notifying | .joining => true

/-- Where `sweep_loop` is. -/
inductive Sweeper where
  | unborn
  /-- in `wait_for` -/
  | asleep
  /-- before `expired_keys` -/
  | collecting
  /-- in the loop over the keys -/
  | expiring
  | finished
  deriving DecidableEq, Repr

structure Lifetime where
  owner : Owner := .making 0
  sweeper : Sweeper := .unborn
  stop : Bool := false
  threads : Threads

inductive LifeEvent where
  | make | throw | made
  | use (e : Label)
  | close | flag | notify | join | unmake
  | wake | collect | expire | again | finish

namespace LifeEvent

/-- The members that a step reads or writes. -/
def accesses : LifeEvent → List Member
  | .make | .throw | .made | .close | .unmake | .again | .use .clock => []
  | .use _ => [.data, .policy, .lock, .expiries, .tableLock, .counters, .limits]
  | .flag => [.tableLock, .stop]
  | .notify => [.cv]
  | .join => [.thread]
  | .wake | .finish => [.tableLock, .cv, .stop]
  | .collect => [.tableLock, .expiries]
  | .expire => [.onExpire, .lock, .data, .policy, .counters]

def isTick : LifeEvent → Bool
  | .use .clock => true
  | _ => false

/-- What it is for the threads that use the store. -/
def label : LifeEvent → Option Label
  | .use e => some e
  | .collect | .expire => some .sweeper
  | _ => none

end LifeEvent

namespace Lifetime

/-- The members up to the thread of the sweeper. -/
def beforeThread : Nat := 8

inductive Step : Lifetime → LifeEvent → Lifetime → Prop where
  | make {l : Lifetime} {n : Nat} (making : l.owner = .making n)
      (more : n < Member.declared.length) :
      Step l .make { l with
        owner := .making (n + 1)
        sweeper := if n = beforeThread then .asleep else l.sweeper }
  -- an allocation or the start of the thread has failed; scalars do not fail
  | throw {l : Lifetime} {n : Nat} (making : l.owner = .making n) (early : n ≤ beforeThread) :
      Step l .throw { l with owner := .ending n }
  | made {l : Lifetime} (making : l.owner = .making Member.declared.length) :
      Step l .made { l with owner := .ready }
  | use {l : Lifetime} {e : Label} {f : Threads} (step : Threads.Step l.threads e f)
      (user : e = .clock ∨ l.owner = .ready ∧ e ≠ .sweeper) :
      Step l (.use e) { l with threads := f }
  -- `main` has joined the thread of the admin server, and the event loop has returned
  | close {l : Lifetime} (ready : l.owner = .ready) (idle : l.threads.client = .outside) :
      Step l .close { l with owner := .closing }
  | flag {l : Lifetime} (closing : l.owner = .closing) :
      Step l .flag { l with owner := .notifying, stop := true }
  | notify {l : Lifetime} (notifying : l.owner = .notifying) :
      Step l .notify { l with owner := .joining }
  -- the scalars at the end have no destructor
  | join {l : Lifetime} (joining : l.owner = .joining) (finished : l.sweeper = .finished) :
      Step l .join { l with owner := .ending (beforeThread + 1) }
  | unmake {l : Lifetime} {n : Nat} (ending : l.owner = .ending (n + 1)) :
      Step l .unmake { l with owner := .ending n }
  | wake {l : Lifetime} (asleep : l.sweeper = .asleep) (running : l.stop = false) :
      Step l .wake { l with sweeper := .collecting }
  | collect {l : Lifetime} {batch : List Bytes} (collecting : l.sweeper = .collecting)
      (all : batch.Perm (l.threads.storage.collectExpired l.threads.now).1) :
      Step l .collect { l with
        sweeper := .expiring
        threads.storage := (l.threads.storage.collectExpired l.threads.now).2
        threads.batch := batch }
  | expire {l : Lifetime} {key : Bytes} {rest : List Bytes} (expiring : l.sweeper = .expiring)
      (free : l.threads.client = .outside) (next : l.threads.batch = key :: rest) :
      Step l .expire { l with
        threads.storage := l.threads.storage.expireKey key
        threads.batch := rest }
  | again {l : Lifetime} (expiring : l.sweeper = .expiring) (done : l.threads.batch = []) :
      Step l .again { l with sweeper := .asleep }
  | finish {l : Lifetime} (asleep : l.sweeper = .asleep) (stopped : l.stop = true) :
      Step l .finish { l with sweeper := .finished }

/-- From the call of the constructor on. -/
def system (buckets memoryLimit maxValueSize : Nat) : Transition.System Lifetime LifeEvent where
  init l := l.owner = .making 0 ∧ l.sweeper = .unborn ∧ l.stop = false ∧
    (Threads.system buckets memoryLimit maxValueSize).init l.threads
  step := Step

variable {buckets memoryLimit maxValueSize : Nat} {h h' : List LifeEvent} {l l' : Lifetime}
  {e : LifeEvent}

/-! ## Where the two threads can be -/

structure Orderly (l : Lifetime) : Prop where
  /-- no deadline is set before the store is made -/
  empty : ∀ n, l.owner = .making n →
    l.threads.storage.ttl.expiries.keys = [] ∧ l.threads.batch = []
  unborn : ∀ n, l.owner = .making n → (l.sweeper = .unborn ↔ n ≤ beforeThread)
  born : l.sweeper = .unborn → (∃ n, l.owner = .making n) ∨ ∃ n, l.owner = .ending n
  ended : ∀ n, l.owner = .ending n → l.sweeper = .unborn ∨ l.sweeper = .finished
  finished : l.sweeper = .finished → l.stop = true
  stop : l.stop = true → l.owner = .notifying ∨ l.owner = .joining ∨ ∃ n, l.owner = .ending n
  batch : l.threads.batch ≠ [] → l.sweeper = .expiring
  idle : l.owner ≠ .ready → l.threads.client = .outside

/-- Only the sweeper works on its batch. -/
theorem batch_of_user {f f' : Threads} {e : Label} (hs : Threads.Step f e f')
    (huser : e ≠ .sweeper) : f'.batch = f.batch := by
  cases hs with
  | collect | expire => exact absurd rfl huser
  | _ => rfl

theorem of_clock {f f' : Threads} (hs : Threads.Step f .clock f') :
    f'.storage = f.storage ∧ f'.batch = f.batch ∧ f'.client = f.client := by
  cases hs with
  | tick ticks => exact ⟨rfl, rfl, rfl⟩

/-- There is nothing to collect where there are no deadlines. -/
theorem collect_empty {s : Storage} (hempty : s.ttl.expiries.keys = []) (now : Nat) :
    (s.collectExpired now).1 = [] ∧ (s.collectExpired now).2.ttl.expiries.keys = [] := by
  have hnone : ∀ P : Bytes → Nat → Bool, (filter P s.ttl.expiries).keys = [] := by
    intro P
    have hsub := keys_filter_sublist P s.ttl.expiries
    rw [hempty] at hsub
    exact List.sublist_nil.mp hsub
  exact ⟨hnone _, hnone _⟩

theorem Orderly.step (ho : l.Orderly) (hs : Step l e l') : l'.Orderly := by
  obtain ⟨empty, unborn, born, ended, finished, stop, batch, idle⟩ := ho
  cases hs with
  -- one of the two goes to its next place, and the store changes only where `lock_` is free
  | make making more | throw making early | close ready idle | flag closing | notify notifying
  | join joining finished | unmake ending | wake asleep running | expire expiring free next
  | again expiring done | finish asleep stopped => constructor <;> grind -ring -linarith
  | made making =>
    -- the sweeper has been started
    have hborn : l.sweeper ≠ .unborn := by
      intro hunborn
      exact absurd ((unborn _ making).mp hunborn) (by decide)
    constructor <;> grind -ring -linarith
  | @use e f step user =>
    obtain rfl | ⟨ready, huser⟩ := user
    · obtain ⟨hstorage, hbatch, hclient⟩ := of_clock step
      constructor <;> simp only [hstorage, hbatch, hclient] <;> assumption
    · have hbatch := batch_of_user step huser
      constructor <;> grind -ring -linarith
  | @collect batch' collecting all =>
    constructor
    · intro n making
      obtain ⟨hkeys, -⟩ := empty n making
      obtain ⟨hnone, hkeys'⟩ := collect_empty hkeys l.threads.now
      refine ⟨hkeys', ?_⟩
      rw [hnone] at all
      exact all.eq_nil
    all_goals grind -ring -linarith

theorem orderly_of_reaches (hr : (system buckets memoryLimit maxValueSize).Reaches h l) :
    l.Orderly := by
  refine hr.stateInvariant (P := Orderly) ?_ fun l e l' ih hs => ih.step hs
  intro l hl
  obtain ⟨howner, hsweeper, hstop, hstorage, hclient, hbatch⟩ := hl
  constructor
  · intro n _
    rw [hstorage]
    exact ⟨rfl, hbatch⟩
  all_goals grind -ring -linarith

/-! ## What is used is there -/

/-- The members that are made before the thread of the sweeper are there as long as it is. -/
theorem Orderly.alive (ho : l.Orderly) (hborn : l.sweeper ≠ .unborn)
    (hlives : l.sweeper ≠ .finished) {m : Member}
    (hm : m ∈ Member.declared.take (beforeThread + 1)) : l.owner.alive m = true := by
  cases howner : l.owner with
  | ready | closing | notifying | joining => rfl
  | ending n =>
    exfalso
    exact (ho.ended n howner).elim hborn hlives
  | making n =>
    have hn : beforeThread + 1 ≤ n := by
      by_contra hlt
      exact hborn ((ho.unborn n howner).mpr (by omega))
    have hsub := List.take_subset_take_left Member.declared hn
    simpa [Owner.alive] using hsub hm

/-- A callback comes only when the whole store has been made. -/
theorem Orderly.alive_of_batch (ho : l.Orderly) (hbatch : l.threads.batch ≠ []) (m : Member) :
    l.owner.alive m = true := by
  have hsweeper := ho.batch hbatch
  cases howner : l.owner with
  | ready | closing | notifying | joining => rfl
  | making n => exact absurd (ho.empty n howner).2 hbatch
  | ending n =>
    have hended := ho.ended n howner
    simp [hsweeper] at hended

theorem Orderly.accesses (ho : l.Orderly) (hs : Step l e l') :
    ∀ m ∈ e.accesses, l.owner.alive m = true := by
  intro m hm
  cases hs with
  | make | throw | made | close | unmake | again => cases hm
  | @use e f step user =>
    obtain rfl | ⟨ready, -⟩ := user
    · cases hm
    · rw [ready]
      rfl
  | flag closing =>
    rw [closing]
    rfl
  | notify notifying =>
    rw [notifying]
    rfl
  | join joining finished =>
    rw [joining]
    rfl
  | wake asleep | finish asleep =>
    apply ho.alive (by simp [asleep]) (by simp [asleep])
    revert m
    decide
  | collect collecting all =>
    apply ho.alive (by simp [collecting]) (by simp [collecting])
    revert m
    decide
  | expire expiring free next => exact ho.alive_of_batch (by simp [next]) m

/-- However the two threads interleave, no step reads or writes a member that has not been made, or
that has been destroyed; the sweeper has ended when the first member is destroyed. -/
theorem accesses_alive (hr : (system buckets memoryLimit maxValueSize).Reaches h l) :
    (∀ e l', Step l e l' → ∀ m ∈ e.accesses, l.owner.alive m = true) ∧
      ∀ n, l.owner = .ending n →
        (l.sweeper = .unborn ∨ l.sweeper = .finished) ∧ l.threads.batch = [] := by
  have ho := orderly_of_reaches hr
  constructor
  · intro e l' hs
    exact ho.accesses hs
  · intro n howner
    have hended := ho.ended n howner
    refine ⟨hended, ?_⟩
    by_contra hbatch
    rw [ho.batch hbatch] at hended
    simp at hended

/-! ## The store in between -/

/-- What is proved of the threads that use a store holds of a store in its life. -/
theorem threads_of_reaches (hr : (system buckets memoryLimit maxValueSize).Reaches h l) :
    (Threads.system buckets memoryLimit maxValueSize).Reaches (h.filterMap LifeEvent.label)
      l.threads := by
  induction hr with
  | start hl => exact .start hl.2.2.2
  | @next h l l' e hr hs ih =>
    have ho := orderly_of_reaches hr
    cases hs with
    | make | throw | made | close | flag | notify | join | unmake | wake | again | finish =>
      exact ih
    | use step user => exact ih.next step
    | @collect batch collecting all =>
      have hidle : l.threads.batch = [] := by
        by_contra hbatch
        rw [ho.batch hbatch] at collecting
        cases collecting
      exact ih.next (.collect batch hidle all)
    | expire expiring free next => exact ih.next (.expire free next)

/-! ## The destruction ends -/

/-- The steps of the owner from `notify_all` on. -/
def ownerToGo : Owner → Nat
  | .notifying => beforeThread + 3
  | .joining => beforeThread + 2
  | .ending n => n
  | _ => 0

/-- The steps of the sweeper, when `stop_` has been set. -/
def sweeperToGo (l : Lifetime) : Nat :=
  match l.sweeper with
  | .collecting => l.threads.storage.ttl.expiries.keys.length + 3
  | .expiring => l.threads.batch.length + 2
  | .asleep => 1
  | .unborn | .finished => 0

def toGo (l : Lifetime) : Nat := ownerToGo l.owner + l.sweeperToGo

theorem Orderly.toGo_step (ho : l.Orderly) (hs : Step l e l') (hstop : l.stop = true) :
    l'.stop = true ∧ l'.toGo + (if e.isTick then 0 else 1) ≤ l.toGo := by
  have howner := ho.stop hstop
  cases hs with
  | make making | throw making | made making => simp [making] at howner
  | close ready => simp [ready] at howner
  | flag closing => simp [closing] at howner
  | wake asleep running => simp [running] at hstop
  | use step user =>
    obtain rfl | ⟨ready, -⟩ := user
    · obtain ⟨hstorage, hbatch, -⟩ := of_clock step
      refine ⟨hstop, ?_⟩
      simp [toGo, sweeperToGo, hstorage, hbatch, LifeEvent.isTick]
    · simp [ready] at howner
  | notify notifying =>
    refine ⟨rfl.trans hstop, ?_⟩
    simp only [toGo, sweeperToGo, notifying, ownerToGo, LifeEvent.isTick]
    grind -ring -linarith
  | join joining finished =>
    refine ⟨rfl.trans hstop, ?_⟩
    simp [toGo, sweeperToGo, joining, finished, ownerToGo, LifeEvent.isTick]
  | unmake ending =>
    refine ⟨rfl.trans hstop, ?_⟩
    simp only [toGo, sweeperToGo, ending, ownerToGo, LifeEvent.isTick]
    grind -ring -linarith
  | @collect batch collecting all =>
    refine ⟨rfl.trans hstop, ?_⟩
    have hlength : batch.length ≤ l.threads.storage.ttl.expiries.keys.length := by
      rw [all.length_eq]
      exact (keys_filter_sublist _ _).length_le
    simp only [toGo, sweeperToGo, collecting, LifeEvent.isTick]
    grind -ring -linarith
  | expire expiring free next =>
    refine ⟨rfl.trans hstop, ?_⟩
    simp only [toGo, sweeperToGo, expiring, next, List.length_cons, LifeEvent.isTick]
    grind -ring -linarith
  | again expiring done =>
    refine ⟨rfl.trans hstop, ?_⟩
    simp [toGo, sweeperToGo, expiring, done, LifeEvent.isTick]
  | finish asleep stopped =>
    refine ⟨rfl.trans hstop, ?_⟩
    simp [toGo, sweeperToGo, asleep, LifeEvent.isTick]

/-- Neither thread waits for the other in vain. -/
theorem Orderly.enabled (ho : l.Orderly) (hstop : l.stop = true) :
    l.owner = .ending 0 ∨ ∃ e l', Step l e l' ∧ e.isTick = false := by
  obtain notifying | joining | ⟨n, ending⟩ := ho.stop hstop
  · exact .inr ⟨_, _, .notify notifying, rfl⟩
  · right
    cases hsweeper : l.sweeper with
    | unborn =>
      have hborn := ho.born hsweeper
      simp [joining] at hborn
    | asleep => exact ⟨_, _, .finish hsweeper hstop, rfl⟩
    | collecting => exact ⟨_, _, .collect hsweeper (.refl _), rfl⟩
    | expiring =>
      cases hbatch : l.threads.batch with
      | nil => exact ⟨_, _, .again hsweeper hbatch, rfl⟩
      | cons key rest =>
        have hfree := ho.idle (by simp [joining])
        exact ⟨_, _, .expire hsweeper hfree hbatch, rfl⟩
    | finished => exact ⟨_, _, .join joining hsweeper, rfl⟩
  · cases n with
    | zero => exact .inl ending
    | succ n => exact .inr ⟨_, _, .unmake ending, rfl⟩

/-- Once `stop_` is set, a bounded number of steps is left, however the threads interleave and
whenever the clock ticks, and as long as there is a member to destroy some thread can go on. -/
theorem destruction_ends (hr : (system buckets memoryLimit maxValueSize).Reaches h l)
    (hstop : l.stop = true)
    (hr' : ((system buckets memoryLimit maxValueSize).startAt l).Reaches h' l') :
    h'.countP (fun e => !e.isTick) + l'.toGo ≤ l.toGo ∧
      (l'.owner = .ending 0 ∨ ∃ e l'', Step l' e l'' ∧ e.isTick = false) := by
  suffices hbound : h'.countP (fun e => !e.isTick) + l'.toGo ≤ l.toGo ∧ l'.stop = true by
    have ho := orderly_of_reaches (hr.append_startAt hr')
    exact ⟨hbound.1, ho.enabled hbound.2⟩
  induction hr' with
  | start hl =>
    obtain rfl : _ = l := hl
    simp [hstop]
  | @next h' l' l'' e hr' hs ih =>
    obtain ⟨hle, hstop'⟩ := ih
    have ho := orderly_of_reaches (hr.append_startAt hr')
    obtain ⟨hstop'', hstep⟩ := ho.toGo_step hs hstop'
    refine ⟨?_, hstop''⟩
    rw [List.countP_cons]
    grind -ring -linarith

/-! ## A store destroyed in the middle of a pass -/

def unmade : Lifetime where
  threads := ⟨Storage.init 1 1024 8, .outside, 0, [], 0⟩

/-- A deadline has passed, its key has been collected, and then `stop_` has been set. -/
theorem reaches_midPass : ∃ h l, (system 1 1024 8).Reaches h l ∧ l.owner = .joining ∧
    l.stop = true ∧ l.sweeper = .expiring ∧ l.threads.batch = [[107]] ∧ l.toGo = 13 := by
  have start : (system 1 1024 8).Reaches [] unmade := .start ⟨rfl, rfl, rfl, rfl, rfl, rfl⟩
  have lock := ((start.next (.make rfl (by decide))).next (.make rfl (by decide))).next
    (.make rfl (by decide))
  have stop := (((lock.next (.make rfl (by decide))).next (.make rfl (by decide))).next
    (.make rfl (by decide))).next (.make rfl (by decide))
  have thread := (stop.next (.make rfl (by decide))).next (.make rfl (by decide))
  have ready :=
    ((thread.next (.make rfl (by decide))).next (.make rfl (by decide))).next (.made rfl)
  have placed := ready.next (.use (.place [107] ⟨[7], 15, by decide⟩ 1 1 rfl rfl)
    (.inr ⟨rfl, by simp⟩))
  have armed := placed.next (.use (.arm rfl) (.inr ⟨rfl, by simp⟩))
  have left := armed.next (.use (.leave rfl) (.inr ⟨rfl, by simp⟩))
  have due := left.next (.use (.tick _ ticksPerSecond) (.inl rfl))
  have collected := (due.next (.wake rfl rfl)).next (@Step.collect _ [[107]] rfl (by decide))
  have joining := ((collected.next (.close rfl rfl)).next (.flag rfl)).next (.notify rfl)
  exact ⟨_, _, joining, rfl, rfl, rfl, rfl, rfl⟩

/-- The callback uses what `~TTLManager` is not yet through with. -/
theorem midPass_alive : ∃ l l', Step l .expire l' ∧ l.owner = .joining ∧
    l.owner.alive .counters = true := by
  obtain ⟨h, l, hr, howner, -, hsweeper, hbatch, -⟩ := reaches_midPass
  have hfree := (orderly_of_reaches hr).idle (by simp [howner])
  have hs := Step.expire hsweeper hfree hbatch
  exact ⟨l, _, hs, howner, (accesses_alive hr).1 _ _ hs .counters (by decide)⟩

theorem midPass_ends : ∃ l l' : Lifetime, l.owner = .joining ∧ l.threads.batch = [[107]] ∧
    l'.threads.batch = [] ∧ 1 + l'.toGo ≤ 13 := by
  obtain ⟨h, l, hr, howner, hstop, hsweeper, hbatch, htoGo⟩ := reaches_midPass
  have hfree := (orderly_of_reaches hr).idle (by simp [howner])
  have hr' : ((system 1 1024 8).startAt l).Reaches [.expire] _ :=
    (Transition.System.Reaches.start rfl).next (.expire hsweeper hfree hbatch)
  have hends := (destruction_ends hr hstop hr').1
  rw [htoGo] at hends
  exact ⟨l, _, howner, hbatch, rfl, hends⟩

end Lifetime

end PolyCache
