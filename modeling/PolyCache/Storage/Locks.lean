import PolyCache.Storage.Metrics

/-!
# The two mutexes

`Storage` and its `TTLManager` have a mutex each. A client holds `lock_` of the store through an
operation, but the mutex of the table only during each use of the table, and `expired_keys` takes
no other. So a sweep pass can collect, and time can go by, in the middle of an operation. Here an
operation is cut where it uses the table; what it does in between touches only what `lock_`
guards. The threads are those of the program: the event loop, which runs the client operations,
the sweeper, and the admin server, which reads the metrics. That they wait for one another is left
to `Mutexes`, which has the same runs.
-/

namespace PolyCache

open AssocMap

/-- What a client operation was asked and answered. -/
inductive Answer where
  | set (key value : Bytes) (ttl : Int) (stored : Bool)
  | get (key : Bytes) (blob : Option Bytes)
  | del (key : Bytes) (removed : Bool)
  deriving DecidableEq, Repr

namespace Storage

/-! ## Between two uses of the table -/

/-- `set` from the update of the deadline to the eviction. -/
def arm (s : Storage) (now : Nat) (key : Bytes) (ttl : Int) : Storage :=
  let s := { s with ttl := if 0 < ttl then s.ttl.setTtl now key ttl else s.ttl.erase key }
  { s with usedMemoryPeak := max s.usedMemoryPeak s.usedMemory }

/-- A round of `evict_if_over_limit` up to `ttl_.erase`. -/
def unlist (s : Storage) (victim : Bytes) (m : KeyMeta) : Storage :=
  { s with
    policy := s.policy.evict.2
    valueBytes := s.valueBytes.sub m.value.length
    data := s.data.erase victim }

/-- The rest of the round. -/
def dropDeadline (s : Storage) (victim : Bytes) : Storage :=
  { s with ttl := s.ttl.erase victim, evictions := s.evictions + 1 }

/-- The head of the loop: the victim that a round has taken out of `data_`, if there is one. -/
def nextVictim (s : Storage) : Storage × Option Bytes :=
  if s.Over then
    match s.data.lookup s.policy.evict.1 with
    | none => ({ s with policy := s.policy.evict.2 }, none)
    | some m => (s.unlist s.policy.evict.1 m, some s.policy.evict.1)
  else (s, none)

/-- `get` up to the answer of the table. -/
def ask (s : Storage) (now : Nat) (key : Bytes) : Bool × Storage :=
  let (expired, ttl) := s.ttl.isExpired now key
  (expired, { s with ttl := ttl })

/-- The rest of `get`. -/
def finishGet (s : Storage) (key : Bytes) (expired : Bool) : Option Bytes × Storage :=
  if expired then
    let s := match s.data.lookup key with
      | none => s
      | some m => s.removeEntry key m
    (none, { s with expiredKeys := s.expiredKeys + 1, misses := s.misses + 1 })
  else
    match s.data.lookup key with
    | none => (none, { s with misses := s.misses + 1 })
    | some m => (some m.value, { s with policy := s.policy.touch key, hits := s.hits + 1 })

end Storage

/-! ## The threads -/

/-- Where the event loop is in the critical section of `lock_`. -/
inductive Section where
  | outside
  /-- in `set`, before the deadline is updated -/
  | placed (key : Bytes) (value : Str) (ttl : Int)
  /-- in `evict_if_over_limit`, before the deadline of `victim` is erased -/
  | evicting (answer : Answer) (victim : Bytes)
  /-- in `get`, after the table has answered -/
  | asked (key : Bytes) (expired : Bool)
  /-- in `del`, before the deadline is erased -/
  | removed (key : Bytes)
  /-- before the mutex is released -/
  | leaving (answer : Answer)

/-- An operation with the times between which it held `lock_`. -/
structure Call where
  entered : Nat
  left : Nat
  answer : Answer
  deriving DecidableEq, Repr

inductive Label where
  | returned (c : Call)
  | client
  | sweeper
  | metrics (m : Metrics)
  | clock

structure Threads where
  storage : Storage
  client : Section
  /-- when the event loop took `lock_` -/
  entered : Nat
  /-- the rest of the batch in `sweep_loop` -/
  batch : List Bytes
  now : Nat

namespace Threads

/-- The loop of `evict_if_over_limit` goes on. -/
def round (f : Threads) (answer : Answer) (s : Storage) : Threads :=
  { f with
    storage := s.nextVictim.1
    client := match s.nextVictim.2 with
      | none => .leaving answer
      | some victim => .evicting answer victim }

inductive Step : Threads → Label → Threads → Prop where
  /-- `can_store` is checked before the mutex is taken. -/
  | refuse {f : Threads} (key : Bytes) (value : Str) (ttl : Int) (idle : f.client = .outside)
      (refused : f.storage.canStore key value = false) :
      Step f (.returned ⟨f.now, f.now, .set key value.bytes ttl false⟩) f
  | place {f : Threads} (key : Bytes) (value : Str) (buckets : Nat) (ttl : Int)
      (idle : f.client = .outside) (fits : f.storage.canStore key value = true) :
      Step f .client { f with
        storage := f.storage.place buckets key value
        client := .placed key value ttl
        entered := f.now }
  | arm {f : Threads} {key : Bytes} {value : Str} {ttl : Int}
      (placed : f.client = .placed key value ttl) :
      Step f .client
        (f.round (.set key value.bytes ttl true) (f.storage.arm f.now key ttl))
  | drop {f : Threads} {answer : Answer} {victim : Bytes}
      (evicting : f.client = .evicting answer victim) :
      Step f .client (f.round answer (f.storage.dropDeadline victim))
  | ask {f : Threads} (key : Bytes) (idle : f.client = .outside) :
      Step f .client { f with
        storage := (f.storage.ask f.now key).2
        client := .asked key (f.storage.ask f.now key).1
        entered := f.now }
  | answer {f : Threads} {key : Bytes} {expired : Bool} (asked : f.client = .asked key expired) :
      Step f .client { f with
        storage := (f.storage.finishGet key expired).2
        client := .leaving (.get key (f.storage.finishGet key expired).1) }
  | absent {f : Threads} {key : Bytes} (idle : f.client = .outside)
      (absent : f.storage.data.lookup key = none) :
      Step f .client { f with client := .leaving (.del key false), entered := f.now }
  | remove {f : Threads} {key : Bytes} {m : KeyMeta} (idle : f.client = .outside)
      (present : f.storage.data.lookup key = some m) :
      Step f .client { f with
        storage := f.storage.removeEntry key m
        client := .removed key
        entered := f.now }
  | forget {f : Threads} {key : Bytes} (removed : f.client = .removed key) :
      Step f .client { f with
        storage := { f.storage with ttl := f.storage.ttl.erase key }
        client := .leaving (.del key true) }
  | leave {f : Threads} {answer : Answer} (leaving : f.client = .leaving answer) :
      Step f (.returned ⟨f.entered, f.now, answer⟩) { f with client := .outside }
  /-- `expired_keys` needs the mutex of the table only. -/
  | collect {f : Threads} (batch : List Bytes) (idle : f.batch = [])
      (all : batch.Perm (f.storage.collectExpired f.now).1) :
      Step f .sweeper
        { f with storage := (f.storage.collectExpired f.now).2, batch := batch }
  /-- `expire_key` waits for `lock_`. -/
  | expire {f : Threads} {key : Bytes} {rest : List Bytes} (free : f.client = .outside)
      (next : f.batch = key :: rest) :
      Step f .sweeper { f with storage := f.storage.expireKey key, batch := rest }
  | metrics {f : Threads} (free : f.client = .outside) :
      Step f (.metrics f.storage.metrics) f
  | tick (f : Threads) (ticks : Nat) : Step f .clock { f with now := f.now + ticks }

/-- The runs from an empty store. -/
def system (buckets memoryLimit maxValueSize : Nat) : Transition.System Threads Label where
  init f := f.storage = Storage.init buckets memoryLimit maxValueSize ∧ f.client = .outside ∧
    f.batch = []
  step := Step

/-- The operations that have returned, newest first. -/
def returns (g : List Label) : List Call :=
  g.filterMap fun e => match e with
    | .returned c => some c
    | _ => none

end Threads

end PolyCache
