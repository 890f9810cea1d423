import PolyCache.Storage.Accounting
import PolyCache.Library.Transition

/-!
# Clients and the sweeper

The store is shared by the client thread and the sweeper thread of the TTL manager. A sweep pass
collects the keys whose deadline has passed, erasing their deadlines, and then takes the collected
keys out of the store one at a time. `World` is the store together with the keys a pass has
collected and not yet taken out; any client operation may come between two steps of the sweeper,
and the clock never goes back. A history lists what happened, newest first, with the time.
-/

namespace PolyCache

open AssocMap

structure World where
  storage : Storage
  /-- the rest of the batch in `sweep_loop` -/
  pending : List Bytes
  now : Nat

/-- What a `set` was asked and what it did. -/
structure SetRecord where
  key : Bytes
  value : Bytes
  ttl : Int
  stored : Bool
  /-- the key was not in `data_` -/
  fresh : Bool
  /-- the keys its eviction took away -/
  victims : List Bytes
  deriving DecidableEq, Repr

inductive Event where
  | set (r : SetRecord)
  | get (key : Bytes) (blob : Option Bytes)
  | del (key : Bytes) (removed : Bool)
  | collect (batch : List Bytes)
  | expire (key : Bytes)
  | tick (ticks : Nat)
  deriving DecidableEq, Repr

abbrev History := List (Nat × Event)

namespace World

/-- The record of a `set` in this world. -/
def record (w : World) (buckets : Nat) (key : Bytes) (value : Str) (ttl : Int) : SetRecord where
  key := key
  value := value.bytes
  ttl := ttl
  stored := (w.storage.set w.now buckets key value ttl).1
  fresh := (w.storage.data.lookup key).isNone
  victims := w.storage.setVictims w.now buckets key value ttl

inductive Step : World → Nat × Event → World → Prop where
  | set (w : World) (buckets : Nat) (key : Bytes) (value : Str) (ttl : Int) :
      Step w (w.now, .set (w.record buckets key value ttl))
        { w with storage := (w.storage.set w.now buckets key value ttl).2 }
  | get (w : World) (key : Bytes) :
      Step w (w.now, .get key (w.storage.get w.now key).1)
        { w with storage := (w.storage.get w.now key).2 }
  | del (w : World) (key : Bytes) :
      Step w (w.now, .del key (w.storage.del key).1)
        { w with storage := (w.storage.del key).2 }
  /-- The table is a hash map: a pass takes the keys in any order. -/
  | collect (w : World) (batch : List Bytes) (idle : w.pending = [])
      (all : batch.Perm (w.storage.collectExpired w.now).1) :
      Step w (w.now, .collect batch)
        { w with storage := (w.storage.collectExpired w.now).2, pending := batch }
  | expire (w : World) (key : Bytes) (rest : List Bytes) (next : w.pending = key :: rest) :
      Step w (w.now, .expire key)
        { w with storage := w.storage.expireKey key, pending := rest }
  | tick (w : World) (ticks : Nat) :
      Step w (w.now, .tick ticks) { w with now := w.now + ticks }

/-- The runs from an empty store. -/
def system (buckets memoryLimit maxValueSize : Nat) : Transition.System World (Nat × Event) where
  init w := w.storage = Storage.init buckets memoryLimit maxValueSize ∧ w.pending = []
  step := Step

variable {buckets memoryLimit maxValueSize : Nat} {h : History} {w : World}

theorem reaches_init (now : Nat) : (system buckets memoryLimit maxValueSize).Reaches []
    ⟨Storage.init buckets memoryLimit maxValueSize, [], now⟩ := .start ⟨rfl, rfl⟩

theorem record_stored (w : World) (buckets : Nat) (key : Bytes) (value : Str) (ttl : Int) :
    (w.record buckets key value ttl).stored = w.storage.canStore key value :=
  Storage.set_fst _ _ _ _ _ _

/-! ## A pass that has collected and not yet removed -/

/-- `SET k 1 EX 1`, and a second later. -/
def dueHistory : History := [(0, .tick ticksPerSecond), (0, .set ⟨[107], [1], 1, true, true, []⟩)]

def due : World where
  storage := ((Storage.init 1 1024 1024).set 0 1 [107] ⟨[1], 15, by decide⟩ 1).2
  pending := []
  now := ticksPerSecond

theorem due_reaches : (system 1 1024 1024).Reaches dueHistory due :=
  ((reaches_init 0).next (Step.set _ 1 [107] ⟨[1], 15, by decide⟩ 1)).next
    (Step.tick _ ticksPerSecond)

/-- The store after `SET k 1 EX 1` and, a second later, the collection of a sweep pass. -/
def swept : World where
  storage := (((Storage.init 1 1024 1024).set 0 1 [107] ⟨[1], 15, by decide⟩ 1).2.collectExpired
    ticksPerSecond).2
  pending := [[107]]
  now := ticksPerSecond

def sweptHistory : History :=
  [(ticksPerSecond, .collect [[107]]), (0, .tick ticksPerSecond),
    (0, .set ⟨[107], [1], 1, true, true, []⟩)]

theorem swept_reaches : (system 1 1024 1024).Reaches sweptHistory swept :=
  due_reaches.next (Step.collect _ [[107]] rfl (by decide))

/-! ## The books under every interleaving -/

theorem Step.sound {w w' : World} {e : Nat × Event} (h : w.storage.Sound) (hs : Step w e w') :
    w'.storage.Sound := by
  cases hs with
  | set buckets key value ttl => exact h.set _ _ _ _ _
  | get key => exact h.get _ _
  | del key => exact h.del _
  | collect batch => exact h.collectExpired _
  | expire key => exact h.expireKey _
  | tick => exact h

theorem sound_of_reaches (hr : (system buckets memoryLimit maxValueSize).Reaches h w) :
    w.storage.Sound :=
  hr.stateInvariant (fun _ hw => hw.1 ▸ Storage.Sound.init _ _ _) fun _ _ _ hs hst => hst.sound hs

/-- In every interleaving of client operations and sweeper steps the data, the policy and the
counters agree, the limit holds, and an eviction always finds its victim. -/
theorem accounting_of_reaches (hr : (system buckets memoryLimit maxValueSize).Reaches h w) :
    w.storage.Accounting := (sound_of_reaches hr).accounting

theorem swept_accounting : swept.storage.Accounting := accounting_of_reaches swept_reaches

end World

end PolyCache
