import PolyCache.Eviction.LRU
import PolyCache.TTL

/-!
# The store

`Storage` is `src/storage.cpp`. Each method is one step under its mutex; a method that reads the
clock is given `now`. `std::unordered_map` decides by itself how many buckets it has: an insertion
is given the count `buckets` it would grow to, and never shrinks the array; nothing else changes
it. The blob of a stored key is never null, since `set` is the only place that makes one.
-/

namespace PolyCache

open AssocMap

structure KeyMeta where
  value : Bytes
  /-- bytes handed to the eviction policy -/
  size : Nat
  deriving DecidableEq, Repr

structure Storage where
  data : Map Bytes KeyMeta := ∅
  /-- `data_.bucket_count()` -/
  bucketCount : Nat
  policy : LRU := {}
  ttl : TTLManager := {}
  hits : Nat := 0
  misses : Nat := 0
  evictions : Nat := 0
  expiredKeys : Nat := 0
  valueBytes : Counter := {}
  largestItemBytes : Nat := 0
  usedMemoryPeak : Nat := 0
  memoryLimit : Nat
  maxValueSize : Nat

namespace Storage

def kMaxKeySize : Nat := 1 * 1024 * 1024
def kEntryOverhead : Nat := 128

/-- A fresh store whose empty table has `buckets` buckets. -/
def init (buckets memoryLimit maxValueSize : Nat) : Storage :=
  { bucketCount := buckets, memoryLimit := memoryLimit, maxValueSize := maxValueSize }

/-- What a value is charged with: its buffer and the entry around it. -/
def accounted (value : Str) : Nat := value.capacity + kEntryOverhead

def canStore (s : Storage) (key : Bytes) (value : Str) : Bool :=
  if key.length > kMaxKeySize ∨ value.size > s.maxValueSize then false
  else accounted value + key.length ≤ s.memoryLimit

/-- Eight bytes for each bucket pointer. -/
def bucketBytes (s : Storage) : Nat := s.bucketCount * 8

def usedMemory (s : Storage) : Nat := s.policy.memoryUsed.val + s.bucketBytes

/-! ## Eviction -/

/-- What a run of `evict_if_over_limit` leaves: the store, the keys it evicted and whether it
stopped because the policy named a key that is not in `data_`. -/
structure EvictRun where
  storage : Storage
  victims : List Bytes
  missing : Bool

/-- One round of the loop of `evict_if_over_limit`, for a victim that is in `data_`. -/
def evictEntry (s : Storage) (victim : Bytes) (m : KeyMeta) : Storage :=
  { s with
    policy := s.policy.evict.2
    valueBytes := s.valueBytes.sub m.value.length
    data := s.data.erase victim
    ttl := s.ttl.erase victim
    evictions := s.evictions + 1 }

/-- The loop guard. -/
def Over (s : Storage) : Prop := s.data.keys ≠ [] ∧ s.memoryLimit < s.usedMemory

instance (s : Storage) : Decidable s.Over := by unfold Over; infer_instance

/-- The loop. Each round takes a key out of `data_`, so as many rounds as `data_` has keys are
enough. -/
def evictLoop : Nat → Storage → EvictRun
  | 0, s => ⟨s, [], false⟩
  | rounds + 1, s =>
    if s.Over then
      match s.data.lookup s.policy.evict.1 with
      | none => ⟨{ s with policy := s.policy.evict.2 }, [], true⟩
      | some m =>
        let run := evictLoop rounds (s.evictEntry s.policy.evict.1 m)
        { run with victims := s.policy.evict.1 :: run.victims }
    else ⟨s, [], false⟩

def evictIfOverLimit (s : Storage) : EvictRun := evictLoop s.data.keys.length s

/-! ## The client operations -/

/-- The counters of a key that `data_` does not hold, before it is emplaced. -/
def countNew (s : Storage) (payload : Nat) : Storage :=
  { s with
    valueBytes := s.valueBytes.add payload
    largestItemBytes := max s.largestItemBytes payload }

/-- `data_.emplace(key, meta)` -/
def emplace (s : Storage) (buckets : Nat) (key : Bytes) (m : KeyMeta) : Storage :=
  { s with data := s.data.insert key m, bucketCount := max s.bucketCount buckets }

/-- The branch of `set` that overwrites `old`, up to the policy. -/
def overwrite (s : Storage) (key : Bytes) (old m : KeyMeta) : Storage :=
  { s with
    valueBytes := (s.valueBytes.sub old.value.length).add m.value.length
    largestItemBytes := max s.largestItemBytes m.value.length
    data := s.data.insert key m }

/-- The value is in `data_` and the policy knows of it. -/
def place (s : Storage) (buckets : Nat) (key : Bytes) (value : Str) : Storage :=
  let m : KeyMeta := ⟨value.bytes, accounted value⟩
  let placed := match s.data.lookup key with
    | none => (s.countNew value.size).emplace buckets key m
    | some old => s.overwrite key old m
  { placed with policy := placed.policy.add key m.size }

/-- `set` up to the eviction that ends it. -/
def store (s : Storage) (now buckets : Nat) (key : Bytes) (value : Str) (ttl : Int) : Storage :=
  let s := s.place buckets key value
  let s := { s with ttl := if 0 < ttl then s.ttl.setTtl now key ttl else s.ttl.erase key }
  { s with usedMemoryPeak := max s.usedMemoryPeak s.usedMemory }

def set (s : Storage) (now buckets : Nat) (key : Bytes) (value : Str) (ttl : Int) :
    Bool × Storage :=
  if s.canStore key value then
    (true, (s.store now buckets key value ttl).evictIfOverLimit.storage)
  else (false, s)

/-- The keys that a successful `set` evicts. -/
def setVictims (s : Storage) (now buckets : Nat) (key : Bytes) (value : Str) (ttl : Int) :
    List Bytes :=
  if s.canStore key value then (s.store now buckets key value ttl).evictIfOverLimit.victims
  else []

/-- Take a key out of `data_` and the policy: what `get`, `del` and `expire_key` share. -/
def removeEntry (s : Storage) (key : Bytes) (m : KeyMeta) : Storage :=
  { s with
    valueBytes := s.valueBytes.sub m.value.length
    data := s.data.erase key
    policy := s.policy.remove key }

def get (s : Storage) (now : Nat) (key : Bytes) : Option Bytes × Storage :=
  let (expired, ttl) := s.ttl.isExpired now key
  let s := { s with ttl := ttl }
  if expired then
    let s := match s.data.lookup key with
      | none => s
      | some m => s.removeEntry key m
    (none, { s with expiredKeys := s.expiredKeys + 1, misses := s.misses + 1 })
  else
    match s.data.lookup key with
    | none => (none, { s with misses := s.misses + 1 })
    | some m => (some m.value, { s with policy := s.policy.touch key, hits := s.hits + 1 })

def del (s : Storage) (key : Bytes) : Bool × Storage :=
  match s.data.lookup key with
  | none => (false, s)
  | some m => (true, { s.removeEntry key m with ttl := s.ttl.erase key })

/-! ## The sweeper -/

/-- `TTLManager::expired_keys` on the table of the store. -/
def collectExpired (s : Storage) (now : Nat) : List Bytes × Storage :=
  let (keys, ttl) := s.ttl.expiredKeys now
  (keys, { s with ttl := ttl })

def expireKey (s : Storage) (key : Bytes) : Storage :=
  match s.data.lookup key with
  | none => s
  | some m => { s.removeEntry key m with expiredKeys := s.expiredKeys + 1 }

/-! ## Allocation failure -/

/-- The allocations of `set`, in the order it comes to them, up to the eviction: the copy of a
victim's key in `LRU::evict` is not among them. -/
inductive AllocPoint where
  | blob | emplace | listNode | indexNode | ttlNode
  deriving DecidableEq, Repr

/-- Whether `set` comes to the allocation at all. -/
def allocates (s : Storage) (key : Bytes) (ttl : Int) : AllocPoint → Bool
  | .blob => true
  | .emplace => (s.data.lookup key).isNone
  | .listNode | .indexNode => (s.policy.index.lookup key).isNone
  | .ttlNode => 0 < ttl && (s.ttl.expiries.lookup key).isNone

/-- What `set` leaves behind when the allocation throws. -/
def setThrowing (s : Storage) (buckets : Nat) (key : Bytes) (value : Str) :
    AllocPoint → Storage
  | .blob => s
  | .emplace => s.countNew value.size
  | .listNode => { s.place buckets key value with policy := s.policy }
  | .indexNode =>
    { s.place buckets key value with policy := s.policy.pushFront key (accounted value) }
  | .ttlNode => s.place buckets key value

/-- `set` when the allocation `fault`, if any, is the first to throw `bad_alloc`; the answer is
missing when it does. -/
def trySet (s : Storage) (now buckets : Nat) (key : Bytes) (value : Str) (ttl : Int) :
    Option AllocPoint → Option Bool × Storage
  | some p =>
    if s.canStore key value ∧ s.allocates key ttl p then
      (none, s.setThrowing buckets key value p)
    else
      let (answer, s) := s.set now buckets key value ttl
      (some answer, s)
  | none =>
    let (answer, s) := s.set now buckets key value ttl
    (some answer, s)

end Storage

end PolyCache
